import PluginPack.Text.Marker

/-!
# Literals and comments

String literals, template literals and comments are the parts of a script that no change may look
into. `inert?` reads the one that a text begins with. A backslash in a literal takes the character
after it along; a string literal also ends, unfinished, before a newline; a literal or block
comment that is never closed runs to the end of the text.
-/

namespace PluginPack

open Text

namespace Script

/-- Whether a character opens a literal. -/
def isQuote (c : Char) : Bool := c == '"' || c == '\'' || c == '\x60'

/-- Reads a literal from behind its opening quote: what belongs to it and what does not. -/
def splitQuoted (quote : Char) : Text → Text × Text
  | [] => ([], [])
  | '\\' :: [] => (['\\'], [])
  | '\\' :: c :: r =>
    let p := splitQuoted quote r
    ('\\' :: c :: p.1, p.2)
  | c :: r =>
    if c = '\n' ∧ quote ≠ '\x60' then ([], c :: r)
    else if c = quote then ([c], r)
    else
      let p := splitQuoted quote r
      (c :: p.1, p.2)

/-- Reads a block comment from behind its opening: what belongs to it and what does not. -/
def splitBlockComment (t : Text) : Text × Text :=
  match cutAt? ['*', '/'] t with
  | some (body, r) => (body ++ ['*', '/'], r)
  | none => (t, [])

/-- The literal or comment that a text begins with, and the rest of the text. -/
def inert? : Text → Option (Text × Text)
  | '/' :: '/' :: r => some ('/' :: '/' :: r.takeWhile (· != '\n'), r.dropWhile (· != '\n'))
  | '/' :: '*' :: r =>
    let p := splitBlockComment r
    some ('/' :: '*' :: p.1, p.2)
  | c :: r =>
    if isQuote c then
      let p := splitQuoted c r
      some (c :: p.1, p.2)
    else none
  | [] => none

theorem splitQuoted_cons {quote c : Char} {r : Text} (hc : c ≠ '\\') (hn : c ≠ '\n')
    (hq : c ≠ quote) :
    splitQuoted quote (c :: r) = (c :: (splitQuoted quote r).1, (splitQuoted quote r).2) := by
  rw [splitQuoted, if_neg fun h ↦ hn h.1, if_neg hq]
  · exact fun h ↦ absurd h hc
  · exact fun _ _ h ↦ absurd h hc

theorem splitQuoted_self {quote : Char} {r : Text} (hc : quote ≠ '\\') (hn : quote ≠ '\n') :
    splitQuoted quote (quote :: r) = ([quote], r) := by
  rw [splitQuoted, if_neg fun h ↦ hn h.1, if_pos rfl]
  · exact fun h ↦ absurd h hc
  · exact fun _ _ h ↦ absurd h hc

theorem splitQuoted_append (quote : Char) (t : Text) :
    (splitQuoted quote t).1 ++ (splitQuoted quote t).2 = t := by
  fun_induction splitQuoted quote t <;> simp_all +zetaDelta

theorem splitBlockComment_append (t : Text) :
    (splitBlockComment t).1 ++ (splitBlockComment t).2 = t := by
  unfold splitBlockComment
  split
  · rename_i body r h
    rw [eq_append_of_cutAt? h]
  · simp

/-- The literal or comment and the rest make up the text. -/
theorem inert?_append {t lit r : Text} (h : inert? t = some (lit, r)) : lit ++ r = t := by
  unfold inert? at h
  split at h
  · cases h
    simp
  · rename_i s
    cases h
    simpa using splitBlockComment_append s
  · rename_i c s _ _
    split at h
    · cases h
      simpa using splitQuoted_append c s
    · cases h
  · cases h

theorem inert?_cons {c : Char} (hslash : c ≠ '/') (t : Text) :
    inert? (c :: t) =
      if isQuote c then some (c :: (splitQuoted c t).1, (splitQuoted c t).2) else none := by
  unfold inert?
  split
  · rename_i heq
    exact absurd (List.cons.inj heq).1 hslash
  · rename_i heq
    exact absurd (List.cons.inj heq).1 hslash
  · rename_i heq
    obtain ⟨rfl, rfl⟩ := List.cons.inj heq
    rfl
  · rename_i heq
    cases heq

/-- Only a quote or a slash begins a literal or a comment. -/
theorem inert?_eq_none {c : Char} (hquote : isQuote c = false) (hslash : c ≠ '/') (r : Text) :
    inert? (c :: r) = none := by
  rw [inert?_cons hslash, if_neg (by simp [hquote])]

theorem inert?_of_isQuote {q : Char} (hq : isQuote q = true) (t : Text) :
    inert? (q :: t) = some (q :: (splitQuoted q t).1, (splitQuoted q t).2) := by
  have hslash : q ≠ '/' := by
    rintro rfl
    cases hq
  rw [inert?_cons hslash, if_pos hq]

theorem inert?_ne_nil {t lit r : Text} (h : inert? t = some (lit, r)) : lit ≠ [] := by
  unfold inert? at h
  split at h
  · cases h; simp
  · cases h; simp
  · split at h
    · cases h; simp
    · cases h
  · cases h

theorem inert?_length_lt {t lit r : Text} (h : inert? t = some (lit, r)) :
    r.length < t.length := by
  have := List.length_pos_iff.mpr (inert?_ne_nil h)
  rw [← inert?_append h, List.length_append]
  omega

/-- Literals and comments, wherever they begin. -/
def inert : Marker Text where
  find? _ t := inert? t
  suffix h := ⟨_, inert?_append h⟩
  shorter h := inert?_length_lt h

/-- Rewrites every stretch of code between literals and comments. -/
def mapCode (f : Text → Text) (t : Text) : Text := (inert.cut t).render f Part.lexeme

/-! ## Brackets -/

/-- Whether a character opens a bracket. -/
def isOpening (c : Char) : Bool := c == '(' || c == '[' || c == '{'

/-- Whether a character closes a bracket. -/
def isClosing (c : Char) : Bool := c == ')' || c == ']' || c == '}'

/-- Reads on until as many brackets have closed as are open, and more than open on the way. The
answer is the text before the last of these brackets and the text from it on. Brackets in literals
and comments do not count, and the three kinds of bracket count alike. -/
def splitClosing? (depth : Nat) (t : Text) : Option (Text × Text) :=
  match t with
  | [] => none
  | c :: s =>
    match h : inert? (c :: s) with
    | some (lit, r) =>
      have := inert?_length_lt h
      (splitClosing? depth r).map fun p ↦ (lit ++ p.1, p.2)
    | none =>
      if isOpening c then (splitClosing? (depth + 1) s).map fun p ↦ (c :: p.1, p.2)
      else if isClosing c then
        if depth ≤ 1 then some ([], c :: s)
        else (splitClosing? (depth - 1) s).map fun p ↦ (c :: p.1, p.2)
      else (splitClosing? depth s).map fun p ↦ (c :: p.1, p.2)
termination_by t.length
decreasing_by all_goals (simp only [List.length_cons] at *; omega)

/-- Reads from behind an opening parenthesis: the text up to the parenthesis that closes it, and the
text behind that one. There is no answer when another kind of bracket closes it. -/
def closeParen? (t : Text) : Option (Text × Text) :=
  match splitClosing? 1 t with
  | some (inside, ')' :: r) => some (inside, r)
  | _ => none

theorem splitClosing?_append {depth : Nat} {t a b : Text}
    (h : splitClosing? depth t = some (a, b)) : a ++ b = t := by
  fun_induction splitClosing? depth t generalizing a b with
  | case1 => cases h
  | case2 depth c s lit r hl _ ih =>
    obtain ⟨p, hp, he⟩ := Option.map_eq_some_iff.mp h
    cases he
    rw [List.append_assoc, ih hp, inert?_append hl]
  | case3 depth c s _ _ ih =>
    obtain ⟨p, hp, he⟩ := Option.map_eq_some_iff.mp h
    cases he
    simp [ih hp]
  | case4 depth c s => cases h; rfl
  | case5 depth c s _ _ _ _ ih =>
    obtain ⟨p, hp, he⟩ := Option.map_eq_some_iff.mp h
    cases he
    simp [ih hp]
  | case6 depth c s _ _ _ ih =>
    obtain ⟨p, hp, he⟩ := Option.map_eq_some_iff.mp h
    cases he
    simp [ih hp]

theorem closeParen?_append {t inside r : Text} (h : closeParen? t = some (inside, r)) :
    inside ++ ')' :: r = t := by
  unfold closeParen? at h
  split at h
  · rename_i hs
    cases h
    exact splitClosing?_append hs
  · cases h

end Script

end PluginPack
