import PluginPack.Documentation.Function

/-!
# Finding documented functions

A function is documented when an exported function follows a block `/** ... */` with only white
space between them. It ends at the first closing brace that begins a line. Going through a source,
the search goes on behind the function, or behind the block when no function follows it; a block
that is never closed ends the search.
-/

namespace PluginPack

open Text

namespace Documentation

/-- A documentation block: the text between its ends, and the text behind it. -/
structure Block where
  inner : Text
  rest : Text
deriving DecidableEq, Repr

/-- The next block of a text. -/
def nextBlock? (t : Text) : Option Block :=
  (cutAt? "/**".toList t).bind fun p ↦
    (cutAt? "*/".toList p.2).map fun q ↦ ⟨q.1, q.2⟩

/-- The source of an exported function. -/
structure Source where
  name : Text
  params : Text
  isAsync : Bool
  body : Text
  /-- The text behind the closing brace. -/
  rest : Text
deriving DecidableEq, Repr

/-- The text behind the brace that opens the body, from behind the parameters on. A colon has to be
followed by some text before the brace. -/
def openBody? (t : Text) : Option Text :=
  match trimStart t with
  | '{' :: r => some r
  | ':' :: r =>
    match r.dropWhile (· != '{') with
    | '{' :: r' => if r.head? = some '{' then none else some r'
    | _ => none
  | _ => none

/-- Reads a function from its name on. -/
def named? (isAsync : Bool) (t : Text) : Option Source :=
  let name := t.takeWhile isNameChar
  if name.head?.any isNameStart then
    (word? ['('] (trimStart (t.dropWhile isNameChar))).bind fun r ↦
      match r.dropWhile (· != ')') with
      | [] => none
      | _ :: behind =>
        (openBody? behind).bind fun opened ↦ (cutAt? "\n\x7d".toList opened).map fun (body, rest) ↦
          ⟨name, r.takeWhile (· != ')'), isAsync, body, rest⟩
  else none

/-- Reads an exported function from the word `export` on. -/
def exported? (t : Text) : Option Source :=
  (keyword? "export".toList t).bind fun r ↦
    match keyword? "async".toList r with
    | some r' => (keyword? "function".toList r').bind (named? true)
    | none => (keyword? "function".toList r).bind (named? false)

/-- The record of a function, given the text between the ends of its block. -/
def Source.record (s : Source) (inner : Text) (line : Nat) : Function :=
  let lines := readBlock inner
  { name := s.name
    description := description lines
    parameters := parameters lines
    returns := returnValues lines
    permissions := permissionsOf lines
    body := trim s.body
    params := trim s.params
    isAsync := s.isAsync
    line }

theorem length_of_cutAt? {w t a b : Text} (h : cutAt? w t = some (a, b)) :
    b.length + w.length ≤ t.length := by
  rw [eq_append_of_cutAt? h]
  simp
  omega

theorem nextBlock?_length {t : Text} {b : Block} (h : nextBlock? t = some b) :
    b.rest.length < t.length := by
  obtain ⟨p, hp, h⟩ := Option.bind_eq_some_iff.mp h
  obtain ⟨q, hq, rfl⟩ := Option.map_eq_some_iff.mp h
  have h1 := length_of_cutAt? hp
  have h2 := length_of_cutAt? hq
  simp at h1 h2 ⊢
  omega

theorem openBody?_suffix {t r : Text} (h : openBody? t = some r) : r <:+ t := by
  have ht : trimStart t <:+ t := List.dropWhile_suffix _
  unfold openBody? at h
  split at h
  · rename_i s hs
    cases h
    exact (List.suffix_cons _ _).trans (hs ▸ ht)
  · rename_i s hs
    split at h
    · rename_i u hu
      split at h
      · cases h
      · cases h
        exact (List.suffix_cons _ _).trans <| (hu ▸ List.dropWhile_suffix _ : _ <:+ s).trans <|
          (List.suffix_cons _ _).trans (hs ▸ ht)
    · cases h
  · cases h

theorem named?_length {isAsync : Bool} {t : Text} {s : Source} (h : named? isAsync t = some s) :
    s.rest.length ≤ t.length := by
  unfold named? at h
  dsimp only at h
  split at h
  · obtain ⟨r, hr, h⟩ := Option.bind_eq_some_iff.mp h
    have h0 := ((word?_suffix hr).trans <| (List.dropWhile_suffix _).trans <|
      List.dropWhile_suffix (l := t) isNameChar).length_le
    split at h
    · cases h
    · rename_i c behind hb
      have h1 : (c :: behind).length ≤ r.length := by
        rw [← hb]
        exact (List.dropWhile_suffix _).length_le
      obtain ⟨o, ho, h⟩ := Option.bind_eq_some_iff.mp h
      obtain ⟨⟨body, rest⟩, hc, he⟩ := Option.map_eq_some_iff.mp h
      cases he
      have h2 := length_of_cutAt? hc
      have h3 := (openBody?_suffix ho).length_le
      simp at h1 h2 ⊢
      omega
  · cases h

theorem exported?_length {t : Text} {s : Source} (h : exported? t = some s) :
    s.rest.length ≤ t.length := by
  obtain ⟨r, hr, h⟩ := Option.bind_eq_some_iff.mp h
  have h0 := (keyword?_suffix hr).length_le
  split at h
  · rename_i u hu
    obtain ⟨v, hv, h⟩ := Option.bind_eq_some_iff.mp h
    have h1 := (keyword?_suffix hu).length_le
    have h2 := (keyword?_suffix hv).length_le
    have h3 := named?_length h
    omega
  · obtain ⟨v, hv, h⟩ := Option.bind_eq_some_iff.mp h
    have h2 := (keyword?_suffix hv).length_le
    have h3 := named?_length h
    omega

/-- The records of all documented functions of a text that stands behind `line` newlines. -/
def functionsFrom (line : Nat) (t : Text) : List Function :=
  match hb : nextBlock? t with
  | none => []
  | some b =>
    have _ := nextBlock?_length hb
    let start := trimStart b.rest
    have _ : start.length ≤ b.rest.length := (List.dropWhile_suffix isWhite).length_le
    match hs : exported? start with
    | some s =>
      have _ := exported?_length hs
      let before := (Marker.consumed t start).count '\n'
      let inside := (Marker.consumed start s.rest).count '\n'
      s.record b.inner (line + before + 1) :: functionsFrom (line + before + inside) s.rest
    | none => functionsFrom (line + (Marker.consumed t b.rest).count '\n') b.rest
termination_by t.length
decreasing_by all_goals omega

/-- The records of the documented exported functions of a source, in the order of the source. Of
functions with one name only the first counts. -/
def extract (source : Text) : List Function := distinct (functionsFrom 0 source)

end Documentation

end PluginPack
