import PluginPack.TypeSyntax.Bracket

/-!
# Annotations of variables

In `const name: Type = value` the colon and the type go. The type ends before the first equals sign,
semicolon, comma or newline outside brackets, where an arrow is no equals sign, and trailing white
space is not part of it. When the stretch of code ends first, the annotation stays: what follows
is a literal or a comment that may belong to the type.
-/

namespace PluginPack

open Text

namespace TypeSyntax

/-- Whether a character ends an annotation outside brackets. -/
def endsAnnotation (c : Char) : Bool := c == '=' || c == ';' || c == ',' || c == '\n'

/-- The type that a text begins with, up to the character that ends it. There is none when a bracket
closes that was not opened, or when nothing ends the type. -/
def annotation? (depth : Nat) : Text → Option Text
  | [] => none
  | '=' :: '>' :: r => (annotation? depth r).map ('=' :: '>' :: ·)
  | c :: r =>
    if opensNesting c then (annotation? (depth + 1) r).map (c :: ·)
    else if closesNesting c then
      if depth = 0 then none else (annotation? (depth - 1) r).map (c :: ·)
    else if endsAnnotation c && depth == 0 then some []
    else (annotation? depth r).map (c :: ·)

/-- The rest after a type annotation, from the white space at its end on. -/
def afterAnnotation? (t : Text) : Option Text :=
  (annotation? 0 t).bind fun type ↦
    match type.reverse.dropWhile isAsciiWhite with
    | [] => none
    | kept => some (t.drop kept.length)

/-- The rest after a word that declares variables and the white space behind it. -/
def declarator? (t : Text) : Option Text :=
  (keyword? "const".toList t).or <| (keyword? "let".toList t).or (keyword? "var".toList t)

/-- The declaration that a text begins with, up to the name, and the rest after the annotation. -/
def annotatedVariable? (t : Text) : Option (Text × Text) :=
  (declarator? t).bind fun r ↦ (some? isNameChar r).bind fun r ↦
    ((word? [':'] (trimStart r)).bind afterAnnotation?).map (Marker.consumed t r, ·)

/-- Two ways to say that a character does not begin an arrow. -/
theorem not_arrow_of_forall {c : Char} {t : Text} (h : ∀ r, c = '=' → t = '>' :: r → False) :
    ¬(c = '=' ∧ t.head? = some '>') := by
  rintro ⟨hc, hhead⟩
  obtain ⟨r, hr⟩ := List.head?_eq_some_iff.mp hhead
  exact h r hc hr

theorem annotation?_isPrefix {depth : Nat} {t a : Text} (h : annotation? depth t = some a) :
    a <+: t := by
  fun_induction annotation? depth t generalizing a with
  | case1 | case4 => cases h
  | case6 =>
    cases h
    exact List.nil_prefix
  | case2 depth r ih =>
    obtain ⟨x, hx, rfl⟩ := Option.map_eq_some_iff.mp h
    exact (List.prefix_append_right_inj ['=', '>']).mpr (ih hx)
  | case3 depth c r _ _ ih | case5 depth c r _ _ _ _ ih | case7 depth c r _ _ _ _ ih =>
    obtain ⟨x, hx, rfl⟩ := Option.map_eq_some_iff.mp h
    exact (List.prefix_append_right_inj [c]).mpr (ih hx)

theorem afterAnnotation?_suffix {t r : Text} (h : afterAnnotation? t = some r) : r <:+ t := by
  obtain ⟨a, ha, h⟩ := Option.bind_eq_some_iff.mp h
  split at h
  · cases h
  · cases h
    exact List.drop_suffix _ _

theorem declarator?_suffix {t r : Text} (h : declarator? t = some r) : r <:+ t := by
  rcases Option.or_eq_some_iff.mp h with h | ⟨-, h⟩
  · exact keyword?_suffix h
  · rcases Option.or_eq_some_iff.mp h with h | ⟨-, h⟩
    · exact keyword?_suffix h
    · exact keyword?_suffix h

theorem annotatedVariable?_suffix {t b r : Text} (h : annotatedVariable? t = some (b, r)) :
    r <:+ t ∧ r.length < t.length := by
  obtain ⟨c, hc, h⟩ := Option.bind_eq_some_iff.mp h
  obtain ⟨d, hd, h⟩ := Option.bind_eq_some_iff.mp h
  obtain ⟨e, he, hr⟩ := Option.map_eq_some_iff.mp h
  cases hr
  obtain ⟨f, hf, he⟩ := Option.bind_eq_some_iff.mp he
  have hr : r <:+ d := (afterAnnotation?_suffix he).trans ((word?_suffix hf).trans
    (List.dropWhile_suffix _))
  have hct := declarator?_suffix hc
  exact ⟨hr.trans ((some?_suffix hd).trans hct), Nat.lt_of_le_of_lt hr.length_le
    (Nat.lt_of_lt_of_le (some?_length_lt hd) hct.length_le)⟩

/-- Annotated variables, each with its declaration up to the name. The declaring word must not be
the end of a longer word. -/
def annotatedVariable : Marker Text where
  find? before t := if before.any isWordChar then none else annotatedVariable? t
  suffix h := by
    split at h
    · cases h
    · exact (annotatedVariable?_suffix h).1
  shorter h := by
    split at h
    · cases h
    · exact (annotatedVariable?_suffix h).2

/-- Removes the annotations of variables from a stretch of code. -/
def eraseAnnotations (code : Text) : Text := annotatedVariable.replace id code

end TypeSyntax

end PluginPack
