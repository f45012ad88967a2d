import PluginPack.TypeSyntax.Bracket

/-!
# Type assertions

In `value as Type` the white space, the word `as` and the type go. An assertion stands behind a
name, a closing parenthesis or a closing bracket, or at the beginning of a stretch of code. Chained
assertions are removed from the left, one round after the other, until a round finds none; every
round but the last shortens the code, so the rounds come to an end.
-/

namespace PluginPack

open Text

namespace TypeSyntax

/-- Whether an operand of an assertion may end in a character. -/
def endsOperand (c : Char) : Bool := isNameChar c || c == ')' || c == ']'

/-- The rest after one list of type arguments without inner lists. -/
def typeArguments? : Text → Option Text := angles? fun c ↦ c != '<' && c != '>' && c != '\n'

/-- The rest after any number of empty bracket pairs. -/
def skipArrays : Text → Text
  | '[' :: ']' :: r => skipArrays r
  | t => t

/-- The rest after a dotted name, perhaps with type arguments and array brackets. -/
def namedType? (t : Text) : Option Text :=
  (some? (fun c ↦ isNameChar c || c == '.') t).map fun r ↦
    skipArrays (optionally typeArguments? r)

/-- The rest after an asserted type. The word `const` is a type of its own. -/
def assertedType? (t : Text) : Option Text :=
  match word? "const".toList t with
  | some r => if r.head?.any isWordChar then namedType? t else some r
  | none => namedType? t

/-- The rest after an assertion, from the white space before `as` on. -/
def assertion? (t : Text) : Option Text :=
  (white? t).bind fun r ↦ (keyword? "as".toList r).bind assertedType?

/-- The last character of an operand with the assertion behind it, or an assertion that begins the
code. -/
def asserted? (before : Option Char) : Text → Option (Text × Text)
  | [] => none
  | c :: r =>
    if endsOperand c then (assertion? r).map ([c], ·)
    else if before.isNone then (assertion? (c :: r)).map ([], ·)
    else none

theorem skipArrays_suffix (t : Text) : skipArrays t <:+ t := by
  fun_induction skipArrays t with
  | case1 r ih => exact ih.trans ⟨['[', ']'], rfl⟩
  | case2 => exact List.suffix_refl _

theorem namedType?_suffix {t r : Text} (h : namedType? t = some r) : r <:+ t := by
  obtain ⟨a, ha, rfl⟩ := Option.map_eq_some_iff.mp h
  exact (skipArrays_suffix _).trans
    ((optionally_suffix (fun h ↦ angles?_suffix h) a).trans (some?_suffix ha))

theorem assertedType?_suffix {t r : Text} (h : assertedType? t = some r) : r <:+ t := by
  unfold assertedType? at h
  split at h
  · rename_i s hs
    split at h
    · exact namedType?_suffix h
    · cases h
      exact word?_suffix hs
  · exact namedType?_suffix h

theorem assertion?_suffix {t r : Text} (h : assertion? t = some r) :
    r <:+ t ∧ r.length < t.length := by
  obtain ⟨a, ha, h⟩ := Option.bind_eq_some_iff.mp h
  obtain ⟨b, hb, h⟩ := Option.bind_eq_some_iff.mp h
  have hr : r <:+ a := (assertedType?_suffix h).trans (keyword?_suffix hb)
  exact ⟨hr.trans (white?_suffix ha), Nat.lt_of_le_of_lt hr.length_le (some?_length_lt ha)⟩

theorem asserted?_suffix {before : Option Char} {t a r : Text}
    (h : asserted? before t = some (a, r)) : r <:+ t ∧ r.length < t.length := by
  unfold asserted? at h
  split at h
  · cases h
  · rename_i c s
    split at h
    · obtain ⟨b, hb, he⟩ := Option.map_eq_some_iff.mp h
      cases he
      have := assertion?_suffix hb
      exact ⟨this.1.trans (List.suffix_cons c s), Nat.lt_succ_of_lt this.2⟩
    · split at h
      · obtain ⟨b, hb, he⟩ := Option.map_eq_some_iff.mp h
        cases he
        exact assertion?_suffix hb
      · cases h

/-- Assertions, each with what stays of the operand it stands behind. -/
def assertion : Marker Text where
  find? := asserted?
  suffix h := (asserted?_suffix h).1
  shorter h := (asserted?_suffix h).2

/-- Removes the assertions that one round finds. -/
def eraseAssertionsOnce (code : Text) : Text := assertion.replace id code

/-- Removes all assertions from a stretch of code. -/
def eraseAssertions (code : Text) : Text :=
  if (eraseAssertionsOnce code).length < code.length then eraseAssertions (eraseAssertionsOnce code)
  else code
termination_by code.length

end TypeSyntax

end PluginPack
