import PluginPack.Script.Literal

/-!
# Brackets of types

Types are nested in angle brackets besides the brackets of a script, and a list in angle brackets is
read in one go where nothing is nested in it.
-/

namespace PluginPack

open Text Script

namespace TypeSyntax

/-- Whether a character opens a bracket of a type, angle brackets among them. -/
def opensNesting (c : Char) : Bool := isOpening c || c == '<'

/-- Whether a character closes a bracket of a type. -/
def closesNesting (c : Char) : Bool := isClosing c || c == '>'

/-- The rest after a list in angle brackets that is made of characters of a class. -/
def angles? (inner : Char → Bool) (t : Text) : Option Text :=
  (word? ['<'] t).bind fun r ↦ word? ['>'] (r.dropWhile inner)

theorem angles?_suffix {inner : Char → Bool} {t r : Text} (h : angles? inner t = some r) :
    r <:+ t := by
  obtain ⟨s, hs, h⟩ := Option.bind_eq_some_iff.mp h
  exact (word?_suffix h).trans ((List.dropWhile_suffix _).trans (word?_suffix hs))

theorem angles?_eq_none {inner : Char → Bool} {t : Text} (h : '<' ∉ t.head?) :
    angles? inner t = none := by
  cases t with
  | nil => rfl
  | cons c r =>
    have hc : '<' ≠ c := fun heq ↦ h (heq ▸ rfl)
    rw [angles?, word?, if_neg hc, Option.bind_none]

end TypeSyntax

end PluginPack
