/-!
# Texts and ranges of character codes

A text is a list of characters. Classes of characters beyond ASCII are given as lists of code
ranges.
-/

namespace PluginPack

/-- A text, character by character. -/
abbrev Text := List Char

/-- The characters whose codes lie between two bounds, both included. -/
structure CodeRange where
  first : Nat
  last : Nat

/-- Whether the range holds the character of code `n`. -/
def CodeRange.contains (r : CodeRange) (n : Nat) : Bool := r.first ≤ n && n ≤ r.last

/-- Whether one of the ranges holds the character. -/
def inRanges (rs : List CodeRange) (c : Char) : Bool := rs.any (·.contains c.toNat)

/-- Whether two ranges have no code in common. -/
def CodeRange.isApart (r s : CodeRange) : Bool := Nat.blt r.last s.first || Nat.blt s.last r.first

/-- A character is in one of two tables at most when their ranges are apart. -/
theorem inRanges_of_isApart {rs ss : List CodeRange} {c : Char} (hc : inRanges rs c = true)
    (h : (rs.all fun r ↦ ss.all r.isApart) = true) : inRanges ss c = false := by
  obtain ⟨r, hr, hc⟩ := List.any_eq_true.mp hc
  refine List.any_eq_false.mpr fun s hs hcs ↦ ?_
  have hapart := List.all_eq_true.mp (List.all_eq_true.mp h r hr) s hs
  simp only [CodeRange.contains, Bool.and_eq_true, decide_eq_true_eq] at hc hcs
  simp only [CodeRange.isApart, Bool.or_eq_true, Nat.blt_eq] at hapart
  omega

end PluginPack
