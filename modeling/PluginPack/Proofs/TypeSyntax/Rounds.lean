import Mathlib.Logic.Function.Iterate
import PluginPack.Proofs.Typed.Assertion

/-!
# Rounds of assertions

An assertion is said without reading: white space, the word `as`, white space again and a type, all
of it behind the end of an operand or at the beginning of the text. A round shortens every text with
an assertion in it, so the rounds come to an end, and what they leave has no assertion. A round may
bring about a new assertion, since what stood in front of a removed one comes to stand next to what
follows it; so it is only the length that bounds the number of rounds.
-/

namespace PluginPack

open Text

namespace TypeSyntax

open Typed (arrayBrackets)

variable {a r t w w' x y : Text}

/-! ## Assertions -/

/-- White space, of which there is some. -/
def IsWhiteRun (w : Text) : Prop := w ≠ [] ∧ ∀ c ∈ w, isWhite c = true

/-- Type arguments in one pair of angle brackets, on one line. -/
def IsArguments (t : Text) : Prop := ∃ w, t = '<' :: (w ++ ['>']) ∧ ∀ c ∈ w, c ∉ ['<', '>', '\n']

/-- A character of a dotted name. -/
def isDottedChar (c : Char) : Bool := isNameChar c || c == '.'

/-- A type that an assertion may name in front of `r`: the word `const`, if the word ends there, or
a dotted name, perhaps with type arguments, with array brackets. -/
inductive IsAssertedType (r : Text) : Text → Prop where
  | const : Stops isWordChar r → IsAssertedType r "const".toList
  | named {n a : Text} (k : Nat) : n ≠ [] → (∀ c ∈ n, isDottedChar c = true) →
      (a = [] ∨ IsArguments a) → IsAssertedType r (n ++ (a ++ arrayBrackets k))

/-- An assertion in its place. The operand is given by its last character; at the beginning of the
text there need not be one. -/
structure IsAssertion (front operand w w' type rest : Text) : Prop where
  operand_end : (∃ c, operand = [c] ∧ endsOperand c = true) ∨ operand = [] ∧ front = []
  white_front : IsWhiteRun w
  white_back : IsWhiteRun w'
  isAssertedType : IsAssertedType rest type

/-- An assertion stands somewhere in the text. -/
def HasAssertion (t : Text) : Prop :=
  ∃ front operand w w' type rest, IsAssertion front operand w w' type rest ∧
    t = front ++ (operand ++ (w ++ ("as".toList ++ (w' ++ (type ++ rest)))))

/-! ## What is read is an assertion -/

theorem exists_of_typeArguments? (h : typeArguments? t = some r) :
    ∃ a, IsArguments a ∧ t = a ++ r := by
  obtain ⟨s, hopen, hclose⟩ := Option.bind_eq_some_iff.mp h
  refine ⟨'<' :: (s.takeWhile (fun c ↦ c != '<' && c != '>' && c != '\n') ++ ['>']),
    ⟨_, rfl, fun c hc ↦ ?_⟩, ?_⟩
  · simpa [and_assoc] using List.mem_takeWhile_imp hc
  · have hread : t = '<' :: s := word?_eq_some_iff.mp hopen
    have hrest := word?_eq_some_iff.mp hclose
    rw [hread, List.cons_append, List.append_assoc, ← hrest, List.takeWhile_append_dropWhile]

theorem exists_eq_arrayBrackets (t : Text) : ∃ k, t = arrayBrackets k ++ skipArrays t := by
  fun_induction skipArrays t with
  | case1 r ih =>
    obtain ⟨k, hk⟩ := ih
    refine ⟨k + 1, ?_⟩
    rw [Typed.arrayBrackets_succ, List.cons_append, List.cons_append, ← hk]
  | case2 t => exact ⟨0, rfl⟩

theorem exists_of_namedType? (h : namedType? t = some r) :
    ∃ type, IsAssertedType r type ∧ t = type ++ r := by
  obtain ⟨s, hs, rfl⟩ := Option.map_eq_some_iff.mp h
  obtain ⟨n, hne, hn, -, rfl⟩ := exists_of_some?_eq_some hs
  obtain ⟨a, ha, hs⟩ : ∃ a, (a = [] ∨ IsArguments a) ∧ s = a ++ optionally typeArguments? s := by
    rw [optionally]
    cases h : typeArguments? s with
    | none => exact ⟨[], .inl rfl, rfl⟩
    | some r =>
      obtain ⟨a, ha, hs⟩ := exists_of_typeArguments? h
      exact ⟨a, .inr ha, hs⟩
  obtain ⟨k, hk⟩ := exists_eq_arrayBrackets (optionally typeArguments? s)
  refine ⟨_, .named k hne hn ha, ?_⟩
  rw [List.append_assoc, List.append_assoc, ← hk, ← hs]

theorem exists_of_assertedType? (h : assertedType? t = some r) :
    ∃ type, IsAssertedType r type ∧ t = type ++ r := by
  rw [assertedType?] at h
  split at h
  · rename_i s hs
    split at h
    · exact exists_of_namedType? h
    · rename_i hword
      cases h
      refine ⟨_, .const fun c hc ↦ ?_, word?_eq_some_iff.mp hs⟩
      rw [Option.mem_def.mp hc] at hword
      simpa using hword
  · exact exists_of_namedType? h

theorem exists_of_assertion? (h : assertion? t = some r) :
    ∃ w w' type, IsWhiteRun w ∧ IsWhiteRun w' ∧ IsAssertedType r type ∧
      t = w ++ ("as".toList ++ (w' ++ (type ++ r))) := by
  obtain ⟨s, hs, hrest⟩ := Option.bind_eq_some_iff.mp h
  obtain ⟨u, hu, hr⟩ := Option.bind_eq_some_iff.mp hrest
  obtain ⟨w, hne, hw, -, rfl⟩ := exists_of_some?_eq_some hs
  obtain ⟨w', hne', hw', -, rfl⟩ := exists_of_keyword?_eq_some hu
  obtain ⟨type, htype, rfl⟩ := exists_of_assertedType? hr
  exact ⟨w, w', type, ⟨hne, hw⟩, ⟨hne', hw'⟩, htype, rfl⟩

/-- **What is found is an assertion.** -/
theorem hasAssertion_of_find? (h : assertion.find? x.getLast? y = some (a, r)) :
    HasAssertion (x ++ y) := by
  obtain ⟨s, rfl, hs, hend⟩ := exists_of_find?_assertion h
  obtain ⟨w, w', type, hw, hw', htype, rfl⟩ := exists_of_assertion? hs
  rw [List.getLast?_eq_none_iff] at hend
  exact ⟨x, a, w, w', type, r, ⟨hend, hw, hw', htype⟩, rfl⟩

/-! ## Assertions are found -/

theorem isWhite_of_isDottedChar {c : Char} (h : isDottedChar c = true) : isWhite c = false := by
  rw [isDottedChar, Bool.or_eq_true, beq_iff_eq] at h
  rcases h with h | rfl
  · exact isWhite_of_isNameChar h
  · rfl

theorem endsOperand_of_isWhite {c : Char} (h : isWhite c = true) : endsOperand c = false := by
  refine Bool.eq_false_iff.mpr fun hc ↦ ?_
  rw [endsOperand, Bool.or_eq_true, Bool.or_eq_true, beq_iff_eq, beq_iff_eq] at hc
  rcases hc with (hc | rfl) | rfl
  · rw [isWhite_of_isNameChar hc] at h
    cases h
  · cases h
  · cases h

/-- A type begins with a character of a name, of which reading needs no more. -/
theorem IsAssertedType.exists_cons {type : Text} (h : IsAssertedType r type) :
    ∃ c s, type = c :: s ∧ isDottedChar c = true := by
  cases h with
  | const => exact ⟨'c', "onst".toList, rfl, by decide⟩
  | named k hne hn ha =>
    obtain ⟨c, n, rfl⟩ := List.exists_cons_of_ne_nil hne
    exact ⟨c, _, List.cons_append, hn c List.mem_cons_self⟩

theorem assertion?_ne_none {type : Text} (hw : IsWhiteRun w) (hw' : IsWhiteRun w')
    (htype : IsAssertedType r type) :
    assertion? (w ++ ("as".toList ++ (w' ++ (type ++ r)))) ≠ none := by
  obtain ⟨c, s, rfl, hc⟩ := htype.exists_cons
  have hfront : white? (w ++ ("as".toList ++ (w' ++ (c :: s ++ r)))) =
      some ("as".toList ++ (w' ++ (c :: s ++ r))) :=
    some?_append hw.1 hw.2 (stops_cons.mpr (by decide))
  have hback : keyword? "as".toList ("as".toList ++ (w' ++ (c :: s ++ r))) = some (c :: s ++ r) :=
    keyword?_append hw'.1 hw'.2 (stops_cons.mpr (isWhite_of_isDottedChar hc))
  rw [assertion?, hfront, Option.bind_some, hback, Option.bind_some, Ne, assertedType?_eq_none_iff]
  intro hstop
  rw [isDottedChar, stops_cons.mp hstop] at hc
  cases hc

/-- **An assertion is found** where it stands. -/
theorem IsAssertion.find?_ne_none {front operand type rest : Text}
    (h : IsAssertion front operand w w' type rest) :
    assertion.find? front.getLast?
      (operand ++ (w ++ ("as".toList ++ (w' ++ (type ++ rest))))) ≠ none := by
  have hread := assertion?_ne_none h.white_front h.white_back h.isAssertedType
  have hfind (b : Option Char) (t : Text) : assertion.find? b t = asserted? b t := rfl
  rw [hfind]
  rcases h.operand_end with ⟨c, rfl, hc⟩ | ⟨rfl, rfl⟩
  · rwa [List.singleton_append, asserted?, if_pos hc, Ne, Option.map_eq_none_iff]
  -- White space ends no operand, so the assertion is the one that begins the text.
  · obtain ⟨c, w, rfl⟩ := List.exists_cons_of_ne_nil h.white_front.1
    have hc := endsOperand_of_isWhite (h.white_front.2 c List.mem_cons_self)
    rw [List.cons_append] at hread
    rwa [List.nil_append, List.cons_append, asserted?, if_neg (by simp [hc]), List.getLast?_nil,
      if_pos Option.isNone_none, Ne, Option.map_eq_none_iff]

theorem passes_iff_not_hasAssertion : assertion.Passes none t [] ↔ ¬HasAssertion t := by
  constructor
  · rintro h ⟨front, operand, w, w', type, rest, hassertion, rfl⟩
    have hne : operand ++ (w ++ ("as".toList ++ (w' ++ (type ++ rest)))) ≠ [] := by simp
    have hnone := h front _ rfl hne
    rw [Option.or_none, List.append_nil] at hnone
    exact hassertion.find?_ne_none hnone
  · rintro h x y rfl -
    rw [Option.or_none, List.append_nil, Option.eq_none_iff_forall_ne_some]
    exact fun p hp ↦ h (hasAssertion_of_find? hp)

/-! ## Rounds -/

/-- An assertion takes five characters or more: the word, white space on both sides of it and a
type. -/
theorem length_add_le_of_assertion? (h : assertion? t = some r) : r.length + 5 ≤ t.length := by
  obtain ⟨w, w', type, hw, hw', htype, rfl⟩ := exists_of_assertion? h
  obtain ⟨c, s, rfl, -⟩ := htype.exists_cons
  have hfront := List.length_pos_iff.mpr hw.1
  have hback := List.length_pos_iff.mpr hw'.1
  have hword : "as".toList.length = 2 := rfl
  simp only [List.length_append, List.length_cons]
  omega

/-- **A round shortens** every text with an assertion in it. -/
theorem HasAssertion.length_eraseAssertionsOnce (h : HasAssertion t) :
    (eraseAssertionsOnce t).length + 5 ≤ t.length := by
  refine (Marker.passes_or_add_le (m := assertion) (f := id) (fun b t a r hfind ↦ ?_) none
    t).resolve_left fun hpass ↦ passes_iff_not_hasAssertion.mp hpass h
  obtain ⟨s, rfl, hs, -⟩ := exists_of_find?_assertion hfind
  have hle := length_add_le_of_assertion? hs
  rw [List.length_append, id]
  omega

/-- A text without an assertion is left as it is. -/
theorem eraseAssertionsOnce_of_not_hasAssertion (h : ¬HasAssertion t) : eraseAssertionsOnce t = t :=
  (passes_iff_not_hasAssertion.mpr h).replace_eq id

/-- What all rounds leave is what some number of rounds leaves, each of which finds an assertion. -/
theorem exists_rounds (code : Text) : ∃ n,
    eraseAssertions code = eraseAssertionsOnce^[n] code ∧
      (∀ m < n, HasAssertion (eraseAssertionsOnce^[m] code)) ∧
      5 * n + (eraseAssertions code).length ≤ code.length := by
  fun_induction eraseAssertions code with
  | case1 code hlt ih =>
    obtain ⟨n, heq, hrounds, hlength⟩ := ih
    have hfirst : HasAssertion code := by
      by_contra hnot
      rw [eraseAssertionsOnce_of_not_hasAssertion hnot] at hlt
      exact Nat.lt_irrefl _ hlt
    refine ⟨n + 1, heq, fun m hm ↦ ?_, ?_⟩
    · cases m with
      | zero => exact hfirst
      | succ m => exact hrounds m (Nat.lt_of_succ_lt_succ hm)
    · have hshorter := hfirst.length_eraseAssertionsOnce
      omega
  | case2 code hnlt => exact ⟨0, rfl, fun m hm ↦ absurd hm (Nat.not_lt_zero m), by simp⟩

theorem not_hasAssertion_eraseAssertions (code : Text) : ¬HasAssertion (eraseAssertions code) := by
  fun_induction eraseAssertions code with
  | case1 code _ ih => exact ih
  | case2 code hnlt =>
    intro h
    have hshorter := h.length_eraseAssertionsOnce
    omega

/-- **The rounds come to an end.** As long as there is an assertion in the text, another round takes
five characters or more away. After some number of rounds there is none left, and what is left then
stays as it is. -/
theorem eraseAssertions_exhausts (code : Text) :
    (∃ n, eraseAssertions code = eraseAssertionsOnce^[n] code ∧
      (∀ m < n, HasAssertion (eraseAssertionsOnce^[m] code)) ∧
      5 * n + (eraseAssertions code).length ≤ code.length) ∧
    ¬HasAssertion (eraseAssertions code) ∧
    eraseAssertions (eraseAssertions code) = eraseAssertions code := by
  have hnone := not_hasAssertion_eraseAssertions code
  exact ⟨exists_rounds code, hnone,
    eraseAssertions_of_eq (eraseAssertionsOnce_of_not_hasAssertion hnone)⟩

/-- The second assertion has no operand until the first one is gone. -/
example : eraseAssertionsOnce "x as A as B".toList = "x as B".toList ∧
    eraseAssertions "x as A as B".toList = "x".toList := by
  decide +kernel

end TypeSyntax

end PluginPack
