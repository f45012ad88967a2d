import PluginPack.Proofs.Untyped.Expression

/-!
# White space that sets off no keyword

An annotation begins with a word that declares variables, white space and a name, and an assertion
holds the word `as` between white space, with a type behind it. So neither is found in a text where
all white space stands next to a mark, or behind a letter that no keyword ends in.
-/

namespace PluginPack

open Text Script

namespace TypeSyntax

variable {b : Option Char} {c : Char} {ends : List Char} {k r s t u v w x y : Text}

/-! ## ASCII letters and digits -/

theorem toNat_lt_of_isAlphanum (h : c.isAlphanum = true) : c.toNat < 128 := by
  have hends : 'Z'.val.toNat = 90 ∧ 'z'.val.toNat = 122 ∧ '9'.val.toNat = 57 := by decide
  unfold Char.isAlphanum Char.isAlpha Char.isUpper Char.isLower Char.isDigit at h
  simp only [Bool.or_eq_true, Bool.and_eq_true, decide_eq_true_eq, ge_iff_le,
    UInt32.le_iff_toNat_le] at h
  rw [← Char.toNat_val]
  omega

theorem isWordChar_of_isAlphanum (h : c.isAlphanum = true) : isWordChar c = true := by
  rw [isWordChar, if_pos (toNat_lt_of_isAlphanum h), h, Bool.true_or]

theorem isNameChar_of_isAlphanum (h : c.isAlphanum = true) : isNameChar c = true := by
  rw [isNameChar, isWordChar_of_isAlphanum h, Bool.true_or]

/-! ## Spaced texts -/

/-- A character that is not white and that neither a name nor a type begins with. -/
def isGuard (c : Char) : Bool := !isNameChar c && c != '.' && !isWhite c

/-- Whether white space behind the character does not stand behind a word that ends in one of the
letters. -/
def setsOff (ends : List Char) (c : Char) : Bool := !isWhite c && !ends.contains c

/-- Whether all white space of a text that stands behind `b` stands in front of a guard, or behind a
character that is neither white nor one of `ends`. -/
def isSpaced (ends : List Char) (b : Option Char) : Text → Bool
  | [] => true
  | c :: r =>
    (!isWhite c || b.any (setsOff ends) || r.head?.any isGuard) && isSpaced ends (some c) r

theorem isSpaced_of_none (h : isSpaced ends none t = true) (b : Option Char) :
    isSpaced ends b t = true := by
  cases t with
  | nil => rfl
  | cons c t =>
    simp only [isSpaced, Bool.and_eq_true, Bool.or_eq_true, Option.any_none, Bool.false_eq_true,
      or_false] at h ⊢
    exact ⟨h.1.imp_left .inl, h.2⟩

theorem isSpaced_append (hu : isSpaced ends b u = true) (hv : isSpaced ends none v = true) :
    isSpaced ends b (u ++ v) = true := by
  induction u generalizing b with
  | nil => exact isSpaced_of_none hv b
  | cons c u ih =>
    simp only [List.cons_append, isSpaced, Bool.and_eq_true, Bool.or_eq_true] at hu ⊢
    refine ⟨hu.1.imp_right fun hguard ↦ ?_, ih hu.2⟩
    cases u with
    | nil => cases hguard
    | cons d u => exact hguard

theorem isSpaced_suffix (h : isSpaced ends b (x ++ y) = true) :
    isSpaced ends (x.getLast?.or b) y = true := by
  induction x generalizing b with
  | nil => exact h
  | cons c x ih =>
    simp only [List.cons_append, isSpaced, Bool.and_eq_true] at h
    rw [← List.singleton_append (l := x), List.getLast?_append, Option.or_assoc]
    exact ih h.2

/-- What stands next to a white character of a spaced text. -/
theorem neighbours_of_isSpaced (h : isSpaced ends b (x ++ c :: y) = true) (hc : isWhite c = true) :
    (x.getLast?.or b).any (setsOff ends) = true ∨ y.head?.any isGuard = true := by
  have hrest := isSpaced_suffix h
  rw [isSpaced, Bool.and_eq_true, hc, Bool.not_true, Bool.false_or, Bool.or_eq_true] at hrest
  exact hrest.1

theorem isSpaced_of_black (hw : ∀ c ∈ w, isWhite c = false) : isSpaced ends b w = true := by
  induction w generalizing b with
  | nil => rfl
  | cons c w ih =>
    obtain ⟨hc, hw⟩ := List.forall_mem_cons.mp hw
    rw [isSpaced, ih hw, hc]
    rfl

/-! ## Keywords in spaced texts -/

theorem isGuard_of_isNameChar (h : isNameChar c = true) : isGuard c = false := by
  rw [isGuard, h]
  rfl

theorem isGuard_of_isWhite (h : isWhite c = true) : isGuard c = false := by
  rw [isGuard, h, Bool.not_true, Bool.and_false]

/-- What is found in a text `y` does not reach into what stands behind it: nothing stands there, or
the text ends in a guard that ends no operand. -/
def IsGuarded (y r : Text) : Prop :=
  r = [] ∨ ∃ c ∈ y.getLast?, isGuard c = true ∧ endsOperand c = false

theorem IsGuarded.of_suffix (h : IsGuarded (x ++ y) r) (hy : y ≠ []) : IsGuarded y r := by
  rwa [IsGuarded, List.getLast?_append_of_ne_nil x hy] at h

/-- What is read behind a keyword begins in the guarded text, not behind it. -/
theorem IsGuarded.exists_append (h : IsGuarded y r) (hk : ∀ c ∈ k, isGuard c = false) (hw : w ≠ [])
    (heq : y ++ r = k ++ (w ++ s)) : ∃ d y', y = k ++ d :: y' := by
  rcases List.append_eq_append_iff.mp heq with ⟨a, ha, hr⟩ | ⟨a, rfl, ha⟩
  · rcases h with rfl | ⟨c, hc, hguard, -⟩
    · exact absurd (List.append_eq_nil_iff.mp (List.append_eq_nil_iff.mp hr.symm).2).1 hw
    · have hmem : c ∈ k := ha ▸ List.mem_append_left a (List.mem_of_mem_getLast? hc)
      rw [hk c hmem] at hguard
      cases hguard
  · cases a with
    | nil =>
      rw [List.append_nil] at h
      rcases h with rfl | ⟨c, hc, hguard, -⟩
      · exact absurd (List.append_eq_nil_iff.mp ha).1 hw
      · rw [hk c (List.mem_of_mem_getLast? hc)] at hguard
        cases hguard
    | cons d a => exact ⟨d, a, rfl⟩

/-- What is read behind a keyword that ends in one of `ends` begins with a guard. -/
theorem isGuard_of_keyword? (hy : isSpaced ends b y = true) (hguarded : IsGuarded y r)
    (hends : k.getLast?.any ends.contains = true) (hk : ∀ c ∈ k, isGuard c = false)
    (h : keyword? k (y ++ r) = some s) : ∃ c ∈ s.head?, isGuard c = true := by
  obtain ⟨w, hne, hw, -, heq⟩ := exists_of_keyword?_eq_some h
  obtain ⟨d, y', rfl⟩ := hguarded.exists_append hk hne heq
  obtain ⟨e, w, rfl⟩ := List.exists_cons_of_ne_nil hne
  rw [List.append_assoc, List.append_cancel_left_eq, List.cons_append, List.cons_append,
    List.cons.injEq] at heq
  obtain ⟨rfl, heq⟩ := heq
  obtain ⟨hd, hw⟩ := List.forall_mem_cons.mp hw
  obtain ⟨c, hc, hmem⟩ := (Option.any_eq_true ..).mp hends
  rcases neighbours_of_isSpaced hy hd with hset | hguard
  · rw [hc, Option.some_or, Option.any_some, setsOff, hmem] at hset
    simp at hset
  · cases y' with
    | nil => cases hguard
    | cons g y' =>
      cases w with
      | nil =>
        rw [List.nil_append] at heq
        exact ⟨g, by rw [← heq]; rfl, hguard⟩
      | cons e w =>
        obtain ⟨rfl, -⟩ := List.cons.inj heq
        rw [List.head?_cons, Option.any_some,
          isGuard_of_isWhite (hw _ List.mem_cons_self)] at hguard
        cases hguard

/-! ## Annotations -/

/-- The last letters of the words that declare variables. -/
def declaratorEnds : List Char := ['t', 'r']

theorem find?_annotatedVariable_spaced (hy : isSpaced declaratorEnds b y = true)
    (hguarded : IsGuarded y r) (b' : Option Char) :
    annotatedVariable.find? b' (y ++ r) = none := by
  have hnone : annotatedVariable? (y ++ r) = none := by
    rw [annotatedVariable?, Option.bind_eq_none_iff]
    intro s hs
    obtain ⟨k, hk, hs⟩ := Untyped.exists_of_declarator? hs
    have hends : ∀ k ∈ Untyped.declarators, k.getLast?.any declaratorEnds.contains = true ∧
        ∀ c ∈ k, isGuard c = false := by decide
    obtain ⟨c, hc, hguard⟩ := isGuard_of_keyword? hy hguarded (hends k hk).1 (hends k hk).2 hs
    have hstop : Stops isNameChar s := by
      intro d hd
      obtain rfl := Option.mem_unique hc hd
      by_contra hname
      rw [isGuard_of_isNameChar (by simpa using hname)] at hguard
      cases hguard
    rw [some?_eq_none hstop, Option.bind_none]
  have hfind : annotatedVariable.find? b' (y ++ r) =
      if b'.any isWordChar then none else annotatedVariable? (y ++ r) := rfl
  rw [hfind, hnone, ite_self]

/-- **No annotation** is found in a spaced text. -/
theorem passes_annotatedVariable_spaced (ht : isSpaced declaratorEnds none t = true)
    (hguarded : IsGuarded t r) (b : Option Char) : annotatedVariable.Passes b t r := by
  rintro x y rfl hy
  exact find?_annotatedVariable_spaced (isSpaced_suffix ht) (hguarded.of_suffix hy) _

/-! ## Assertions -/

/-- The last letter of the word in an assertion. -/
def assertionEnds : List Char := ['s']

theorem assertedType?_eq_none (h : ∃ c ∈ t.head?, isGuard c = true) : assertedType? t = none := by
  obtain ⟨c, hc, hguard⟩ := h
  obtain ⟨t, rfl⟩ : ∃ t', t = c :: t' := by
    cases t with
    | nil => cases hc
    | cons d t => exact ⟨t, by rw [Option.mem_some.mp hc]⟩
  have hnamed : namedType? (c :: t) = none := by
    have hc : isNameChar c = false ∧ c ≠ '.' := by
      rw [isGuard, Bool.and_eq_true, Bool.and_eq_true, Bool.not_eq_true', bne_iff_ne] at hguard
      exact hguard.1
    rw [namedType?, some?_eq_none (by simpa using hc), Option.map_none]
  have hconst : word? "const".toList (c :: t) = none := by
    rw [word?_eq_none_iff]
    intro hpre
    obtain rfl := (List.cons_prefix_cons.mp hpre).1
    cases hguard
  rw [assertedType?, hconst]
  exact hnamed

/-- White space ends in a text that has an end. -/
theorem white?_guarded (hguarded : IsGuarded y r) (h : white? (y ++ r) = some s) :
    (s = [] ∧ r = []) ∨ ∃ x y', y = x ++ y' ∧ y' ≠ [] ∧ s = y' ++ r := by
  obtain ⟨w, -, hw, hstop, heq⟩ := exists_of_some?_eq_some h
  have hs : trimStart (y ++ r) = s := by rw [heq, trimStart, dropWhile_append_eq hw hstop]
  have hy := List.takeWhile_append_dropWhile (p := isWhite) (l := y)
  by_cases hnil : y.dropWhile isWhite = []
  · rw [hnil, List.append_nil] at hy
    have hwhite : ∀ c ∈ y, isWhite c = true := by
      rw [← hy]
      exact List.all_eq_true.mp List.all_takeWhile
    rcases hguarded with rfl | ⟨c, hc, hguard, -⟩
    · rw [List.append_nil, Untyped.trimStart_of_white hwhite] at hs
      exact .inl ⟨hs.symm, rfl⟩
    · rw [isGuard_of_isWhite (hwhite c (List.mem_of_mem_getLast? hc))] at hguard
      cases hguard
  · refine .inr ⟨_, _, hy.symm, hnil, ?_⟩
    rw [← hs, ← hy, List.append_assoc, trimStart_append (List.all_eq_true.mp List.all_takeWhile),
      hy]
    exact ((stops_dropWhile isWhite y).append hnil).dropWhile_eq

theorem assertion?_spaced (hy : isSpaced assertionEnds b y = true) (hguarded : IsGuarded y r) :
    assertion? (y ++ r) = none := by
  rw [assertion?, Option.bind_eq_none_iff]
  intro s hs
  rcases white?_guarded hguarded hs with ⟨rfl, -⟩ | ⟨x, y', rfl, hne, rfl⟩
  · rfl
  · rw [Option.bind_eq_none_iff]
    intro s hs
    exact assertedType?_eq_none (isGuard_of_keyword? (isSpaced_suffix hy) (hguarded.of_suffix hne)
      (by decide) (by decide) hs)

/-- **No assertion** is found in a spaced text. -/
theorem passes_assertion_spaced (ht : isSpaced assertionEnds none t = true)
    (hguarded : IsGuarded t r) (b : Option Char) : assertion.Passes b t r := by
  rintro x y rfl hy
  have hplace := assertion?_spaced (isSpaced_suffix ht) (hguarded.of_suffix hy)
  obtain ⟨c, y, rfl⟩ := List.exists_cons_of_ne_nil hy
  have hbehind : endsOperand c = true → assertion? (y ++ r) = none := by
    intro hc
    by_cases hnil : y = []
    · rcases hguarded.of_suffix hy with rfl | ⟨d, hd, -, hoperand⟩
      · rw [hnil]
        rfl
      · rw [hnil, List.getLast?_singleton, Option.mem_some] at hd
        rw [hd, hoperand] at hc
        cases hc
    · rw [← List.singleton_append (l := y), ← List.append_assoc] at ht hguarded
      exact assertion?_spaced (isSpaced_suffix ht) (hguarded.of_suffix hnil)
  have hfind : assertion.find? (x.getLast?.or b) (c :: y ++ r) =
      asserted? (x.getLast?.or b) (c :: (y ++ r)) := rfl
  rw [List.cons_append] at hplace
  rw [hfind, asserted?, hplace]
  split
  · rename_i hc
    rw [hbehind hc, Option.map_none]
  · simp

end TypeSyntax

end PluginPack
