import PluginPack.Proofs.TypeSyntax.Continuation
import PluginPack.Proofs.Typed.Nested

/-!
# Operands in front of a tail

An operand that type erasure leaves as it is in `const x = operand;` is left as it is in front of
every other tail, up to the assertions that begin behind it. No step but the last reads on from the
operand into the tail, and the last one reads on from the operand's last character only.
-/

namespace PluginPack

open Text Script

namespace TypeSyntax

variable {b : Option Char} {c e : Char} {k l p q r s t u v w x y z : Text} {d : Nat}

/-! ## The last stretch of code -/

/-- **The stretches of a closed text.** What follows a closed text belongs to its last stretch of
code, and the other stretches do not depend on it. -/
theorem IsLexed.exists_stretch {f : Text → Text} (hf : Shrinks f) (hlexed : IsLexed w)
    (b : Option Char) (v : Text) :
    ∃ out front s, v ++ w = front ++ s ∧ out.length ≤ front.length ∧ ∀ r, IsCode r →
      ((inert.cutFrom b (w ++ r)).prepend v).render f Part.lexeme = out ++ f (s ++ r) := by
  induction hlexed generalizing b v with
  | nil =>
    refine ⟨[], [], v, by simp, Nat.le_refl _, fun r hr ↦ ?_⟩
    have hcut := (hr.passes_inert b []).cutFrom_append
    rw [List.append_nil, Marker.cutFrom_nil] at hcut
    rw [List.nil_append, hcut, Cut.prepend_prepend, Cut.render_prepend_empty, List.nil_append]
  | @code c w hc _ ih =>
    obtain ⟨out, front, s, hsplit, hout, hrender⟩ := ih (some c) (v ++ [c])
    refine ⟨out, front, s, by rw [← hsplit, List.append_assoc]; rfl, hout, fun r hr ↦ ?_⟩
    have hnone : inert.find? b (c :: (w ++ r)) = none := hc r
    rw [List.cons_append, Marker.cutFrom_of_none _ hnone, ← hrender r hr, ← Cut.prepend_prepend]
    rfl
  | @literal l w hl _ ih =>
    obtain ⟨out, front, s, hsplit, hout, hrender⟩ := ih l.getLast? []
    refine ⟨f v ++ (l ++ out), v ++ (l ++ front), s, ?_, ?_, fun r hr ↦ ?_⟩
    · rw [List.append_assoc, List.append_assoc, ← hsplit, List.nil_append]
    · have hle := hf.length_le v
      simp only [List.length_append]
      omega
    · have hfind : inert.find? b (l ++ (w ++ r)) = some (l, w ++ r) := hl r
      have hrest := hrender r hr
      rw [Cut.prepend_nil] at hrest
      rw [List.append_assoc, Marker.cutFrom_of_some _ hfind, Marker.consumed_left,
        Cut.render_prepend_mark, hrest, List.append_assoc, List.append_assoc]

/-- **Expressions in front of a tail.** In a closed text that stays as it is in front of a
semicolon, only the last stretch of code depends on the tail. -/
theorem IsLexed.exists_eraseExpressionTypes (hlexed : IsLexed v) (he : isQuote e = false ∧ e ≠ '/')
    (h : eraseExpressionTypes (v ++ e :: [';']) = v ++ e :: [';']) :
    ∃ front s, v = front ++ s ∧ eraseFromStretch (s ++ e :: [';']) = s ++ e :: [';'] ∧
      ∀ r, IsTail r →
        eraseExpressionTypes (v ++ e :: r) = front ++ eraseFromStretch (s ++ e :: r) := by
  have hshrinks : Shrinks eraseFromStretch := shrinks_eraseAssertions.comp shrinks_eraseAnnotations
  obtain ⟨out, front, s, hsplit, hout, hrender⟩ := hlexed.exists_stretch hshrinks none []
  rw [List.nil_append] at hsplit
  have hall (r : Text) (hr : IsTail r) :
      eraseExpressionTypes (v ++ e :: r) = out ++ eraseFromStretch (s ++ e :: r) := by
    rw [← hrender _ (List.forall_mem_cons.mpr ⟨he, isCode_of_isTrailing hr.chars⟩), Cut.prepend_nil]
    rfl
  have hsame := hall _ isTail_semicolon
  rw [h, hsplit, List.append_assoc] at hsame
  have hlength := congrArg List.length hsame
  have hle := hshrinks.length_le (s ++ e :: [';'])
  simp only [List.length_append] at hlength hle
  obtain ⟨hfront, hstretch⟩ := List.append_inj hsame (by omega)
  exact ⟨front, s, hsplit, hstretch.symm, fun r hr ↦ by rw [hall r hr, hfront]⟩

/-! ## Steps over a text with a certain character -/

theorem dropWhile_append_of_mem {p : Char → Bool} (hc : c ∈ w) (hp : p c = false) (r : Text) :
    (w ++ r).dropWhile p = w.dropWhile p ++ r := by
  rw [List.dropWhile_append, if_neg]
  intro hempty
  rw [List.dropWhile_eq_nil_iff.mp (List.isEmpty_iff.mp hempty) c hc] at hp
  cases hp

/-- A class of characters is read up to a character outside it. -/
theorem some?_append_of_mem {p : Char → Bool} (hc : c ∈ w) (hp : p c = false) (r : Text) :
    some? p (w ++ r) = (some? p w).map (· ++ r) := by
  cases w with
  | nil => cases hc
  | cons d w =>
    rw [List.cons_append, some?, some?]
    split
    · rename_i hd
      have hmem : c ∈ w := by
        rcases List.mem_cons.mp hc with rfl | hc
        · rw [hp] at hd
          cases hd
        · exact hc
      rw [dropWhile_append_of_mem hmem hp, Option.map_some]
    · rfl

/-- What is left when a class is read holds the character outside it. -/
theorem mem_of_some? {p : Char → Bool} (hc : c ∈ w) (hp : p c = false) (h : some? p w = some s) :
    c ∈ s := by
  obtain ⟨v, -, hv, -, rfl⟩ := exists_of_some?_eq_some h
  rcases List.mem_append.mp hc with hc | hc
  · rw [hv c hc] at hp
    cases hp
  · exact hc

/-- A word is read up to a character that does not stand in it. -/
theorem word?_append_of_mem (hc : c ∈ w) (hk : c ∉ k) (r : Text) :
    word? k (w ++ r) = (word? k w).map (· ++ r) := by
  induction k generalizing w with
  | nil => rfl
  | cons a k ih =>
    cases w with
    | nil => cases hc
    | cons d w =>
      rw [List.mem_cons, not_or] at hk
      rw [List.cons_append, word?, word?]
      split
      · rename_i had
        have hmem : c ∈ w := (List.mem_cons.mp hc).resolve_left (had ▸ hk.1)
        exact ih hmem hk.2
      · rfl

theorem mem_of_word? (hc : c ∈ w) (hk : c ∉ k) (h : word? k w = some s) : c ∈ s := by
  rw [word?_eq_some_iff.mp h] at hc
  exact (List.mem_append.mp hc).resolve_left hk

/-- A keyword is read up to a character that is not white and does not stand in it. -/
theorem keyword?_append_of_mem (hc : c ∈ w) (hk : c ∉ k) (hwhite : isWhite c = false) (r : Text) :
    keyword? k (w ++ r) = (keyword? k w).map (· ++ r) := by
  rw [keyword?, keyword?, word?_append_of_mem hc hk]
  cases hs : word? k w with
  | none => rfl
  | some s => exact some?_append_of_mem (mem_of_word? hc hk hs) hwhite r

theorem mem_of_keyword? (hc : c ∈ w) (hk : c ∉ k) (hwhite : isWhite c = false)
    (h : keyword? k w = some s) : c ∈ s := by
  obtain ⟨t, ht, hs⟩ := Option.bind_eq_some_iff.mp h
  exact mem_of_some? (mem_of_word? hc hk ht) hwhite hs

/-! ## Annotations -/

/-- How an annotation that begins in a text ends: in the text or nowhere, whatever the tail, or at
the semicolon behind it. -/
def AnnotationEnds (d : Nat) (w : Text) : Prop :=
  (∃ x, ∀ r, IsTail r → annotation? d (w ++ r) = some x) ∨
    (∀ r, IsTail r → annotation? d (w ++ r) = none) ∨ annotation? d (w ++ [';']) = some w

theorem AnnotationEnds.of_map {d' : Nat} (h : AnnotationEnds d w)
    (hstep : ∀ r, IsTail r → annotation? d' (v ++ w ++ r) = (annotation? d (w ++ r)).map (v ++ ·)) :
    AnnotationEnds d' (v ++ w) := by
  rcases h with ⟨x, hx⟩ | hnone | hend
  · exact .inl ⟨v ++ x, fun r hr ↦ by rw [hstep r hr, hx r hr, Option.map_some]⟩
  · exact .inr (.inl fun r hr ↦ by rw [hstep r hr, hnone r hr, Option.map_none])
  · exact .inr (.inr (by rw [hstep _ isTail_semicolon, hend, Option.map_some]))

theorem annotationEnds (d : Nat) (w : Text) : AnnotationEnds d w := by
  have harrow {c : Char} {s r : Text} (h : ∀ t : Text, c = '=' → s = '>' :: t → False)
      (hr : IsTail r) : ¬(c = '=' ∧ (s ++ r).head? = some '>') :=
    hr.not_arrow (not_arrow_of_forall h)
  fun_induction annotation? d w with
  | case1 d =>
    cases d with
    | zero => exact .inr (.inr rfl)
    | succ d => exact .inr (.inl fun r hr ↦ hr.annotation d)
  | case2 d w ih =>
    refine ih.of_map (v := ['=', '>']) fun r _ ↦ ?_
    rw [List.append_assoc]
    exact annotation?.eq_2 ..
  | case3 d c w hnot hopens ih =>
    refine ih.of_map (v := [c]) fun r hr ↦ ?_
    rw [List.append_assoc]
    exact (Typed.annotation?_cons (harrow hnot hr)).trans (if_pos hopens)
  | case4 c w hnot hopens hcloses =>
    refine .inr (.inl fun r hr ↦ ?_)
    exact (Typed.annotation?_cons (harrow hnot hr)).trans
      ((if_neg hopens).trans ((if_pos hcloses).trans (if_pos rfl)))
  | case5 d c w hnot hopens hcloses hd ih =>
    refine ih.of_map (v := [c]) fun r hr ↦ ?_
    rw [List.append_assoc]
    exact (Typed.annotation?_cons (harrow hnot hr)).trans
      ((if_neg hopens).trans ((if_pos hcloses).trans (if_neg hd)))
  | case6 d c w hnot hopens hcloses hends =>
    refine .inl ⟨[], fun r hr ↦ ?_⟩
    exact (Typed.annotation?_cons (harrow hnot hr)).trans
      ((if_neg hopens).trans ((if_neg hcloses).trans (if_pos hends)))
  | case7 d c w hnot hopens hcloses hends ih =>
    refine ih.of_map (v := [c]) fun r hr ↦ ?_
    rw [List.append_assoc]
    exact (Typed.annotation?_cons (harrow hnot hr)).trans
      ((if_neg hopens).trans ((if_neg hcloses).trans (if_neg hends)))

/-- Whether a character may be the last one of an operand. -/
def closesOperand (c : Char) : Bool := endsOperand c || c == '}'

theorem isWhite_of_closesOperand (h : closesOperand c = true) : isWhite c = false := by
  rw [closesOperand, endsOperand, Bool.or_eq_true, Bool.or_eq_true, Bool.or_eq_true, beq_iff_eq,
    beq_iff_eq, beq_iff_eq] at h
  rcases h with ((h | rfl) | rfl) | rfl
  · exact isWhite_of_isNameChar h
  all_goals rfl

/-- An annotation that is not found in front of a semicolon is found in front of no tail. -/
theorem afterAnnotation?_eq_none (he : isAsciiWhite e = false)
    (h : afterAnnotation? (w ++ e :: [';']) = none) (hr : IsTail r) :
    afterAnnotation? (w ++ e :: r) = none := by
  rw [List.append_cons] at h ⊢
  rw [afterAnnotation?] at h ⊢
  rcases annotationEnds 0 (w ++ [e]) with ⟨x, hx⟩ | hnone | hend
  · rw [hx _ isTail_semicolon, Option.bind_some] at h
    rw [hx r hr, Option.bind_some]
    split at h
    · rfl
    · cases h
  · rw [hnone r hr, Option.bind_none]
  · rw [hend, Option.bind_some, List.reverse_append, List.reverse_singleton, List.singleton_append,
      List.dropWhile_cons_of_neg (by simp [he])] at h
    cases h

theorem mem_of_annotatedVariable? {a : Text × Text} (h : annotatedVariable? t = some a) :
    ':' ∈ t := by
  obtain ⟨y, v, hy, -, hcolon, -⟩ := exists_of_annotatedVariable? h
  have hsuffix : ':' :: v <:+ t := hcolon ▸ (List.dropWhile_suffix _).trans hy
  exact hsuffix.subset List.mem_cons_self

theorem annotatedVariable?_of_not_mem (h : ':' ∉ t) : annotatedVariable? t = none :=
  Option.eq_none_iff_forall_ne_some.mpr fun _ ha ↦ h (mem_of_annotatedVariable? ha)

/-- No colon stands in a tail and in front of it. -/
theorem not_mem_of_isTail (he : closesOperand e = true) (hr : IsTail r) : ':' ∉ e :: r := by
  rw [List.mem_cons, not_or]
  refine ⟨?_, not_mem_of_isTrailing hr.chars (by decide)⟩
  rintro rfl
  cases he

theorem declarator?_append_of_mem (hc : ':' ∈ w) (r : Text) :
    declarator? (w ++ r) = (declarator? w).map (· ++ r) := by
  have hkeyword {k : Text} (hk : ':' ∉ k) := keyword?_append_of_mem hc hk (by decide) r
  rw [declarator?, declarator?, hkeyword (by decide), hkeyword (by decide), hkeyword (by decide)]
  cases keyword? "const".toList w <;> cases keyword? "let".toList w <;> rfl

theorem mem_of_declarator? (hc : ':' ∈ w) (h : declarator? w = some s) : ':' ∈ s := by
  obtain ⟨k, hk, hs⟩ := Untyped.exists_of_declarator? h
  have hall : ∀ k ∈ Untyped.declarators, ':' ∉ k := by decide
  exact mem_of_keyword? hc (hall k hk) (by decide) hs

/-- In a text with a colon everything in front of an annotation is read in the text. -/
theorem annotatedVariable?_append_of_mem (hc : ':' ∈ w) :
    (∀ r, annotatedVariable? (w ++ r) = none) ∨
      ∃ v, ∀ r, ∃ m, annotatedVariable? (w ++ r) = (afterAnnotation? (v ++ r)).map m := by
  have hread (r : Text) : annotatedVariable? (w ++ r) = (declarator? (w ++ r)).bind fun s ↦
      (some? isNameChar s).bind fun s ↦ ((word? [':'] (trimStart s)).bind afterAnnotation?).map
        (Marker.consumed (w ++ r) s, ·) := rfl
  simp only [declarator?_append_of_mem hc] at hread
  cases hs : declarator? w with
  | none => exact .inl fun r ↦ by rw [hread, hs, Option.map_none, Option.bind_none]
  | some s =>
    have hmem := mem_of_declarator? hc hs
    have hname (r : Text) := some?_append_of_mem hmem (p := isNameChar) (by decide) r
    simp only [hs, Option.map_some, Option.bind_some, hname] at hread
    cases hu : some? isNameChar s with
    | none => exact .inl fun r ↦ by rw [hread, hu, Option.map_none, Option.bind_none]
    | some u =>
      have hmem := mem_of_some? hmem (by decide) hu
      have hwhite (r : Text) := dropWhile_append_of_mem hmem (p := isWhite) (by decide) r
      simp only [hu, Option.map_some, Option.bind_some, trimStart, hwhite] at hread
      by_cases hcolon : [':'] <+: u.dropWhile isWhite
      · obtain ⟨v, hv⟩ := hcolon
        refine .inr ⟨v, fun r ↦ ⟨(Marker.consumed (w ++ r) (u ++ r), ·), ?_⟩⟩
        rw [hread, ← hv, List.append_assoc, word?_append, Option.bind_some]
      · refine .inl fun r ↦ ?_
        rw [hread, word?_eq_none_iff.mpr, Option.bind_none, Option.map_none]
        -- The white space does not reach beyond the colon.
        obtain ⟨g, c, v, rfl, hg, hblack⟩ := exists_black ⟨':', hmem, rfl⟩
        rw [dropWhile_append_eq hg (stops_cons.mpr hblack)] at hcolon ⊢
        exact fun hpre ↦ hcolon ((List.cons_prefix_cons.mp hpre).1 ▸ List.prefix_append [':'] v)

/-- A variable that is not annotated in front of a semicolon is annotated in front of no tail. -/
theorem annotatedVariable?_eq_none (he : closesOperand e = true)
    (h : annotatedVariable? (w ++ e :: [';']) = none) (hr : IsTail r) :
    annotatedVariable? (w ++ e :: r) = none := by
  have hascii : isAsciiWhite e = false := by
    by_contra hwhite
    have hblack := isWhite_of_closesOperand he
    rw [isWhite_of_isAsciiWhite (by simpa using hwhite)] at hblack
    cases hblack
  by_cases hcolon : ':' ∈ w
  · rcases annotatedVariable?_append_of_mem hcolon with hnone | ⟨v, hv⟩
    · exact hnone _
    · obtain ⟨m, hm⟩ := hv (e :: [';'])
      rw [hm, Option.map_eq_none_iff] at h
      obtain ⟨m, hm⟩ := hv (e :: r)
      rw [hm, afterAnnotation?_eq_none hascii h hr, Option.map_none]
  · refine annotatedVariable?_of_not_mem fun hmem ↦ ?_
    exact (List.mem_append.mp hmem).elim hcolon (not_mem_of_isTail he hr)

/-- **Annotations in front of a tail.** -/
theorem eraseAnnotations_tail (he : closesOperand e = true)
    (h : eraseAnnotations (s ++ e :: [';']) = s ++ e :: [';']) (hr : IsTail r) :
    eraseAnnotations (s ++ e :: r) = s ++ e :: r := by
  have hpass : annotatedVariable.Passes none (s ++ e :: [';']) [] :=
    Marker.passes_of_replace_eq (fun _ _ _ _ ↦ length_find?_annotatedVariable_lt) h
  refine Marker.Passes.replace_eq (fun x y hxy hy ↦ ?_) id
  rw [List.append_nil]
  refine ite_eq_left_iff.mpr fun hbefore ↦ ?_
  rcases List.append_eq_append_iff.mp hxy with ⟨a, -, ha⟩ | ⟨y, rfl, rfl⟩
  · refine annotatedVariable?_of_not_mem fun hmem ↦ not_mem_of_isTail he hr ?_
    rw [ha]
    exact List.mem_append_right a hmem
  · refine annotatedVariable?_eq_none he ?_ hr
    have hnone := hpass x (y ++ e :: [';']) (List.append_assoc ..) (by simp)
    rw [List.append_nil] at hnone
    exact ite_eq_left_iff.mp hnone hbefore

/-! ## Assertions -/

/-- At a character that is not white, an assertion is found behind it only. -/
theorem find?_assertion_of_black (hc : isWhite c = false) (b : Option Char) (r : Text) :
    assertion.find? b (c :: r) = if endsOperand c then (assertion? r).map ([c], ·) else none := by
  have hfind : assertion.find? b (c :: r) = asserted? b (c :: r) := rfl
  rw [hfind, asserted?, Untyped.assertion?_of_stops (stops_cons.mpr hc), Option.map_none, ite_self]

theorem find?_assertion_of_not {a : Char} (hc : endsOperand c = false) (r : Text) :
    assertion.find? (some a) (c :: r) = none := by
  have hfind : assertion.find? (some a) (c :: r) = asserted? (some a) (c :: r) := rfl
  rw [hfind, asserted?, hc]
  rfl

/-- No assertion is found in a text without white space that goes on without white space. -/
theorem passes_assertion_of_black (hw : ∀ d ∈ w, isWhite d = false) (hc : isWhite c = false)
    (b : Option Char) (r : Text) : assertion.Passes b w (c :: r) := by
  induction w generalizing b with
  | nil => exact fun x y hxy hy ↦ absurd (List.append_eq_nil_iff.mp hxy.symm).2 hy
  | cons d w ih =>
    obtain ⟨hd, hw⟩ := List.forall_mem_cons.mp hw
    have hstop : Stops isWhite (w ++ c :: r) := by
      cases w with
      | nil => exact stops_cons.mpr hc
      | cons e w => exact stops_cons.mpr (hw e List.mem_cons_self)
    refine .cons ?_ (ih hw (some d))
    rw [find?_assertion_of_black hd, Untyped.assertion?_of_stops hstop, Option.map_none, ite_self]

/-- An asserted type begins with a character of a dotted name. -/
theorem assertedType?_eq_none_iff :
    assertedType? t = none ↔ Stops (fun c ↦ isNameChar c || c == '.') t := by
  have hnamed : namedType? t = none ↔ Stops (fun c ↦ isNameChar c || c == '.') t := by
    rw [namedType?, Option.map_eq_none_iff]
    refine ⟨fun h ↦ ?_, some?_eq_none⟩
    cases t with
    | nil => exact stops_nil
    | cons c t =>
      rw [stops_cons]
      by_contra hc
      rw [some?, if_pos (Bool.not_eq_false _ ▸ hc)] at h
      cases h
  rw [assertedType?]
  split
  · rename_i r hconst
    split
    · exact hnamed
    · -- The word `const` is a type as well.
      rw [word?_eq_some_iff.mp hconst]
      simp
      decide
  · exact hnamed

/-- The word of an assertion is no last word of an operand. -/
def NoLastWord (w : Text) : Prop := ∀ v c, w = v ++ c :: "as".toList → isWhite c = false

theorem NoLastWord.of_append (h : NoLastWord (v ++ w)) : NoLastWord w := fun u c huc ↦
  h (v ++ u) c (by rw [huc, List.append_assoc])

/-- What is left when a class of characters is read ends like the text. -/
theorem exists_of_some?_concat {p : Char → Bool} (he : p e = false)
    (h : some? p (w ++ [e]) = some s) :
    ∃ g z, s = z ++ [e] ∧ w = g ++ z ∧ g ≠ [] ∧ ∀ c ∈ g, p c = true := by
  obtain ⟨g, hne, hg, -, heq⟩ := exists_of_some?_eq_some h
  have hs : s ≠ [] := by
    rintro rfl
    have hmem : e ∈ g := by
      rw [List.append_nil] at heq
      rw [← heq]
      simp
    rw [hg e hmem] at he
    cases he
  obtain ⟨z, e', rfl⟩ := List.eq_nil_or_concat s |>.resolve_left hs
  rw [List.concat_eq_append, ← List.append_assoc] at heq
  obtain ⟨rfl, he'⟩ := List.append_inj' heq rfl
  obtain rfl := List.singleton_inj.mp he'
  exact ⟨g, z, List.concat_eq_append, rfl, hne, hg⟩

/-- The word of an assertion that is read in front of a tail is read in the text, and when it is not
the whole text, it is read in front of every tail, and more of the text stands behind it. -/
theorem exists_of_word?_as (hw : w ≠ "as".toList) (hr : IsTail r)
    (h : word? "as".toList (w ++ r) = some u) :
    ∃ a, a ≠ [] ∧ w = "as".toList ++ a ∧ u = a ++ r := by
  rcases List.append_eq_append_iff.mp (word?_eq_some_iff.mp h) with ⟨a, ha, hra⟩ | ⟨a, rfl, rfl⟩
  · cases a with
    | nil => exact absurd (ha.trans (List.append_nil _)).symm hw
    | cons c a =>
      -- A tail does not complete the word.
      obtain ⟨d, hd, hmark⟩ := hr.head
      rw [hra, List.cons_append, List.head?_cons, Option.mem_some] at hd
      subst hd
      have hc : c ∈ "as".toList := by
        rw [ha]
        simp
      rcases hmark with rfl | rfl <;> exact absurd hc (by decide)
  · refine ⟨a, ?_, rfl, rfl⟩
    rintro rfl
    exact hw (List.append_nil _)

/-- An assertion that is not found in front of a semicolon is found in front of no tail, as long as
it does not begin with the last word of the operand. -/
theorem assertion?_eq_none (he : closesOperand e = true) (hword : NoLastWord (w ++ [e]))
    (h : assertion? (w ++ e :: [';']) = none) (hr : IsTail r) :
    assertion? (w ++ e :: r) = none := by
  have hblack := isWhite_of_closesOperand he
  have hwhite {w : Text} (r : Text) : white? (w ++ [e] ++ r) = (white? (w ++ [e])).map (· ++ r) :=
    some?_append_of_mem (List.mem_append_right w List.mem_cons_self) hblack r
  rw [List.append_cons, assertion?, hwhite] at h ⊢
  cases hs : white? (w ++ [e]) with
  | none => rfl
  | some s =>
    obtain ⟨g, z, rfl, rfl, hne, hg⟩ := exists_of_some?_concat hblack hs
    rw [hs, Option.map_some, Option.bind_some] at h
    rw [Option.map_some, Option.bind_some, Option.bind_eq_none_iff]
    intro t ht
    obtain ⟨u, hu, ht⟩ := Option.bind_eq_some_iff.mp ht
    have hlast : z ++ [e] ≠ "as".toList := fun heq ↦ by
      obtain ⟨g, c, rfl⟩ := (List.eq_nil_or_concat g).resolve_left hne
      have hc := hword g c (by rw [List.append_assoc, heq]; simp)
      rw [hg c (by simp)] at hc
      cases hc
    obtain ⟨a, hne, hza, rfl⟩ := exists_of_word?_as hlast hr hu
    -- What stands behind the word ends like the operand, so its white space ends in the operand.
    obtain ⟨a, e', rfl⟩ := (List.eq_nil_or_concat a).resolve_left hne
    rw [List.concat_eq_append, ← List.append_assoc] at hza
    obtain ⟨rfl, he'⟩ := List.append_inj' hza rfl
    obtain rfl := List.singleton_inj.mp he'
    rw [List.concat_eq_append, hwhite] at ht
    obtain ⟨y, hy, rfl⟩ := Option.map_eq_some_iff.mp ht
    have hkeyword : keyword? "as".toList ("as".toList ++ a ++ [e] ++ [';']) =
        some (y ++ [';']) := by
      rw [List.append_assoc, List.append_assoc, keyword?, word?_append, Option.bind_some,
        ← List.append_assoc, hwhite, hy, Option.map_some]
    rw [hkeyword, Option.bind_some, assertedType?_eq_none_iff] at h
    obtain ⟨-, y, rfl, -⟩ := exists_of_some?_concat hblack hy
    rw [assertedType?_eq_none_iff]
    intro c hc
    refine h c ?_
    cases y <;> exact hc

/-- **Assertions in front of a tail.** -/
theorem passes_assertion_tail (he : closesOperand e = true) (hword : NoLastWord (s ++ [e]))
    (h : eraseAssertions (s ++ e :: [';']) = s ++ e :: [';']) (hr : IsTail r) :
    assertion.Passes none s (e :: r) := by
  have hpass : assertion.Passes none (s ++ e :: [';']) [] :=
    Marker.passes_of_replace_eq (fun _ _ _ _ ↦ length_find?_assertion_lt)
      (eraseAssertionsOnce_of_eq h)
  rintro x y rfl hy
  obtain ⟨c, y, rfl⟩ := List.exists_cons_of_ne_nil hy
  have hnone := hpass x (c :: y ++ e :: [';']) (List.append_assoc ..) (by simp)
  have hfind (r : Text) : assertion.find? (x.getLast?.or none) (c :: y ++ e :: r) =
      asserted? (x.getLast?.or none) (c :: (y ++ e :: r)) := rfl
  rw [List.append_assoc] at hword
  have hnext : NoLastWord (c :: y ++ [e]) := hword.of_append
  rw [List.append_nil, hfind, asserted?] at hnone
  rw [hfind, asserted?]
  split at hnone
  · rename_i hc
    rw [Option.map_eq_none_iff] at hnone
    rw [if_pos hc, assertion?_eq_none he (hnext.of_append (v := [c])) hnone hr, Option.map_none]
  · rename_i hc
    rw [if_neg hc]
    split at hnone
    · rename_i hbefore
      rw [Option.map_eq_none_iff] at hnone
      rw [if_pos hbefore, ← List.cons_append, assertion?_eq_none he hnext hnone hr, Option.map_none]
    · rename_i hbefore
      rw [if_neg hbefore]

/-! ## Operands -/

/-- What sets a variable. -/
def assigning : Text := "const x = ".toList

/-- A variable that is set to a value, with more text in front of the semicolon. -/
def assignment (value more : Text) : Text := assigning ++ (value ++ (more ++ [';']))

/-- What an assertion may stand behind: a text with a last character `e`, which stands in no literal
and in no comment and is that of a name or closes a bracket. -/
structure IsOperand (v : Text) (e : Char) : Prop where
  lexed : IsLexed v
  closes : closesOperand e = true
  /-- The last word is not the word of an assertion. -/
  word : ∀ u, v ++ [e] = u ++ "as".toList → ∃ c ∈ u.getLast?, isWhite c = false
  /-- No line is read as a declaration or a dependency statement, whatever follows. -/
  lines : ∀ x y r, v = x ++ '\n' :: y → Untyped.Quiet (y ++ e :: r)
  /-- There is no type in it. -/
  plain : eraseTypes (assignment (v ++ [e]) []) = assignment (v ++ [e]) []

theorem exists_of_not_mem_right (h : x ++ c :: y = v ++ w) (hc : c ∉ w) :
    ∃ z, v = x ++ c :: z ∧ y = z ++ w := by
  rcases List.append_eq_append_iff.mp h with ⟨a, rfl, ha⟩ | ⟨a, -, rfl⟩
  · cases a with
    | nil => exact absurd (by rw [← List.nil_append w, ← ha]; exact List.mem_cons_self) hc
    | cons d a =>
      obtain ⟨rfl, rfl⟩ := List.cons.inj ha
      exact ⟨a, rfl, rfl⟩
  · exact absurd (by simp) hc

theorem exists_of_not_mem_left (h : x ++ c :: y = v ++ w) (hc : c ∉ v) :
    ∃ z, x = v ++ z ∧ w = z ++ c :: y := by
  rcases List.append_eq_append_iff.mp h with ⟨a, rfl, ha⟩ | ⟨a, rfl, rfl⟩
  · cases a with
    | nil => exact ⟨[], by simp, ha.symm⟩
    | cons d a =>
      obtain ⟨rfl, -⟩ := List.cons.inj ha
      exact absurd (by simp) hc
  · exact ⟨a, rfl, rfl⟩

namespace IsOperand

theorem isCode_last (h : IsOperand v e) : isQuote e = false ∧ e ≠ '/' := by
  have hcloses := h.closes
  refine ⟨?_, ?_⟩
  · by_contra hquote
    rw [Bool.not_eq_false, isQuote, Bool.or_eq_true, Bool.or_eq_true, beq_iff_eq, beq_iff_eq,
      beq_iff_eq] at hquote
    rcases hquote with (rfl | rfl) | rfl <;> cases hcloses
  · rintro rfl
    cases hcloses

/-- An assignment is a single statement. -/
theorem passesLines (h : IsOperand v e) (hr : IsTail r) :
    PassesLines none (assigning ++ (v ++ e :: r)) [] := by
  refine passesLines_of_forall fun x y hxy _ hbegins ↦ ?_
  rw [List.append_nil]
  rcases List.eq_nil_or_concat x with rfl | ⟨x, c, rfl⟩
  · rw [List.nil_append] at hxy
    rw [← hxy]
    exact quiet_cons rfl (by decide) _
  · have hc : c = '\n' := by simpa [Marker.beginsLine] using hbegins
    subst hc
    rw [List.concat_eq_append, List.append_assoc] at hxy
    have hend : '\n' ∉ e :: r := by
      rw [List.mem_cons, not_or]
      refine ⟨?_, not_mem_of_isTrailing hr.chars (by decide)⟩
      rintro rfl
      cases h.closes
    obtain ⟨z, -, hz⟩ := exists_of_not_mem_left hxy.symm (by decide)
    obtain ⟨y, rfl, rfl⟩ := exists_of_not_mem_right hz.symm hend
    exact h.lines z y r rfl

theorem noLastWord (h : IsOperand v e) : NoLastWord (assigning ++ (v ++ [e])) := by
  intro u c huc
  have huc : assigning ++ (v ++ [e]) = u ++ [c] ++ "as".toList := by
    rw [huc]
    simp
  rcases List.append_eq_append_iff.mp huc with ⟨a, ha, hword⟩ | ⟨a, ha, hword⟩
  · obtain ⟨d, hd, hblack⟩ := h.word a hword
    have hlast : (u ++ [c]).getLast? = some d := by
      rw [ha, List.getLast?_append, Option.mem_def.mp hd]
      rfl
    rw [List.getLast?_concat] at hlast
    rwa [Option.some.inj hlast]
  · -- The assignment does not end in the beginning of the word.
    rcases List.eq_nil_or_concat a with rfl | ⟨a, d, rfl⟩
    · obtain ⟨d, hd, -⟩ := h.word [] hword.symm
      cases hd
    · have hd : d = ' ' := by
        have hlast := congrArg List.getLast? ha
        rw [List.concat_eq_append, ← List.append_assoc, List.getLast?_concat] at hlast
        exact (Option.some.inj hlast).symm
      have hmem : d ∈ "as".toList := by
        rw [hword]
        simp
      rw [hd] at hmem
      exact absurd hmem (by decide)

theorem isLexed_assigning (h : IsOperand v e) : IsLexed (assigning ++ v) :=
  .append (IsCode.isLexed (by decide)) h.lexed

theorem eraseTypes_semicolon (h : IsOperand v e) :
    eraseTypes (assigning ++ (v ++ e :: [';'])) = assigning ++ (v ++ e :: [';']) := by
  have hplain := h.plain
  rwa [assignment, List.nil_append, List.append_assoc, List.singleton_append] at hplain

/-- Signatures are as in front of a semicolon. -/
theorem eraseSignatures_eq (h : IsOperand v e) (hr : IsTail r) :
    eraseSignatures (assigning ++ (v ++ e :: r)) = assigning ++ (v ++ e :: r) := by
  have hsemicolon := eraseSignatures_of_eraseTypes h.eraseTypes_semicolon
  rw [eraseDeclarations_eq_self (h.passesLines isTail_semicolon)] at hsemicolon
  have hends : EndsWord (assigning ++ v ++ [e]) := by
    intro c hc
    rw [List.getLast?_concat, Option.mem_some] at hc
    subst hc
    refine ⟨isWhite_of_closesOperand h.closes, ?_⟩
    rintro rfl
    cases h.closes
  have hconcat (r : Text) : assigning ++ (v ++ e :: r) = assigning ++ v ++ [e] ++ r := by simp
  rw [hconcat] at hsemicolon ⊢
  have hcode : IsLexed [e] := IsCode.isLexed (List.forall_mem_singleton.mpr h.isCode_last)
  exact (h.isLexed_assigning.append hcode).eraseSignaturesFrom_eq hends hsemicolon hr

/-- So only annotations and assertions are left to erase. -/
theorem eraseTypes_eq (h : IsOperand v e) (hr : IsTail r) :
    eraseTypes (assigning ++ (v ++ e :: r)) = eraseExpressionTypes (assigning ++ v ++ e :: r) := by
  have hpass := h.passesLines hr
  rw [eraseTypes_of_passesLines hpass (by rwa [h.eraseSignatures_eq hr]), h.eraseSignatures_eq hr,
    List.append_assoc]

/-- **An operand in front of a tail** keeps its text, and only its last stretch of code loses the
assertions that follow it. -/
theorem exists_eraseTypes (h : IsOperand v e) :
    ∃ front s, assigning ++ v = front ++ s ∧
      (∀ r, IsTail r → assertion.Passes none s (e :: r)) ∧
      ∀ r, IsTail r → eraseTypes (assigning ++ (v ++ e :: r)) =
        front ++ eraseAssertions (s ++ e :: r) := by
  have hsame : eraseExpressionTypes (assigning ++ v ++ e :: [';']) =
      assigning ++ v ++ e :: [';'] := by
    rw [← h.eraseTypes_eq isTail_semicolon, h.eraseTypes_semicolon, List.append_assoc]
  obtain ⟨front, s, hsplit, hstretch, hall⟩ :=
    h.isLexed_assigning.exists_eraseExpressionTypes h.isCode_last hsame
  obtain ⟨hannotations, hassertions⟩ :=
    shrinks_eraseAssertions.eq_of_comp shrinks_eraseAnnotations hstretch
  have hword : NoLastWord (s ++ [e]) := by
    have hword := h.noLastWord
    rw [← List.append_assoc, hsplit, List.append_assoc] at hword
    exact hword.of_append
  refine ⟨front, s, hsplit, fun r hr ↦ passes_assertion_tail h.closes hword hassertions hr,
    fun r hr ↦ ?_⟩
  rw [h.eraseTypes_eq hr, hall r hr, eraseFromStretch,
    eraseAnnotations_tail h.closes hannotations hr]

end IsOperand

end TypeSyntax

end PluginPack
