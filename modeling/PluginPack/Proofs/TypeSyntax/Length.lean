import PluginPack.Proofs.Script.Passage
import PluginPack.TypeSyntax.Erasure

/-!
# Erasing types never lengthens a script

Every step of type erasure writes at most as many characters as it reads. So a script that one step
shortens is not what type erasure returns.
-/

namespace PluginPack

open Text Script

variable {p after before kept r s t w : Text}

/-! ## Cuts -/

namespace Cut

variable {α : Type} {plain : Text → Text}

/-- Rewritten stretches and parts are no longer together when none of them is. -/
theorem length_render_le {part : Part α → Text} {k : Cut (Part α)}
    (hplain : ∀ w, (plain w).length ≤ w.length)
    (hpart : ∀ p ∈ k.parts, (part p).length ≤ p.lexeme.length) :
    (k.render plain part).length ≤ (k.substitute Part.lexeme).length := by
  obtain ⟨first, rest⟩ := k
  have hrest : (rest.flatMap fun p ↦ part p.1 ++ plain p.2).length ≤
      (rest.flatMap fun p ↦ p.1.lexeme ++ p.2).length := by
    induction rest with
    | nil => exact Nat.le_refl _
    | cons x rest ih =>
      have hx := hpart x.1 (by simp [parts])
      have hstretch := hplain x.2
      have hih := ih fun p hp ↦ hpart p (List.mem_cons_of_mem x.1 hp)
      simp only [List.flatMap_cons, List.length_append]
      omega
  have hfirst := hplain first
  simp only [substitute, render, id, List.length_append]
  omega

end Cut

namespace Marker

variable {α : Type} {m : Marker α}

theorem length_render_cut_le {plain : Text → Text} {part : Part α → Text}
    (hplain : ∀ w, (plain w).length ≤ w.length)
    (hpart : ∀ p ∈ (m.cut t).parts, (part p).length ≤ p.lexeme.length) :
    ((m.cut t).render plain part).length ≤ t.length := by
  have hle := Cut.length_render_le hplain hpart
  rwa [cut, substitute_lexeme_cutFrom] at hle

/-- Replaced parts are no longer together when what is found is never longer than what it is found
in. -/
theorem length_replace_le {f : α → Text}
    (hf : ∀ b t a r, m.find? b t = some (a, r) → (f a).length + r.length ≤ t.length) (t : Text) :
    (m.replace f t).length ≤ t.length := by
  rw [replace, Cut.substitute]
  refine length_render_cut_le (fun w ↦ (Nat.le_refl _ : (id w).length ≤ w.length)) fun p hp ↦ ?_
  obtain ⟨b, u, r, hfind, rfl⟩ := exists_find?_of_mem_parts hp
  have hle := hf b _ p.value r hfind
  rw [List.length_append] at hle
  omega

theorem length_consumed (t r : Text) : (consumed t r).length = t.length - r.length := by
  rw [consumed, List.length_take, Nat.min_eq_left (Nat.sub_le _ _)]

end Marker

namespace TypeSyntax

/-! ## Declarations, annotations and assertions -/

theorem length_eraseDeclarations_le (t : Text) : (eraseDeclarations t).length ≤ t.length := by
  have hnone : ∀ (m : Marker Unit) (t : Text), (m.erase t).length ≤ t.length := by
    intro m t
    refine Marker.length_replace_le (fun b t a r h ↦ ?_) t
    have hshorter := m.shorter h
    rw [List.length_nil]
    omega
  exact (hnone _ _).trans (hnone _ t)

/-- What is kept of an annotated variable ends in front of the colon of its annotation. -/
theorem exists_of_annotatedVariable? {a : Text} (h : annotatedVariable? t = some (a, r)) :
    ∃ y v, y <:+ t ∧ a = Marker.consumed t y ∧ trimStart y = ':' :: v ∧
      afterAnnotation? v = some r := by
  obtain ⟨x, hx, h⟩ := Option.bind_eq_some_iff.mp h
  obtain ⟨y, hy, h⟩ := Option.bind_eq_some_iff.mp h
  obtain ⟨z, hz, h⟩ := Option.map_eq_some_iff.mp h
  obtain ⟨v, hv, hz⟩ := Option.bind_eq_some_iff.mp hz
  cases h
  exact ⟨y, v, (some?_suffix hy).trans (declarator?_suffix hx), rfl, word?_eq_some_iff.mp hv, hz⟩

theorem annotatedVariable?_of_find? {b : Option Char} {a : Text}
    (h : annotatedVariable.find? b t = some (a, r)) : annotatedVariable? t = some (a, r) := by
  simp only [annotatedVariable] at h
  split at h
  · cases h
  · exact h

/-- What is left of an annotated variable is shorter. -/
theorem length_find?_annotatedVariable_lt {b : Option Char} {a : Text}
    (h : annotatedVariable.find? b t = some (a, r)) : a.length + r.length < t.length := by
  obtain ⟨y, v, hy, rfl, hcolon, hv⟩ :=
    exists_of_annotatedVariable? (annotatedVariable?_of_find? h)
  have hle := (afterAnnotation?_suffix hv).length_le
  have htrim : (trimStart y).length ≤ y.length := (List.dropWhile_suffix _).length_le
  have hyt := hy.length_le
  rw [Marker.length_consumed]
  rw [hcolon, List.length_cons] at htrim
  omega

/-- What is left of an assertion is the last character of its operand, or nothing at the beginning
of the text. -/
theorem exists_of_find?_assertion {b : Option Char} {a : Text}
    (h : assertion.find? b t = some (a, r)) :
    ∃ s, t = a ++ s ∧ assertion? s = some r ∧
      ((∃ c, a = [c] ∧ endsOperand c = true) ∨ a = [] ∧ b = none) := by
  have hfind : asserted? b t = some (a, r) := h
  unfold asserted? at hfind
  split at hfind
  · cases hfind
  · rename_i c s
    split at hfind
    · rename_i hc
      obtain ⟨x, hx, hfind⟩ := Option.map_eq_some_iff.mp hfind
      cases hfind
      exact ⟨s, rfl, hx, .inl ⟨c, rfl, hc⟩⟩
    · split at hfind
      · rename_i hb
        obtain ⟨x, hx, hfind⟩ := Option.map_eq_some_iff.mp hfind
        cases hfind
        exact ⟨c :: s, rfl, hx, .inr ⟨rfl, Option.isNone_iff_eq_none.mp hb⟩⟩
      · cases hfind

/-- What is left of an assertion is shorter. -/
theorem length_find?_assertion_lt {b : Option Char} {a : Text}
    (h : assertion.find? b t = some (a, r)) : a.length + r.length < t.length := by
  obtain ⟨s, rfl, hs, -⟩ := exists_of_find?_assertion h
  have hlt := (assertion?_suffix hs).2
  rw [List.length_append]
  omega

theorem length_eraseAnnotations_le (t : Text) : (eraseAnnotations t).length ≤ t.length :=
  Marker.length_replace_le (fun _ _ _ _ h ↦ (length_find?_annotatedVariable_lt h).le) t

theorem length_eraseAssertionsOnce_le (t : Text) : (eraseAssertionsOnce t).length ≤ t.length :=
  Marker.length_replace_le (fun _ _ _ _ h ↦ (length_find?_assertion_lt h).le) t

theorem length_eraseAssertions_le (t : Text) : (eraseAssertions t).length ≤ t.length := by
  fun_induction eraseAssertions t with
  | case1 t hlt ih => exact ih.trans (length_eraseAssertionsOnce_le t)
  | case2 t => exact Nat.le_refl _

theorem length_eraseExpressionTypes_le (t : Text) :
    (eraseExpressionTypes t).length ≤ t.length :=
  Marker.length_render_cut_le
    (fun w ↦ (length_eraseAssertions_le _).trans (length_eraseAnnotations_le w))
    fun _ _ ↦ Nat.le_refl _

/-! ## Parameters -/

theorem length_trimEnd_le (t : Text) : (trimEnd t).length ≤ t.length := by
  rw [trimEnd, List.length_reverse]
  exact (List.dropWhile_suffix isWhite).length_le.trans_eq List.length_reverse

theorem length_dropOptional_le (t : Text) : (dropOptional t).length ≤ t.length := by
  have hle := length_trimEnd_le t
  rw [dropOptional]
  split
  · have hle' := length_trimEnd_le (trimEnd t).dropLast
    rw [List.length_dropLast] at hle'
    omega
  · exact hle

/-- The white space at the end of a text stands behind every character that is not white. -/
theorem length_trailingWhite_le {c : Char} (hc : isWhite c = false) (w t : Text) :
    (trailingWhite (w ++ c :: t)).length ≤ t.length := by
  have hreverse : (w ++ c :: t).reverse = t.reverse ++ (c :: w.reverse) := by simp
  rw [trailingWhite, List.length_reverse, hreverse, List.takeWhile_append]
  split
  · have hnil : (c :: w.reverse).takeWhile isWhite = [] := by
      rw [List.takeWhile_cons_of_neg (by simp [hc])]
    rw [hnil, List.append_nil, List.length_reverse]
  · exact (List.takeWhile_prefix isWhite).length_le.trans_eq List.length_reverse

theorem length_eraseParameterType_le (p : Text) : (eraseParameterType p).length ≤ p.length := by
  rw [eraseParameterType]
  split
  · rename_i name type hname
    have hp := splitTopLevel?_append hname
    have hdrop := length_dropOptional_le name
    split
    · rename_i x value htype
      have ht := congrArg List.length (splitTopLevel?_append htype)
      rw [← hp]
      simp only [List.length_append, List.length_cons] at ht ⊢
      omega
    · have htrailing := length_trailingWhite_le (c := ':') (by decide) name type
      rw [← hp]
      simp only [List.length_append, List.length_cons] at htrailing ⊢
      omega
  · exact Nat.le_refl _

theorem length_eraseParameterTypes_le (p : Text) : (eraseParameterTypes p).length ≤ p.length := by
  fun_induction eraseParameterTypes p with
  | case1 p param comma others hsplit _ ih =>
    have hp := congrArg List.length (splitTopLevel?_append hsplit)
    have hparam := length_eraseParameterType_le param
    simp only [List.length_append, List.length_cons] at hp ⊢
    omega
  | case2 p => exact length_eraseParameterType_le p

/-! ## Signatures -/

/-- The white space in front of a return type is shorter than what the type covers with its
colon. -/
theorem length_gap_lt {x : Tail} (h : tail? t = some x) (ht : trimStart t = ':' :: r) :
    x.gap.length + (t.drop x.width).length < t.length := by
  rw [tail?, ht] at h
  obtain ⟨⟨type, f⟩, -, h⟩ := Option.bind_eq_some_iff.mp h
  dsimp only at h
  split at h
  · cases h
  · cases h
    have hlength := congrArg List.length (List.takeWhile_append_dropWhile (p := isWhite) (l := t))
    rw [trimStart] at ht
    rw [ht] at hlength
    simp only [List.length_append, List.length_cons, List.length_drop] at hlength ⊢
    omega

theorem length_gap_le {x : Tail} (h : tail? t = some x) :
    x.gap.length + (t.drop x.width).length ≤ t.length := by
  have hcolon := fun r ↦ length_gap_lt (r := r) h
  rw [tail?] at h
  split at h
  · cases h
    simp
  · cases h
    simp
  · rename_i u hu
    exact (hcolon u hu).le
  · cases h

theorem length_render_le (x : Signature) :
    x.render.length ≤ x.params.length + x.gap.length + 2 := by
  have hle := length_eraseParameterTypes_le x.params
  simp only [Signature.render, List.length_append, List.length_cons]
  omega

/-- What is left of a signature and what stands behind it is no longer than both were. -/
theorem length_signature?_le {x : Signature} (h : signature? before after = some x) :
    x.render.length + x.rest.length ≤ after.length + 1 := by
  have hrender := length_render_le x
  obtain ⟨params, behind, tail, hclose, htail, rfl, -⟩ := exists_of_signature? h
  have hlength := congrArg List.length (closeParen?_append hclose)
  have hgap := length_gap_le htail
  simp only [List.length_append, List.length_cons] at hlength hrender ⊢
  omega

/-- A signature with a return type gets shorter. -/
theorem length_signature?_lt {x : Signature} {params behind : Text}
    (h : signature? before after = some x) (hclose : closeParen? after = some (params, behind))
    (hcolon : trimStart behind = ':' :: r) :
    x.render.length + x.rest.length < after.length + 1 := by
  have hrender := length_render_le x
  obtain ⟨params', behind', tail, hclose', htail, rfl, -⟩ := exists_of_signature? h
  obtain ⟨rfl, rfl⟩ := Prod.mk.inj (Option.some.inj (hclose.symm.trans hclose'))
  have hlength := congrArg List.length (closeParen?_append hclose)
  have hgap := length_gap_lt htail hcolon
  simp only [List.length_append, List.length_cons] at hlength hrender ⊢
  omega

theorem length_eraseSignaturesFrom_le (before kept t : Text) :
    (eraseSignaturesFrom before kept t).length ≤ kept.length + t.length := by
  fun_induction eraseSignaturesFrom before kept t with
  | case1 before kept => simp
  | case2 before kept c r lit rest hinert _ ih =>
    have hlength := congrArg List.length (inert?_append hinert)
    simp only [List.length_append, List.length_reverse, List.length_cons] at ih hlength ⊢
    omega
  | case3 before kept r x hx hlead _ _ ih =>
    have hlength := length_signature?_le hx
    simp only [List.length_append, List.length_reverse, List.length_drop, List.length_cons,
      List.length_nil] at ih ⊢
    omega
  | case4 before kept r x _ _ _ ih =>
    simp only [List.length_cons] at ih ⊢
    omega
  | case5 before kept r _ _ ih =>
    simp only [List.length_cons] at ih ⊢
    omega
  | case6 before kept c r _ _ ih =>
    simp only [List.length_cons] at ih ⊢
    omega

/-! ## Scripts -/

/-- What is left of a script after its signatures is no longer made longer. -/
theorem length_render_dependencies_le (t : Text) :
    ((dependency.cut t).render eraseExpressionTypes Part.lexeme).length ≤ t.length :=
  Marker.length_render_cut_le length_eraseExpressionTypes_le fun _ _ ↦ Nat.le_refl _

/-- **Type erasure never lengthens a script.** -/
theorem length_eraseTypes_le (code : Text) : (eraseTypes code).length ≤ code.length := by
  have hsignatures := length_eraseSignaturesFrom_le [] [] (eraseDeclarations code)
  rw [List.length_nil, Nat.zero_add] at hsignatures
  exact (length_render_dependencies_le _).trans
    (hsignatures.trans (length_eraseDeclarations_le code))

end TypeSyntax

end PluginPack
