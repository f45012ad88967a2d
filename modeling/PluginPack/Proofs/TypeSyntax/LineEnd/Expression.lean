import PluginPack.Proofs.Typed.Assertion
import PluginPack.Proofs.TypeSyntax.LineEnd.Declaration

/-!
# Annotations, assertions and line ends

Annotations and assertions are found alike in a stretch of code with other line ends. One thing is
different behind a literal or comment that is left open at the end of its line: it takes in the
carriage return, so the stretch begins with a bare newline. When an assertion takes this newline
away in some round, the carriage return is left without it.
-/

namespace PluginPack

open Text Script

namespace TypeSyntax

variable {b : Option Char} {c : Char} {d : Nat} {r t y : Text}

/-! ## Annotations -/

theorem annotation?_return (d : Nat) (r : Text) :
    annotation? d ('\r' :: r) = (annotation? d r).map ('\r' :: ·) := by
  rw [Typed.annotation?_cons (by simp)]
  rfl

theorem not_arrow_crlf (h : ¬(c = '=' ∧ r.head? = some '>')) :
    ¬(c = '=' ∧ (crlf r).head? = some '>') := by
  rwa [head?_crlf (by decide) (by decide)]

/-- The annotation is read alike, except that the carriage return at the end of its line is taken
for white space at its end. -/
theorem exists_annotation?_crlf (d : Nat) (t : Text) :
    ∃ w, (∀ c ∈ w, isAsciiWhite c = true) ∧
      annotation? d (crlf t) = (annotation? d t).map (crlf · ++ w) := by
  have hcons {c : Char} (hc : c ≠ '\n') (w : Text) (x : Option Text) :
      (x.map (crlf · ++ w)).map (c :: ·) = (x.map (c :: ·)).map (crlf · ++ w) := by
    cases x <;> simp [crlf_cons hc]
  have hstep {c : Char} {r : Text} (harrow : ∀ r', c = '=' → r = '>' :: r' → False) :
      ¬(c = '=' ∧ (crlf r).head? = some '>') :=
    not_arrow_crlf (not_arrow_of_forall harrow)
  fun_induction annotation? d t with
  | case1 => exact ⟨[], by simp, rfl⟩
  | case2 d r ih =>
    obtain ⟨w, hw, hr⟩ := ih
    refine ⟨w, hw, ?_⟩
    rw [crlf_cons (by decide), crlf_cons (by decide), annotation?, hr]
    cases annotation? d r <;>
      simp [crlf_cons (by decide : '=' ≠ '\n'), crlf_cons (by decide : '>' ≠ '\n')]
  | case3 d c r harrow hopens ih =>
    have hc := ne_newline_of_class hopens rfl
    obtain ⟨w, hw, hr⟩ := ih
    refine ⟨w, hw, ?_⟩
    rw [crlf_cons hc, Typed.annotation?_cons (hstep harrow), if_pos hopens, hr, hcons hc]
  | case4 c r harrow hopens hcloses =>
    have hc := ne_newline_of_class hcloses rfl
    exact ⟨[], by simp, by
      rw [crlf_cons hc, Typed.annotation?_cons (hstep harrow), if_neg hopens, if_pos hcloses,
        if_pos rfl, Option.map_none]⟩
  | case5 d c r harrow hopens hcloses hd ih =>
    have hc := ne_newline_of_class hcloses rfl
    obtain ⟨w, hw, hr⟩ := ih
    refine ⟨w, hw, ?_⟩
    rw [crlf_cons hc, Typed.annotation?_cons (hstep harrow), if_neg hopens, if_pos hcloses,
      if_neg hd, hr, hcons hc]
  | case6 d c r harrow hopens hcloses hends =>
    by_cases hc : c = '\n'
    · subst hc
      refine ⟨['\r'], by decide, ?_⟩
      rw [crlf_newline, annotation?_return, Typed.annotation?_cons (by simp), if_neg hopens,
        if_neg hcloses, if_pos hends]
      rfl
    · refine ⟨[], by simp, ?_⟩
      rw [crlf_cons hc, Typed.annotation?_cons (hstep harrow), if_neg hopens, if_neg hcloses,
        if_pos hends]
      rfl
  | case7 d c r harrow hopens hcloses hends ih =>
    obtain ⟨w, hw, hr⟩ := ih
    refine ⟨w, hw, ?_⟩
    by_cases hc : c = '\n'
    · subst hc
      rw [crlf_newline, annotation?_return, Typed.annotation?_cons (by simp), if_neg hopens,
        if_neg hcloses, if_neg hends, hr]
      cases annotation? d r <;> rfl
    · rw [crlf_cons hc, Typed.annotation?_cons (hstep harrow), if_neg hopens, if_neg hcloses,
        if_neg hends, hr, hcons hc]

theorem afterAnnotation?_crlf (t : Text) :
    afterAnnotation? (crlf t) = (afterAnnotation? t).map crlf := by
  obtain ⟨w, hw, hcrlf⟩ := exists_annotation?_crlf 0 t
  rw [afterAnnotation?, hcrlf, afterAnnotation?]
  refine bind_map_of_forall fun a ha ↦ ?_
  have hkept : (crlf a ++ w).reverse.dropWhile isAsciiWhite =
      crlfBack (a.reverse.dropWhile isAsciiWhite) := by
    rw [List.reverse_append, List.dropWhile_append_of_pos fun c hc ↦ hw c (List.mem_reverse.mp hc),
      reverse_crlf, dropWhile_crlfBack rfl]
  have hprefix : (a.reverse.dropWhile isAsciiWhite).reverse <+: t := by
    refine List.IsPrefix.trans ?_ (annotation?_isPrefix ha)
    rw [← List.reverse_suffix, List.reverse_reverse]
    exact List.dropWhile_suffix _
  rw [hkept]
  cases hk : a.reverse.dropWhile isAsciiWhite with
  | nil => rfl
  | cons c k =>
    rw [hk] at hprefix
    have hdrop := drop_crlfBack hprefix
    cases hback : crlfBack (c :: k) with
    | nil =>
      have hnil := congrArg List.reverse hback
      rw [crlfBack_reverse, List.reverse_nil, crlf_eq_nil_iff] at hnil
      simp at hnil
    | cons e l =>
      rw [hback] at hdrop
      exact congrArg some hdrop

theorem declarator?_crlf (t : Text) : declarator? (crlf t) = (declarator? t).map crlf := by
  rw [declarator?, keyword?_crlf (by decide) (by decide), keyword?_crlf (by decide) (by decide),
    keyword?_crlf (by decide) (by decide), ← Option.map_or, ← Option.map_or, declarator?]

theorem annotatedVariable?_crlf (t : Text) :
    annotatedVariable? (crlf t) = (annotatedVariable? t).map (Prod.map crlf crlf) := by
  rw [annotatedVariable?, declarator?_crlf, annotatedVariable?]
  refine bind_map_of_forall fun r hr ↦ ?_
  rw [some?_crlf rfl]
  refine bind_map_of_forall fun u hu ↦ ?_
  have hafter : ((word? [':'] (trimStart u)).map crlf).bind afterAnnotation? =
      ((word? [':'] (trimStart u)).bind afterAnnotation?).map crlf :=
    bind_map_of_forall fun v _ ↦ afterAnnotation?_crlf v
  rw [trimStart_crlf, word?_crlf (by decide) (by decide), hafter, Option.map_map, Option.map_map,
    consumed_crlf ((some?_suffix hu).trans (declarator?_suffix hr))]
  rfl

theorem isSteady_annotatedVariable : annotatedVariable.IsSteady crlf where
  find {b t} _ := by
    simp only [annotatedVariable]
    split_ifs
    · rfl
    · exact annotatedVariable?_crlf t
  between := rfl

theorem eraseAnnotations_crlf (h : '\r' ∉ t) :
    eraseAnnotations (crlf t) = crlf (eraseAnnotations t) :=
  isSteady_annotatedVariable.replace_crlf (fun _ ↦ rfl) h

/-! ## Assertions -/

theorem skipArrays_eq_self (h : ∀ r, t ≠ '[' :: ']' :: r) : skipArrays t = t := by
  unfold skipArrays
  split
  · exact absurd rfl (h _)
  · rfl

theorem skipArrays_crlf (t : Text) : skipArrays (crlf t) = crlf (skipArrays t) := by
  fun_induction skipArrays t with
  | case1 r ih =>
    rw [crlf_cons (by decide), crlf_cons (by decide), skipArrays, ih]
  | case2 t h =>
    refine skipArrays_eq_self fun r hr ↦ ?_
    have hnone : word? ['[', ']'] t = none :=
      word?_eq_none_iff.mpr fun ⟨u, hu⟩ ↦ h u hu.symm
    have hword := word?_crlf (w := ['[', ']']) (by decide) (by decide) t
    rw [hr, hnone] at hword
    cases hword

theorem namedType?_crlf (t : Text) : namedType? (crlf t) = (namedType? t).map crlf := by
  rw [namedType?, some?_crlf rfl, namedType?, Option.map_map, Option.map_map]
  refine congrArg (Option.map · _) (funext fun r ↦ ?_)
  have harguments : typeArguments? (crlf r) = (typeArguments? r).map crlf :=
    angles?_crlf rfl rfl r
  rw [Function.comp_apply, optionally_crlf harguments, skipArrays_crlf, Function.comp_apply]

theorem assertedType?_crlf (t : Text) : assertedType? (crlf t) = (assertedType? t).map crlf := by
  rw [assertedType?, word?_crlf (by decide) (by decide), assertedType?]
  cases word? "const".toList t with
  | none => exact namedType?_crlf t
  | some r =>
    simp only [Option.map_some, any_head?_crlf (p := isWordChar) rfl, namedType?_crlf]
    split_ifs <;> rfl

theorem assertion?_crlf (t : Text) : assertion? (crlf t) = (assertion? t).map crlf := by
  rw [assertion?, white?_crlf, assertion?]
  refine bind_map_of_forall fun r _ ↦ ?_
  rw [keyword?_crlf (by decide) (by decide)]
  exact bind_map_of_forall fun r _ ↦ assertedType?_crlf r

theorem asserted?_of_not_endsOperand (hc : endsOperand c = false) (b : Option Char) (t : Text) :
    asserted? b (c :: t) = if b.isNone then (assertion? (c :: t)).map ([], ·) else none := by
  rw [asserted?, if_neg (by simp [hc])]

theorem asserted?_crlf (b : Option Char) (t : Text) :
    asserted? b (crlf t) = (asserted? b t).map (Prod.map crlf crlf) := by
  cases t with
  | nil => rfl
  | cons c t =>
    have hself := assertion?_crlf (c :: t)
    by_cases hc : c = '\n'
    · subst hc
      rw [crlf_newline] at hself ⊢
      rw [asserted?_of_not_endsOperand (by decide), asserted?_of_not_endsOperand (by decide), hself]
      split_ifs
      · cases assertion? ('\n' :: t) <;> rfl
      · rfl
    · rw [crlf_cons hc] at hself ⊢
      rw [asserted?, asserted?, assertion?_crlf, hself]
      split_ifs
      · cases assertion? t <;> simp [crlf_cons hc]
      · cases assertion? (c :: t) <;> rfl
      · rfl

theorem isSteady_assertion : assertion.IsSteady crlf where
  find {b t} _ := asserted?_crlf b t
  between := rfl

theorem eraseAssertionsOnce_crlf (h : '\r' ∉ t) :
    eraseAssertionsOnce (crlf t) = crlf (eraseAssertionsOnce t) :=
  isSteady_assertion.replace_crlf (fun _ ↦ rfl) h

theorem eraseAnnotations_subset (t : Text) : eraseAnnotations t ⊆ t := by
  refine Marker.subset_replace (fun {b t a r} h ↦ ?_) t
  obtain ⟨y, v, -, rfl, -⟩ := exists_of_annotatedVariable? (annotatedVariable?_of_find? h)
  exact List.take_subset _ _

theorem eraseAssertionsOnce_subset (t : Text) : eraseAssertionsOnce t ⊆ t := by
  refine Marker.subset_replace (fun {b t a r} h ↦ ?_) t
  obtain ⟨s, rfl, -⟩ := exists_of_find?_assertion h
  exact List.subset_append_left a s

theorem eraseFromStretch_subset (t : Text) : eraseFromStretch t ⊆ t := by
  have hassertions (t : Text) : eraseAssertions t ⊆ t := by
    fun_induction eraseAssertions t with
    | case1 t _ ih => exact List.Subset.trans ih (eraseAssertionsOnce_subset t)
    | case2 t => exact List.Subset.refl t
  exact List.Subset.trans (hassertions _) (eraseAnnotations_subset t)

theorem eraseAssertions_crlf (h : '\r' ∉ t) :
    eraseAssertions (crlf t) = crlf (eraseAssertions t) := by
  induction hn : t.length using Nat.strongRecOn generalizing t with
  | ind n ih =>
    subst hn
    rcases shrinks_eraseAssertionsOnce t with hself | hlt
    · have honce := eraseAssertionsOnce_crlf h
      rw [hself] at honce
      rw [eraseAssertions_of_eq honce, eraseAssertions_of_eq hself]
    · rw [← Typed.eraseAssertions_eraseAssertionsOnce, eraseAssertionsOnce_crlf h,
        ih _ hlt (fun hmem ↦ h (eraseAssertionsOnce_subset t hmem)) rfl,
        Typed.eraseAssertions_eraseAssertionsOnce]

theorem eraseFromStretch_crlf (h : '\r' ∉ t) :
    eraseFromStretch (crlf t) = crlf (eraseFromStretch t) := by
  rw [eraseFromStretch, eraseAnnotations_crlf h,
    eraseAssertions_crlf fun hmem ↦ h (eraseAnnotations_subset t hmem), eraseFromStretch]

/-! ## Behind an open literal or comment -/

variable {z : Text}

/-- A marker that finds nothing at a newline treats what follows it alike. -/
theorem exists_replace_newline {α : Type} {m : Marker α} {f : α → α} {g : α → Text}
    (hm : m.IsSteady f) (hg : ∀ a, g (f a) = crlf (g a)) (hz : '\r' ∉ z)
    (hnone : m.find? none ('\n' :: z) = none) (hcrlf : m.find? none ('\n' :: crlf z) = none) :
    ∃ z', m.replace g ('\n' :: z) = '\n' :: z' ∧
      m.replace g ('\n' :: crlf z) = '\n' :: crlf z' := by
  refine ⟨(m.cutFrom (some '\n') z).substitute fun p ↦ g p.value, ?_, ?_⟩
  · rw [Marker.replace, Marker.cut, Marker.cutFrom_of_none m hnone, Cut.substitute_push]
  · rw [Marker.replace, Marker.cut, Marker.cutFrom_of_none m hcrlf, Cut.substitute_push,
      hm.cutFrom_crlf hz, Cut.substitute_crlf fun p _ ↦ hg p.value]

theorem exists_eraseAnnotations_newline (hz : '\r' ∉ z) :
    ∃ z', eraseAnnotations ('\n' :: z) = '\n' :: z' ∧
      eraseAnnotations ('\n' :: crlf z) = '\n' :: crlf z' :=
  exists_replace_newline isSteady_annotatedVariable (fun _ ↦ rfl) hz rfl rfl

theorem assertion?_newline_crlf (z : Text) :
    assertion? ('\n' :: crlf z) = (assertion? ('\n' :: z)).map crlf := by
  rw [← assertion?_crlf]
  rfl

theorem find?_assertion_newline (t : Text) :
    assertion.find? none ('\n' :: t) = (assertion? ('\n' :: t)).map ([], ·) := rfl

theorem exists_eraseAssertionsOnce_newline (hz : '\r' ∉ z) (hnone : assertion? ('\n' :: z) = none) :
    ∃ z', eraseAssertionsOnce ('\n' :: z) = '\n' :: z' ∧
      eraseAssertionsOnce ('\n' :: crlf z) = '\n' :: crlf z' := by
  refine exists_replace_newline isSteady_assertion (fun _ ↦ rfl) hz ?_ ?_
  · rw [find?_assertion_newline, hnone, Option.map_none]
  · rw [find?_assertion_newline, assertion?_newline_crlf, hnone, Option.map_none, Option.map_none]

/-- An assertion at the beginning takes the newline away, whether or not a carriage return stands in
front of it. -/
theorem eraseAssertionsOnce_newline_crlf (hz : '\r' ∉ z) (h : assertion? ('\n' :: z) = some r) :
    eraseAssertionsOnce ('\n' :: crlf z) = crlf (eraseAssertionsOnce ('\n' :: z)) := by
  obtain ⟨hsuffix, hlt⟩ := assertion?_suffix h
  have hr : '\r' ∉ r := fun hmem ↦ by simpa [hz] using hsuffix.subset hmem
  have hfind : assertion.find? none ('\n' :: z) = some ([], r) := by
    rw [find?_assertion_newline, h, Option.map_some]
  have hcrlf : assertion.find? none ('\n' :: crlf z) = some ([], crlf r) := by
    rw [find?_assertion_newline, assertion?_newline_crlf, h, Option.map_some, Option.map_some]
  have hlast : (Marker.consumed ('\n' :: crlf z) (crlf r)).getLast? =
      (Marker.consumed ('\n' :: z) r).getLast? := by
    obtain ⟨w, hw⟩ := hsuffix
    obtain ⟨c, w, rfl⟩ := List.exists_cons_of_ne_nil (l := w) (by
      rintro rfl
      rw [← hw] at hlt
      exact absurd hlt (Nat.lt_irrefl _))
    obtain ⟨hc, hwr⟩ : c = '\n' ∧ w ++ r = z := List.cons.inj hw
    subst hc hwr
    have hself := getLast?_crlf ('\n' :: w)
    rw [crlf_newline, List.getLast?_cons_cons] at hself
    rw [crlf_append, ← List.cons_append, ← List.cons_append, Marker.consumed_left,
      Marker.consumed_left, hself]
  rw [eraseAssertionsOnce, Marker.replace, Marker.cut, Marker.cutFrom_of_some _ hcrlf,
    Cut.substitute_mark, hlast, isSteady_assertion.cutFrom_crlf hr,
    Cut.substitute_crlf (fun p _ ↦ rfl), eraseAssertionsOnce, Marker.replace, Marker.cut,
    Marker.cutFrom_of_some _ hfind, Cut.substitute_mark]
  rfl

/-- In some round an assertion begins the code. -/
def BeginsAsserted (code : Text) : Prop :=
  ∃ n, (assertion? (eraseAssertionsOnce^[n] code)).isSome = true

theorem eraseAssertions_newline_of_some (hz : '\r' ∉ z) (h : assertion? ('\n' :: z) = some r) :
    eraseAssertions ('\n' :: crlf z) = crlf (eraseAssertions ('\n' :: z)) := by
  have hmem : '\r' ∉ eraseAssertionsOnce ('\n' :: z) := fun hmem ↦ by
    simpa [hz] using eraseAssertionsOnce_subset _ hmem
  rw [← Typed.eraseAssertions_eraseAssertionsOnce, eraseAssertionsOnce_newline_crlf hz h,
    eraseAssertions_crlf hmem, Typed.eraseAssertions_eraseAssertionsOnce]

/-- A round that finds no assertion at the beginning leaves the newline there. -/
theorem exists_eraseAssertions_newline (hz : '\r' ∉ z) (hnone : assertion? ('\n' :: z) = none) :
    ∃ z', '\r' ∉ z' ∧ eraseAssertionsOnce ('\n' :: z) = '\n' :: z' ∧
      eraseAssertions ('\n' :: crlf z) = eraseAssertions ('\n' :: crlf z') ∧
      eraseAssertions ('\n' :: z) = eraseAssertions ('\n' :: z') := by
  obtain ⟨z', honce, hcrlf⟩ := exists_eraseAssertionsOnce_newline hz hnone
  refine ⟨z', fun hmem ↦ ?_, honce, ?_, ?_⟩
  · have hsubset := eraseAssertionsOnce_subset ('\n' :: z)
    rw [honce] at hsubset
    simpa [hz] using hsubset (List.mem_cons_of_mem _ hmem)
  · rw [← hcrlf, Typed.eraseAssertions_eraseAssertionsOnce]
  · rw [← honce, Typed.eraseAssertions_eraseAssertionsOnce]

theorem eraseAssertions_newline_of_begins (hz : '\r' ∉ z) (h : BeginsAsserted ('\n' :: z)) :
    eraseAssertions ('\n' :: crlf z) = crlf (eraseAssertions ('\n' :: z)) := by
  obtain ⟨n, hn⟩ := h
  induction n generalizing z with
  | zero =>
    obtain ⟨r, hr⟩ := Option.isSome_iff_exists.mp hn
    exact eraseAssertions_newline_of_some hz hr
  | succ n ih =>
    cases hfirst : assertion? ('\n' :: z) with
    | some r => exact eraseAssertions_newline_of_some hz hfirst
    | none =>
      obtain ⟨z', hz', honce, hcrlf, hself⟩ := exists_eraseAssertions_newline hz hfirst
      rw [Function.iterate_succ_apply, honce] at hn
      rw [hcrlf, hself, ih hz' hn]

theorem eraseAssertions_newline_of_not_begins (hz : '\r' ∉ z) (h : ¬BeginsAsserted ('\n' :: z)) :
    '\r' :: eraseAssertions ('\n' :: crlf z) = crlf (eraseAssertions ('\n' :: z)) := by
  have hnone : ∀ n, assertion? (eraseAssertionsOnce^[n] ('\n' :: z)) = none := by
    simpa [BeginsAsserted] using h
  clear h
  induction hn : ('\n' :: z).length using Nat.strongRecOn generalizing z with
  | ind n ih =>
    subst hn
    rcases shrinks_eraseAssertionsOnce ('\n' :: z) with hfixed | hlt
    · obtain ⟨z', honce, hcrlf⟩ := exists_eraseAssertionsOnce_newline hz (hnone 0)
      obtain rfl : z' = z := (List.cons.inj (honce.symm.trans hfixed)).2
      rw [eraseAssertions_of_eq hcrlf, eraseAssertions_of_eq hfixed, crlf_newline]
    · obtain ⟨z', hz', honce, hcrlf, hself⟩ := exists_eraseAssertions_newline hz (hnone 0)
      rw [honce] at hlt
      rw [hcrlf, hself, ih _ hlt hz' (fun n ↦ ?_) rfl]
      have hnext := hnone (n + 1)
      rwa [Function.iterate_succ_apply, honce] at hnext

/-- **A stretch behind a carriage return.** The rest of the line end is treated as the whole line
end is, unless an assertion takes it away. -/
theorem eraseFromStretch_newline_crlf (hz : '\r' ∉ z) :
    (BeginsAsserted (eraseAnnotations ('\n' :: z)) →
        eraseFromStretch ('\n' :: crlf z) = crlf (eraseFromStretch ('\n' :: z))) ∧
      (¬BeginsAsserted (eraseAnnotations ('\n' :: z)) →
        '\r' :: eraseFromStretch ('\n' :: crlf z) = crlf (eraseFromStretch ('\n' :: z))) := by
  obtain ⟨z', hself, hcrlf⟩ := exists_eraseAnnotations_newline hz
  have hz' : '\r' ∉ z' := fun hmem ↦ by
    have hsubset := eraseAnnotations_subset ('\n' :: z)
    rw [hself] at hsubset
    simpa [hz] using hsubset (List.mem_cons_of_mem _ hmem)
  rw [eraseFromStretch, eraseFromStretch, hself, hcrlf]
  exact ⟨eraseAssertions_newline_of_begins hz', eraseAssertions_newline_of_not_begins hz'⟩

end TypeSyntax

end PluginPack
