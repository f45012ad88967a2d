import PluginPack.Proofs.TypeSyntax.LineEnd.Expression
import PluginPack.Proofs.Untyped.Parameter

/-!
# Parameters and line ends

Commas, colons and equals signs outside brackets are found alike in a list of parameters with other
line ends, so each parameter loses the same type.
-/

namespace PluginPack

open Text Script

namespace TypeSyntax

variable {c : Char} {d : Nat} {p : Char → Bool} {r t : Text}

/-! ## Characters outside brackets -/

theorem splitTopLevel?_return (hp : p '\r' = false) (d : Nat) (r : Text) :
    splitTopLevel? p d ('\r' :: r) = Untyped.attach ['\r'] (splitTopLevel? p d r) :=
  Untyped.splitTopLevel?_cons (inert?_return r) (by simp) rfl rfl (by simp [hp])

theorem not_equals_crlf (h : ¬(c = '=' ∧ (r.head? = some '>' ∨ r.head? = some '='))) :
    ¬(c = '=' ∧ ((crlf r).head? = some '>' ∨ (crlf r).head? = some '=')) := by
  rwa [head?_crlf (by decide) (by decide), head?_crlf (by decide) (by decide)]

theorem splitTopLevel?_crlf (hr : p '\r' = false) (hn : p '\n' = false) (h : IsUnbroken t)
    (d : Nat) :
    splitTopLevel? p d (crlf t) = (splitTopLevel? p d t).map (Prod.map crlf crlf) := by
  fun_induction splitTopLevel? p d t with
  | case1 d => rw [crlf_nil, splitTopLevel?, Option.map_none]
  | case2 d c s l r hl _ ih =>
    rw [attach_inert_crlf (fun _ _ ↦ Untyped.splitTopLevel?_inert) (splitTopLevel?_return hr d)
      (h _ (List.suffix_refl _)) hl, ih (h.of_suffix ⟨l, inert?_append hl⟩), ← attach_map_crlf]
    rfl
  | case3 d c s hnone hequals ih =>
    obtain ⟨rfl, hhead⟩ := hequals
    obtain ⟨e, s, rfl, he⟩ : ∃ e s', s = e :: s' ∧ (e = '>' ∨ e = '=') := by
      rcases hhead with hhead | hhead <;> obtain ⟨s', rfl⟩ := List.head?_eq_some_iff.mp hhead
      · exact ⟨_, s', rfl, .inl rfl⟩
      · exact ⟨_, s', rfl, .inr rfl⟩
    have hline : e ≠ '\n' := by rcases he with rfl | rfl <;> decide
    have hpair : crlf ['=', e] = ['=', e] := by
      rw [crlf_cons (by decide), crlf_cons hline, crlf_nil]
    have hs : splitTopLevel? p d (crlf s) = (splitTopLevel? p d s).map (Prod.map crlf crlf) :=
      ih (h.of_suffix ⟨['=', e], rfl⟩)
    rw [crlf_cons (by decide), crlf_cons hline, Untyped.splitTopLevel?_equals he, hs, ← hpair,
      ← attach_map_crlf]
    rfl
  | case4 d c s hnone hequals hopens ih =>
    have hc := ne_newline_of_class hopens rfl
    have hsign : c ≠ '=' := by
      rintro rfl
      cases hopens
    rw [crlf_cons hc, Untyped.splitTopLevel?_opens
      (inert?_cons_crlf (h _ (List.suffix_refl _)) hnone hc) hsign hopens,
      ih (h.of_suffix (List.suffix_cons c s)), ← attach_cons_map_crlf hc]
    rfl
  | case5 d c s hnone hequals hopens hcloses ih =>
    have hc := ne_newline_of_class hcloses rfl
    have hsign : c ≠ '=' := by
      rintro rfl
      cases hcloses
    rw [crlf_cons hc, Untyped.splitTopLevel?_closes
      (inert?_cons_crlf (h _ (List.suffix_refl _)) hnone hc) hsign (by simpa using hopens) hcloses,
      ih (h.of_suffix (List.suffix_cons c s)), ← attach_cons_map_crlf hc]
    rfl
  | case6 d c s hnone hequals hopens hcloses hfound =>
    obtain ⟨hp, hd⟩ := Bool.and_eq_true_iff.mp hfound
    obtain rfl := beq_iff_eq.mp hd
    have hc := ne_newline_of_class hp hn
    rw [crlf_cons hc, Untyped.splitTopLevel?_found
      (inert?_cons_crlf (h _ (List.suffix_refl _)) hnone hc) (not_equals_crlf hequals)
      (by simpa using hopens) (by simpa using hcloses) hp, Option.map_some, Prod.map_apply,
      crlf_cons hc]
    rfl
  | case7 d c s hnone hequals hopens hcloses hfound ih =>
    have hs := ih (h.of_suffix (List.suffix_cons c s))
    have hequals := not_equals_crlf hequals
    have hopens : opensNesting c = false := by simpa using hopens
    have hcloses : closesNesting c = false := by simpa using hcloses
    have hfound : (p c && d == 0) = false := by simpa using hfound
    by_cases hc : c = '\n'
    · subst hc
      rw [crlf_newline, splitTopLevel?_return hr, Untyped.splitTopLevel?_cons
        (inert?_eq_none (by decide) (by decide) _) hequals hopens hcloses hfound, hs,
        Untyped.attach_attach]
      exact (attach_map_crlf ['\n'] _).symm
    · rw [crlf_cons hc, Untyped.splitTopLevel?_cons
        (inert?_cons_crlf (h _ (List.suffix_refl _)) hnone hc) hequals hopens hcloses hfound, hs,
        ← attach_cons_map_crlf hc]
      rfl

/-! ## Types of parameters -/

theorem dropOptional_crlf (t : Text) : dropOptional (crlf t) = crlf (dropOptional t) := by
  simp only [dropOptional, trimEnd_crlf, getLast?_crlf]
  split_ifs with hlast
  · obtain ⟨n, hn⟩ := List.getLast?_eq_some_iff.mp hlast
    rw [hn, crlf_append, crlf_cons (by decide), crlf_nil, List.dropLast_concat,
      List.dropLast_concat, trimEnd_crlf]
  · rfl

theorem eraseParameterType_crlf (h : IsUnbroken t) :
    eraseParameterType (crlf t) = crlf (eraseParameterType t) := by
  rw [eraseParameterType, splitTopLevel?_crlf rfl rfl h, eraseParameterType]
  rcases hname : splitTopLevel? (fun c ↦ c == ':' || c == '=') 0 t with _ | ⟨name, _ | ⟨c, type⟩⟩
  · rfl
  · rfl
  have hsuffix : c :: type <:+ t := ⟨name, splitTopLevel?_append hname⟩
  by_cases hcolon : c = ':'
  · subst hcolon
    have htype := splitTopLevel?_crlf (p := (· == '=')) rfl rfl
      (h.of_suffix ((List.suffix_cons _ _).trans hsuffix)) 0
    simp only [Option.map_some, Prod.map_apply, crlf_cons (show ':' ≠ '\n' by decide), htype,
      dropOptional_crlf, trailingWhite_crlf]
    cases splitTopLevel? (· == '=') 0 type with
    | none => rw [Option.map_none, crlf_append]
    | some q =>
      rw [Option.map_some, crlf_append, crlf_cons (by decide)]
      rfl
  · by_cases hc : c = '\n'
    · subst hc
      rfl
    · simp [crlf_cons hc, hcolon]

theorem eraseParameterTypes_crlf (h : IsUnbroken t) :
    eraseParameterTypes (crlf t) = crlf (eraseParameterTypes t) := by
  induction hn : t.length using Nat.strongRecOn generalizing t with
  | ind n ih =>
    subst hn
    have hcrlf := splitTopLevel?_crlf (p := (· == ',')) rfl rfl h 0
    cases hsplit : splitTopLevel? (· == ',') 0 t with
    | none =>
      rw [hsplit] at hcrlf
      rw [Untyped.eraseParameterTypes_of_none hcrlf, eraseParameterType_crlf h,
        Untyped.eraseParameterTypes_of_none hsplit]
    | some q =>
      obtain ⟨param, r⟩ := q
      obtain ⟨c, others, rfl, hc⟩ := exists_cons_of_splitTopLevel? hsplit
      have hcomma : c ≠ '\n' := by simp [beq_iff_eq.mp hc]
      obtain rfl := splitTopLevel?_append hsplit
      rw [hsplit, Option.map_some, Prod.map_apply, crlf_cons hcomma] at hcrlf
      have hlt : others.length < (param ++ c :: others).length := by
        rw [List.length_append, List.length_cons]
        omega
      rw [Untyped.eraseParameterTypes_of_some hcrlf,
        eraseParameterType_crlf (h.of_infix (List.prefix_append _ _).isInfix),
        ih others.length hlt (h.of_suffix ⟨param ++ [c], by simp⟩) rfl,
        Untyped.eraseParameterTypes_of_some hsplit, crlf_append, crlf_cons hcomma]

/-! ## Characters of the outcome -/

theorem dropOptional_subset (t : Text) : dropOptional t ⊆ t := by
  have htrim := (trimEnd_isPrefix t).subset
  rw [dropOptional]
  split
  · exact List.Subset.trans (trimEnd_isPrefix _).subset
      (List.Subset.trans (List.dropLast_subset _) htrim)
  · exact htrim

theorem trailingWhite_subset (t : Text) : trailingWhite t ⊆ t := fun _ hc ↦
  List.mem_reverse.mp ((List.takeWhile_prefix _).subset (List.mem_reverse.mp hc))

/-- A parameter without its type has characters of its own, and a space perhaps. -/
theorem eraseParameterType_subset (t : Text) : eraseParameterType t ⊆ ' ' :: t := by
  rw [eraseParameterType]
  split
  · rename_i name type hname
    have hname := splitTopLevel?_append hname
    have hleft : dropOptional name ⊆ ' ' :: t := fun c hc ↦ List.mem_cons_of_mem _
      (hname ▸ List.mem_append_left _ (dropOptional_subset name hc))
    split
    · rename_i a value hvalue
      have hright : value ⊆ t := fun c hc ↦ by
        rw [← hname, ← splitTopLevel?_append hvalue]
        exact List.mem_append_right _ (List.mem_cons_of_mem _ (List.mem_append_right _ hc))
      exact List.append_subset.mpr ⟨hleft, List.cons_subset_cons ' ' hright⟩
    · exact List.append_subset.mpr
        ⟨hleft, fun c hc ↦ List.mem_cons_of_mem _ (trailingWhite_subset t hc)⟩
  · exact List.subset_cons_self ' ' t

theorem eraseParameterTypes_subset (t : Text) : eraseParameterTypes t ⊆ ' ' :: t := by
  fun_induction eraseParameterTypes t with
  | case1 t param comma others hsplit _ ih =>
    rw [← splitTopLevel?_append hsplit]
    have hparam := eraseParameterType_subset param
    intro c hc
    rcases List.mem_append.mp hc with hc | hc
    · have hmem := hparam hc
      simp only [List.mem_cons, List.mem_append] at hmem ⊢
      exact hmem.imp_right .inl
    · rcases List.mem_cons.mp hc with rfl | hc
      · simp
      · have hmem := ih hc
        simp only [List.mem_cons, List.mem_append] at hmem ⊢
        exact hmem.imp_right fun h ↦ .inr (.inr h)
  | case2 t => exact eraseParameterType_subset t

end TypeSyntax

end PluginPack
