import PluginPack.Proofs.Script.LineEnd
import PluginPack.Proofs.TypeSyntax.KeptStatement

/-!
# Type declarations and line ends

Interfaces and type aliases are found alike in a text with other line ends, and the same of it stays
when they are removed. Since whole lines go, every literal that was read on its line still is.
-/

namespace PluginPack

open Text Script

/-! ## Lines taken out -/

namespace Marker

variable {α : Type} {m : Marker α} {b : Option Char} {t : Text}

/-- Where a marker's parts are replaced by texts of their own characters, no other come in. -/
theorem subset_cutFrom {g : α → Text} (hg : ∀ {b t a r}, m.find? b t = some (a, r) → g a ⊆ t) :
    ((m.cutFrom b t).substitute fun p ↦ g p.value) ⊆ t := by
  induction hn : t.length using Nat.strongRecOn generalizing b t with
  | ind n ih =>
    subst hn
    cases t with
    | nil =>
      rw [cutFrom_nil]
      exact List.Subset.refl _
    | cons c t =>
      cases hfind : m.find? b (c :: t) with
      | none =>
        rw [cutFrom_of_none m hfind, Cut.substitute_push]
        exact List.cons_subset_cons c (ih t.length (Nat.lt_succ_self _) rfl)
      | some q =>
        rw [cutFrom_of_some m hfind, Cut.substitute_mark]
        exact List.append_subset.mpr ⟨hg hfind,
          fun d hd ↦ (m.suffix hfind).subset (ih q.2.length (m.shorter hfind) rfl hd)⟩

theorem subset_replace {g : α → Text} (hg : ∀ {b t a r}, m.find? b t = some (a, r) → g a ⊆ t)
    (t : Text) : m.replace g t ⊆ t := subset_cutFrom hg

theorem erase_subset (m : Marker α) (t : Text) : m.erase t ⊆ t :=
  subset_replace (fun _ ↦ List.nil_subset _) t

theorem IsSteady.erase_crlf {f : α → α} (hm : m.IsSteady f) (h : '\r' ∉ t) :
    m.erase (crlf t) = crlf (m.erase t) := hm.replace_crlf (fun _ ↦ rfl) h

end Marker

namespace Script

variable {q : Char} {l t x : Text}

theorem isUnbroken_cutFrom {α : Type} {m : Marker α} (hm : m.IsLinewise) (h : IsUnbroken t)
    (b : Option Char) : IsUnbroken ((m.cutFrom b t).substitute fun _ ↦ []) := by
  induction hn : t.length using Nat.strongRecOn generalizing b t with
  | ind n ih =>
    subst hn
    cases t with
    | nil =>
      rw [Marker.cutFrom_nil]
      exact isUnbroken_nil
    | cons c t =>
      cases hfind : m.find? b (c :: t) with
      | some a =>
        rw [Marker.cutFrom_of_some m hfind, Cut.substitute_mark, List.nil_append]
        exact ih a.2.length (m.shorter hfind) (h.of_suffix (m.suffix hfind)) _ rfl
      | none =>
        have htail := ih t.length (Nat.lt_succ_self _) (h.of_suffix (List.suffix_cons c t)) (some c)
          rfl
        rw [Marker.cutFrom_of_none m hfind, Cut.substitute_push]
        intro u hu
        rcases List.suffix_cons_iff.mp hu with rfl | hu
        · intro hruns
          refine h _ (List.suffix_refl _) ?_
          have hquote : Marker.beginsLine (some c) = false := by
            rcases hruns.1 with rfl | rfl <;> rfl
          obtain ⟨step, hstep, rfl⟩ := hm
          -- Up to the end of the line the text stays as it is.
          by_cases hline : '\n' ∈ t
          · obtain ⟨l, r, rfl, hl⟩ := List.eq_append_cons_of_mem hline
            have hpass : (Marker.ofLine step hstep).Passes (some c) (l ++ ['\n']) r :=
              Marker.passes_restOfLine hquote (by simpa using hl) r
            rw [← List.singleton_append (l := r), ← List.append_assoc, hpass.cutFrom_append,
              Cut.substitute_prepend, List.append_assoc, ← List.cons_append] at hruns
            have hfirst := hruns.line (l := c :: l) (by
              rw [List.mem_cons, not_or]
              refine ⟨?_, hl⟩
              rintro rfl
              cases hquote)
            have hwhole := hfirst.append r
            rwa [List.append_assoc] at hwhole
          · have hpass : (Marker.ofLine step hstep).Passes (some c) t [] :=
              Marker.passes_restOfLine hquote (fun hmem ↦ hline (List.mem_of_mem_dropLast hmem)) []
            rw [← List.append_nil t, hpass.cutFrom_append, Marker.cutFrom_nil,
              Cut.substitute_prepend, Cut.substitute_empty, List.append_nil] at hruns
            exact hruns
        · exact htail u hu

end Script

namespace TypeSyntax

variable {r t : Text}

/-! ## Interfaces -/

theorem skipModifiers_crlf (t : Text) : skipModifiers (crlf t) = crlf (skipModifiers t) := by
  rw [skipModifiers, dropWhile_crlf rfl, optionally_crlf (keyword?_crlf (by decide) (by decide) _),
    optionally_crlf (keyword?_crlf (by decide) (by decide) _), skipModifiers]

theorem interface?_crlf (h : '\r' ∉ t) : interface? (crlf t) = (interface? t).map crlf := by
  rw [interface?, skipModifiers_crlf, keyword?_crlf (by decide) (by decide), interface?]
  refine bind_map_of_forall fun r hr ↦ ?_
  rw [some?_crlf rfl]
  refine bind_map_of_forall fun u hu ↦ ?_
  rw [dropWhile_crlf_of_line rfl rfl, braces?_crlfRest]
  refine bind_map_of_forall fun v hv ↦ closeLine?_crlf fun hmem ↦ h ?_
  exact ((braces?_suffix hv).trans <| (List.dropWhile_suffix _).trans <| (some?_suffix hu).trans <|
    (keyword?_suffix hr).trans (skipModifiers_suffix t)).subset hmem

/-! ## Aliases -/

/-- A list in angle brackets that ends on its line is read alike. -/
theorem angles?_crlf {inner : Char → Bool} (hr : inner '\r' = true) (hn : inner '\n' = false)
    (t : Text) : angles? inner (crlf t) = (angles? inner t).map crlf := by
  rw [angles?, word?_crlf (by decide) (by decide), angles?]
  cases word? ['<'] t with
  | none => rfl
  | some r =>
    rw [Option.map_some, Option.bind_some, Option.bind_some, dropWhile_crlf_of_line hr hn,
      word?_crlfRest (by decide) (by decide)]

theorem closeAlias?_crlf (h : '\r' ∉ t) : closeAlias? (crlf t) = (closeAlias? t).map crlf := by
  rw [closeAlias?, dropWhile_crlf_of_line rfl rfl, closeAlias?]
  have hsuffix := List.dropWhile_suffix (l := t) fun c ↦ c != ';' && c != '\n'
  rcases hd : t.dropWhile fun c ↦ c != ';' && c != '\n' with _ | ⟨d, r⟩
  · rfl
  rw [hd] at hsuffix
  have hr : '\r' ∉ d :: r := fun hmem ↦ h (hsuffix.subset hmem)
  by_cases hsemicolon : d = ';'
  · subst hsemicolon
    have hblank : '\r' ∉ r.dropWhile isBlank := fun hmem ↦
      hr (List.mem_cons_of_mem _ ((List.dropWhile_suffix _).subset hmem))
    have hend := lineEnd?_crlf hblank
    rw [← dropWhile_crlf rfl] at hend
    rw [crlfRest_cons (by decide)]
    exact hend
  · by_cases hnewline : d = '\n'
    · subst hnewline
      rfl
    · rw [crlfRest_cons hnewline]
      have hself := lineEnd?_crlfRest hr
      rw [crlfRest_cons hnewline] at hself
      simpa [hsemicolon] using hself

theorem lastBlankLine?_crlf (t : Text) : lastBlankLine? (crlf t) = (lastBlankLine? t).map crlf := by
  have hsuffix := List.dropWhile_suffix (l := (t.takeWhile isWhite).reverse) (· != '\n')
  simp only [lastBlankLine?]
  rw [takeWhile_crlf isWhite_return, reverse_crlf, dropWhile_crlfBack_of_newline rfl]
  cases hkept : (t.takeWhile isWhite).reverse.dropWhile (· != '\n') with
  | nil => rfl
  | cons c k =>
    rw [hkept] at hsuffix
    obtain rfl : c = '\n' := by
      have hstop := stops_dropWhile (· != '\n') (t.takeWhile isWhite).reverse
      rw [hkept, stops_cons] at hstop
      simpa using hstop
    have hprefix : ('\n' :: k).reverse <+: t := by
      rw [← List.reverse_suffix, List.reverse_reverse]
      exact hsuffix.trans (List.reverse_suffix.mpr (List.takeWhile_prefix _))
    exact congrArg some (drop_crlfBack hprefix)

theorem aliased?_crlf (h : '\r' ∉ t) : aliased? (crlf t) = (aliased? t).map crlf := by
  have hstart : '\r' ∉ trimStart t := fun hmem ↦ h ((List.dropWhile_suffix _).subset hmem)
  have hbraces : ((braces? (trimStart t)).map crlf).bind closeAlias? =
      ((braces? (trimStart t)).bind closeAlias?).map crlf :=
    bind_map_of_forall fun r hr ↦
      closeAlias?_crlf fun hmem ↦ hstart ((braces?_suffix hr).subset hmem)
  rw [aliased?, trimStart_crlf, braces?_crlf, hbraces, closeAlias?_crlf hstart, lastBlankLine?_crlf,
    ← Option.map_or, ← Option.map_or, aliased?]

theorem alias?_crlf (h : '\r' ∉ t) : alias? (crlf t) = (alias? t).map crlf := by
  rw [alias?, skipModifiers_crlf, keyword?_crlf (by decide) (by decide), alias?]
  refine bind_map_of_forall fun r hr ↦ ?_
  rw [some?_crlf rfl]
  refine bind_map_of_forall fun u hu ↦ ?_
  have hparameters : aliasParameters? (crlf u) = (aliasParameters? u).map crlf :=
    angles?_crlf rfl rfl u
  rw [optionally_crlf hparameters, dropWhile_crlf rfl, word?_crlf (by decide) (by decide)]
  refine bind_map_of_forall fun v hv ↦ aliased?_crlf fun hmem ↦ h ?_
  exact ((word?_suffix hv).trans <| (List.dropWhile_suffix _).trans <|
    (optionally_suffix (fun h ↦ angles?_suffix h) u).trans <| (some?_suffix hu).trans <|
    (keyword?_suffix hr).trans (skipModifiers_suffix t)).subset hmem

/-! ## Removal -/

theorem isSteady_interfaceDeclaration : interfaceDeclaration.IsSteady id :=
  @Marker.isSteady_ofLine _ id _ (suffix_of_map interface?_suffix) fun h ↦ by
    rw [interface?_crlf h, Option.map_map, Option.map_map]
    rfl

theorem isSteady_aliasDeclaration : aliasDeclaration.IsSteady id :=
  @Marker.isSteady_ofLine _ id _ (suffix_of_map alias?_suffix) fun h ↦ by
    rw [alias?_crlf h, Option.map_map, Option.map_map]
    rfl

theorem eraseDeclarations_subset (t : Text) : eraseDeclarations t ⊆ t :=
  List.Subset.trans (Marker.erase_subset _ _) (Marker.erase_subset _ _)

theorem eraseDeclarations_crlf (h : '\r' ∉ t) :
    eraseDeclarations (crlf t) = crlf (eraseDeclarations t) := by
  rw [eraseDeclarations, isSteady_interfaceDeclaration.erase_crlf h,
    isSteady_aliasDeclaration.erase_crlf fun hmem ↦ h (Marker.erase_subset _ _ hmem),
    eraseDeclarations]

theorem isUnbroken_eraseDeclarations (h : IsUnbroken t) : IsUnbroken (eraseDeclarations t) :=
  isUnbroken_cutFrom isLinewise_aliasDeclaration
    (isUnbroken_cutFrom isLinewise_interfaceDeclaration h none) none

end TypeSyntax

end PluginPack
