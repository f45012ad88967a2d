import PluginPack.Proofs.Scaffold.Confinement

/-!
# Which paths are let through

A path that is let through goes up at most once, at its end. Behind a name such a step only takes
the name back, so that the way along the path keeps to the directory where it begins. Where nothing
but dots and doubled slashes stand before the step, the way leaves that directory, and the path is
let through nevertheless.
-/

namespace PluginPack

open Text PluginPack.Path FileSystem

namespace Scaffold

variable {W : Location} {d t : Text} {pieces : List Text}

/-- Pieces that are neither names nor steps up lead nowhere. -/
theorem foldl_move_of_no_name (hup : ['.', '.'] ∉ pieces) (h : ∀ n ∈ pieces, ¬IsName n)
    (W : Location) : pieces.foldl move W = W := by
  induction pieces with
  | nil => rfl
  | cons piece pieces ih =>
    have hpiece : piece = [] ∨ piece = ['.'] := by
      by_contra hne
      obtain ⟨hnil, hhere⟩ := not_or.mp hne
      exact h piece List.mem_cons_self ⟨hnil, hhere, fun heq ↦ hup (heq ▸ List.mem_cons_self)⟩
    rw [List.foldl_cons, move, if_pos hpiece]
    exact ih (fun hmem ↦ hup (List.mem_cons_of_mem piece hmem))
      fun n hn ↦ h n (List.mem_cons_of_mem piece hn)

/-- A step up behind no name leaves every place but the root. -/
theorem not_keeps_up (hup : ['.', '.'] ∉ pieces) (h : ∀ n ∈ pieces, ¬IsName n) (hW : W ≠ []) :
    ¬Keeps W (pieces ++ [['.', '.']]) := by
  intro hkeeps
  have hlast := hkeeps _ (List.prefix_refl _)
  rw [List.foldl_append, foldl_move_of_no_name hup h] at hlast
  have hlength : W.length ≤ W.dropLast.length := hlast.length_le
  have hpos := List.length_pos_iff.mpr hW
  rw [List.length_dropLast] at hlength
  omega

/-- **What is let through goes up at the end only.** The way along a path that is let through, from
any directory but the root, keeps to that directory unless the path ends in a step up with no name
before it, and then it leaves the directory. -/
theorem validatePath_keeps_iff (hvalid : validatePath d = .ok t) (hW : W ≠ []) :
    t = slashed d ∧ ['.', '.'] ∉ (splitSlashes t).dropLast ∧
      (Keeps W (splitSlashes t) ↔
        ((splitSlashes t).getLast? = some ['.', '.'] → ∃ n ∈ splitSlashes t, IsName n)) := by
  obtain ⟨init, last, hlast⟩ : ∃ init last, splitSlashes t = init ++ [last] := by
    rcases List.eq_nil_or_concat (splitSlashes t) with hnil | ⟨init, last, hlast⟩
    · exact absurd hnil (splitSlashes_ne_nil t)
    · exact ⟨init, last, by rw [hlast, List.concat_eq_append]⟩
  have hinit := up_not_mem_of_validatePath hvalid hlast
  refine ⟨eq_slashed_of_validatePath hvalid, ?_, ?_⟩
  · rw [hlast, List.dropLast_concat]
    exact hinit
  · rw [hlast, List.getLast?_concat, Option.some_inj]
    constructor
    · rintro hkeeps rfl
      by_contra hname
      exact not_keeps_up hinit (fun n hn hmem ↦ hname ⟨n, List.mem_append_left _ hn, hmem⟩) hW
        hkeeps
    · intro hname
      by_cases hup : last = ['.', '.']
      · obtain ⟨n, hmem, hn⟩ := hname hup
        subst hup
        rcases List.mem_append.mp hmem with hmem | hmem
        · exact keeps_up hinit hn hmem List.not_mem_nil W
        · exact absurd (List.mem_singleton.mp hmem) hn.2.2
      · refine keeps_of_not_mem (fun hmem ↦ ?_) W
        rcases List.mem_append.mp hmem with hmem | hmem
        · exact hinit hmem
        · exact hup (List.mem_singleton.mp hmem).symm

/-- A step up behind a name, with doubled slashes and a dot between them. -/
theorem validatePath_keeps_iff_doubled :
    (validatePath "a\\.//..".toList = .ok "a/.//..".toList ∧ ["w".toList] ≠ []) ∧
      Keeps ["w".toList] (splitSlashes "a/.//..".toList) := by
  have hvalid : validatePath "a\\.//..".toList = .ok "a/.//..".toList := by decide
  have hroot : ["w".toList] ≠ [] := by decide
  exact ⟨⟨hvalid, hroot⟩,
    (validatePath_keeps_iff hvalid hroot).2.2.mpr fun _ ↦ ⟨"a".toList, by decide, by decide⟩⟩

/-- A path that begins with a dot is let through and leads to the directory above. -/
theorem not_forall_keeps : ¬∀ (d t : Text) (W : Location),
    (⟨d⟩ : Path).isAbsolute = false → validatePath d = .ok t → Keeps W (splitSlashes t) := by
  intro h
  have hkeeps := h "./..".toList "./..".toList ["w".toList] (by decide) (by decide)
  exact absurd (hkeeps _ (List.prefix_refl _)) (by decide)

end Scaffold

end PluginPack
