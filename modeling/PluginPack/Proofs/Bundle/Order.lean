import PluginPack.Proofs.Bundle.Exploration

/-!
# The order of the modules

The modules of a bundle stand in the order in which their visits end. A dependency that was visited
before is either over, and then stands earlier, or it is still being visited, and then the importing
module is visited on its behalf. So a dependency stands behind its importer only on a cycle.
-/

namespace PluginPack.Bundle

variable {store : ModuleStore} {root entry : Path} {b : Bundle}

/-- In a list without repetitions the order of two members is that of their positions. -/
theorem idxOf_lt_idxOf_of_pair_sublist {α : Type} [DecidableEq α] {l : List α} {x y : α}
    (hl : l.Nodup) (h : [x, y].Sublist l) : l.idxOf x < l.idxOf y := by
  induction l with
  | nil => exact absurd (List.sublist_nil.mp h) (List.cons_ne_nil x [y])
  | cons a l ih =>
    obtain ⟨ha, hl⟩ := List.nodup_cons.mp hl
    have hne : ∀ {z}, z ∈ l → a ≠ z := fun hz haz ↦ ha (haz ▸ hz)
    rcases List.sublist_cons_iff.mp h with h | ⟨r, hr, h⟩
    · have hx : x ∈ l := h.subset List.mem_cons_self
      have hy : y ∈ l := h.subset (List.mem_cons_of_mem x List.mem_cons_self)
      rw [List.idxOf_cons_ne l (hne hx), List.idxOf_cons_ne l (hne hy)]
      exact Nat.succ_lt_succ (ih hl h)
    · obtain ⟨rfl, rfl⟩ := List.cons.inj hr
      have hy : y ∈ l := List.singleton_sublist.mp h
      rw [List.idxOf_cons_self, List.idxOf_cons_ne l (hne hy)]
      exact Nat.succ_pos _

theorem idxOf_lt_or_reaches_of_imports (h : make store root entry = .ok b) {m d : Path}
    (hm : m ∈ b.modules) (himp : store.Imports m d) :
    b.modules.idxOf d < b.modules.idxOf m ∨ store.Reaches d m := by
  obtain ⟨file, hexp⟩ := exists_explores_of_make h
  rcases hexp.adds.ordered m hm d himp with hd | hd | ⟨-, hd⟩
  · exact absurd hd List.not_mem_nil
  · exact .inl (idxOf_lt_idxOf_of_pair_sublist hexp.adds.nodup hd)
  · exact .inr hd

/-- **Dependencies come first.** What a module of a bundle imports stands before it, unless the two
are on a common cycle. Where no module of the bundle is on a cycle, every module stands behind all
that it imports. -/
theorem modules_dependencies_first (h : make store root entry = .ok b) :
    (∀ m ∈ b.modules, ∀ d, store.Imports m d →
        b.modules.idxOf d < b.modules.idxOf m ∨ store.Reaches d m) ∧
      ((∀ m ∈ b.modules, ¬Relation.TransGen store.Imports m m) →
        ∀ m ∈ b.modules, ∀ d, store.Imports m d →
          d ∈ b.modules ∧ b.modules.idxOf d < b.modules.idxOf m) := by
  refine ⟨fun m hm d himp ↦ idxOf_lt_or_reaches_of_imports h hm himp, ?_⟩
  intro hacyclic m hm d himp
  have hlt : b.modules.idxOf d < b.modules.idxOf m := by
    refine (idxOf_lt_or_reaches_of_imports h hm himp).resolve_right fun hreach ↦ ?_
    -- The import and the way back are a cycle.
    exact hacyclic m hm (.head' himp hreach)
  refine ⟨List.idxOf_lt_length_iff.mp (Nat.lt_trans hlt ?_), hlt⟩
  exact List.idxOf_lt_length_iff.mpr hm

/-- On a cycle of two modules, the entry module stands behind the module that it imports, and is
reached from it. -/
theorem modules_dependencies_first_cycle :
    make cycle ⟨['.']⟩ ⟨"a.js".toList⟩ = .ok
        { code := "const b = 2\nconst a = 1".toList
          isTyped := false
          modules := [⟨"b.js".toList⟩, ⟨"a.js".toList⟩] } ∧
      ∀ m ∈ [(⟨"b.js".toList⟩ : Path), ⟨"a.js".toList⟩], ∀ d, cycle.Imports m d →
        [(⟨"b.js".toList⟩ : Path), ⟨"a.js".toList⟩].idxOf d
            < [(⟨"b.js".toList⟩ : Path), ⟨"a.js".toList⟩].idxOf m ∨
          cycle.Reaches d m :=
  ⟨make_cycle, (modules_dependencies_first make_cycle).1⟩

end PluginPack.Bundle
