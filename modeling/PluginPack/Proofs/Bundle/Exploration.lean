import Mathlib.Data.List.Nodup
import PluginPack.Proofs.Bundle.ModuleGraph
import PluginPack.Proofs.Bundle.Visit

/-!
# What a visit explores

The modules that a visit adds are new, complete, and closed under imports up to the modules visited
before. Started with nothing visited, a visit therefore adds exactly what its module reaches. A
visit that fails names a module that is reached and is not complete, so cycles are no reason to
fail.
-/

namespace PluginPack

open Text

/-! ## The invariant

The third alternative of `ordered` is that of a module whose visit had begun but was not over: it
comes later in the list, and the visit of the importing module was part of its own. -/

/-- The modules of a list are added, in its order, to those visited before. -/
structure ModuleStore.Extends (store : ModuleStore) (visited ms : List Path) : Prop where
  nodup : ms.Nodup
  isNew : ∀ m ∈ ms, m ∉ visited
  isComplete : ∀ m ∈ ms, store.IsComplete m
  ordered : ∀ m ∈ ms, ∀ d, store.Imports m d →
    d ∈ visited ∨ [d, m].Sublist ms ∨ d ∈ ms ∧ store.Reaches d m

namespace ModuleStore.Extends

variable {store : ModuleStore} {visited ms ms' : List Path} {file : Path}

theorem nil : store.Extends visited [] where
  nodup := List.nodup_nil
  isNew _ h := absurd h List.not_mem_nil
  isComplete _ h := absurd h List.not_mem_nil
  ordered _ h := absurd h List.not_mem_nil

/-- What an added module imports was visited before or is added as well. -/
theorem closed (h : store.Extends visited ms) {m d : Path} (hm : m ∈ ms)
    (himp : store.Imports m d) : d ∈ visited ∨ d ∈ ms := by
  rcases h.ordered m hm d himp with hd | hd | ⟨hd, -⟩
  · exact .inl hd
  · exact .inr (hd.subset List.mem_cons_self)
  · exact .inr hd

/-- One addition after the other. -/
theorem append (h : store.Extends visited ms) (h' : store.Extends (ms ++ visited) ms') :
    store.Extends visited (ms ++ ms') where
  nodup := by
    refine List.nodup_append'.mpr ⟨h.nodup, h'.nodup, fun m hm hm' ↦ ?_⟩
    exact h'.isNew m hm' (List.mem_append_left visited hm)
  isNew m hm := by
    rcases List.mem_append.mp hm with hm | hm
    · exact h.isNew m hm
    · exact fun hv ↦ h'.isNew m hm (List.mem_append_right ms hv)
  isComplete m hm := by
    rcases List.mem_append.mp hm with hm | hm
    · exact h.isComplete m hm
    · exact h'.isComplete m hm
  ordered m hm d himp := by
    rcases List.mem_append.mp hm with hm | hm
    · rcases h.ordered m hm d himp with hd | hd | ⟨hd, hreach⟩
      · exact .inl hd
      · exact .inr (.inl (hd.trans (List.sublist_append_left ms ms')))
      · exact .inr (.inr ⟨List.mem_append_left ms' hd, hreach⟩)
    · rcases h'.ordered m hm d himp with hd | hd | ⟨hd, hreach⟩
      · rcases List.mem_append.mp hd with hd | hd
        -- The import was added by the first addition, so it stands before the second one.
        · refine .inr (.inl ?_)
          exact (List.singleton_sublist.mpr hd).append (List.singleton_sublist.mpr hm)
        · exact .inl hd
      · exact .inr (.inl (hd.trans (List.sublist_append_right ms ms')))
      · exact .inr (.inr ⟨List.mem_append_right ms hd, hreach⟩)

/-- A module behind what it reaches. While its dependencies are visited the module counts as
visited, and what it imports is then visited or added. -/
theorem concat (h : store.Extends (file :: visited) ms) (hnew : file ∉ visited)
    (hcomplete : store.IsComplete file) (hreach : ∀ m ∈ ms, store.Reaches file m)
    (himports : ∀ d, store.Imports file d → d ∈ file :: visited ∨ d ∈ ms) :
    store.Extends visited (ms ++ [file]) where
  nodup := by
    refine List.nodup_append'.mpr ⟨h.nodup, List.nodup_singleton file, fun m hm hfile ↦ ?_⟩
    rw [List.mem_singleton.mp hfile] at hm
    exact h.isNew file hm List.mem_cons_self
  isNew m hm := by
    rcases List.mem_append.mp hm with hm | hm
    · exact fun hv ↦ h.isNew m hm (List.mem_cons_of_mem file hv)
    · rwa [List.mem_singleton.mp hm]
  isComplete m hm := by
    rcases List.mem_append.mp hm with hm | hm
    · exact h.isComplete m hm
    · rwa [List.mem_singleton.mp hm]
  ordered m hm d himp := by
    have hlast : file ∈ ms ++ [file] := List.mem_append_right ms List.mem_cons_self
    rcases List.mem_append.mp hm with hms | hms
    · rcases h.ordered m hms d himp with hd | hd | ⟨hd, hdm⟩
      · rcases List.mem_cons.mp hd with rfl | hd
        · exact .inr (.inr ⟨hlast, hreach m hms⟩)
        · exact .inl hd
      · exact .inr (.inl (hd.trans (List.sublist_append_left ms [file])))
      · exact .inr (.inr ⟨List.mem_append_left [file] hd, hdm⟩)
    · obtain rfl := List.mem_singleton.mp hms
      rcases himports d himp with hd | hd
      · rcases List.mem_cons.mp hd with rfl | hd
        · exact .inr (.inr ⟨hlast, .refl⟩)
        · exact .inl hd
      · exact .inr (.inl ((List.singleton_sublist.mpr hd).append (List.Sublist.refl [m])))

end ModuleStore.Extends

namespace Bundle

variable {store : ModuleStore} {missing e : BundleError} {path file importer : Path}
  {visited : List Path} {specifiers : List Text} {r : Inlined}

/-! ## Successful visits -/

/-- What the visit of a path adds: nothing if its module was visited before, and else modules that
this module reaches, the last one being the module itself. -/
structure Explores (store : ModuleStore) (path : Path) (visited ms : List Path) (file : Path) :
    Prop where
  resolves : ∃ content, store.resolve? path = some (file, content)
  adds : store.Extends visited ms
  reaches : ∀ m ∈ ms, store.Reaches file m
  isLast : file ∈ visited ∧ ms = [] ∨ ms.getLast? = some file

/-- What the visits for the specifiers of a module add: modules that are reached from the modules
which the specifiers stand for, these themselves unless they were visited before. -/
structure ExploresAll (store : ModuleStore) (importer : Path) (specifiers : List Text)
    (visited ms : List Path) : Prop where
  adds : store.Extends visited ms
  resolves : ∀ s ∈ specifiers, ∃ d content,
    store.resolve? (resolveImport importer s) = some (d, content) ∧ (d ∈ visited ∨ d ∈ ms)
  reaches : ∀ m ∈ ms, ∃ s ∈ specifiers, ∃ d content,
    store.resolve? (resolveImport importer s) = some (d, content) ∧ store.Reaches d m

theorem Explores.again {content : Content} (hfile : store.resolve? path = some (file, content))
    (hmem : file ∈ visited) : Explores store path visited [] file where
  resolves := ⟨content, hfile⟩
  adds := .nil
  reaches _ h := absurd h List.not_mem_nil
  isLast := .inl ⟨hmem, rfl⟩

/-- The visit of a new module, from the visits of its dependencies. -/
theorem ExploresAll.concat {source : Text} {ms : List Path}
    (h : ExploresAll store file (Script.detachLocal source).specifiers (file :: visited) ms)
    (hfile : store.resolve? path = some (file, .text source)) (hnew : file ∉ visited) :
    Explores store path visited (ms ++ [file]) file := by
  have hfind : store.find? file = some (.text source) := ModuleStore.find?_of_resolve? hfile
  have hspec : store.specifiers file = (Script.detachLocal source).specifiers :=
    ModuleStore.specifiers_of_text hfind
  have hreach : ∀ m ∈ ms, store.Reaches file m := by
    intro m hm
    obtain ⟨s, hs, d, content, hd, hdm⟩ := h.reaches m hm
    exact .head (.of_resolve? (hspec ▸ hs) hd) hdm
  have hcomplete : store.IsComplete file := by
    refine ⟨⟨source, hfind⟩, fun s hs ↦ ?_⟩
    obtain ⟨d, content, hd, -⟩ := h.resolves s (hspec ▸ hs)
    rw [hd, Option.isSome_some]
  have himports : ∀ d, store.Imports file d → d ∈ file :: visited ∨ d ∈ ms := by
    rintro d ⟨s, hs, content, hd⟩
    obtain ⟨d', content', hd', hmem⟩ := h.resolves s (hspec ▸ hs)
    rw [hd] at hd'
    obtain ⟨rfl, -⟩ := Prod.mk.inj (Option.some.inj hd')
    exact hmem
  refine ⟨⟨_, hfile⟩, h.adds.concat hnew hcomplete hreach himports, fun m hm ↦ ?_, .inr ?_⟩
  · rcases List.mem_append.mp hm with hm | hm
    · exact hreach m hm
    · obtain rfl := List.mem_singleton.mp hm
      exact .refl
  · exact List.getLast?_concat

theorem ExploresAll.nil : ExploresAll store importer [] visited [] where
  adds := .nil
  resolves _ h := absurd h List.not_mem_nil
  reaches _ h := absurd h List.not_mem_nil

/-- The visits for one more specifier. -/
theorem ExploresAll.cons {s : Text} {d : Path} {ms ms' : List Path}
    (h : Explores store (resolveImport importer s) visited ms d)
    (h' : ExploresAll store importer specifiers (ms ++ visited) ms') :
    ExploresAll store importer (s :: specifiers) visited (ms ++ ms') where
  adds := h.adds.append h'.adds
  resolves t ht := by
    rcases List.mem_cons.mp ht with rfl | ht
    · obtain ⟨content, hd⟩ := h.resolves
      refine ⟨d, content, hd, ?_⟩
      rcases h.isLast with ⟨hv, -⟩ | hlast
      · exact .inl hv
      · exact .inr (List.mem_append_left ms' (List.mem_of_getLast? hlast))
    · obtain ⟨d', content, hd', hmem⟩ := h'.resolves t ht
      refine ⟨d', content, hd', ?_⟩
      rcases hmem with hmem | hmem
      · rcases List.mem_append.mp hmem with hmem | hmem
        · exact .inr (List.mem_append_left ms' hmem)
        · exact .inl hmem
      · exact .inr (List.mem_append_right ms hmem)
  reaches m hm := by
    rcases List.mem_append.mp hm with hm | hm
    · obtain ⟨content, hd⟩ := h.resolves
      exact ⟨s, List.mem_cons_self, d, content, hd, h.reaches m hm⟩
    · obtain ⟨t, ht, d', content, hd', hreach⟩ := h'.reaches m hm
      exact ⟨t, List.mem_cons_of_mem s ht, d', content, hd', hreach⟩

theorem exists_explores_of_visit (h : visit store missing path visited = .ok r) :
    ∃ file, Explores store path visited r.modules file := by
  refine visit_ok_induction (P := fun path visited r ↦
      ∃ file, Explores store path visited r.modules file)
    (Q := fun importer specifiers visited r ↦
      ExploresAll store importer specifiers visited r.modules) ?_ ?_ ?_ ?_ h
  · intro path file visited content hfile hmem
    exact ⟨file, .again hfile hmem⟩
  · intro path file visited source below hfile hnew hbelow
    exact ⟨file, hbelow.concat hfile hnew⟩
  · exact .nil
  · rintro importer s specifiers visited first others ⟨d, hfirst⟩ hothers
    exact .cons hfirst hothers

/-! ## Failing visits -/

/-- The errors that tell of a reached module which is not complete. -/
inductive Fault (store : ModuleStore) (file : Path) : BundleError → Prop where
  | unresolved {m : Path} {s : Text} (hreach : store.Reaches file m)
      (hs : s ∈ store.specifiers m) (h : store.resolve? (resolveImport m s) = none) :
      Fault store file (.moduleNotFound s m)
  | unreadable {m : Path} {b : List UInt8} (hreach : store.Reaches file m)
      (h : store.find? m = some (.bytes b)) : Fault store file (.unreadable m .notUtf8)

/-- What is wrong behind an import is wrong behind the importing module. -/
theorem Fault.of_imports {d : Path} (himp : store.Imports file d) (h : Fault store d e) :
    Fault store file e := by
  rcases h with ⟨hreach, hs, h⟩ | ⟨hreach, h⟩
  · exact .unresolved (.head himp hreach) hs h
  · exact .unreadable (.head himp hreach) h

theorem Fault.exists_not_isComplete (h : Fault store file e) :
    ∃ m, store.Reaches file m ∧ ¬store.IsComplete m := by
  rcases h with @⟨m, s, hreach, hs, h⟩ | @⟨m, b, hreach, h⟩
  · refine ⟨m, hreach, fun hm ↦ ?_⟩
    have hsome := hm.resolves s hs
    rw [h] at hsome
    exact Bool.false_ne_true hsome
  · refine ⟨m, hreach, fun hm ↦ ?_⟩
    obtain ⟨t, ht⟩ := hm.isText
    rw [h] at ht
    exact absurd ht (by simp)

/-- A visit fails for no other reason than a path that leads to no module, or a module behind it
that is not complete. -/
theorem fault_of_visit (h : visit store missing path visited = .error e) :
    store.resolve? path = none ∧ e = missing ∨
      ∃ file content, store.resolve? path = some (file, content) ∧ Fault store file e := by
  refine visit.induct store
    (fun missing path visited ↦ visit store missing path visited = .error e →
      store.resolve? path = none ∧ e = missing ∨
        ∃ file content, store.resolve? path = some (file, content) ∧ Fault store file e)
    (fun importer specifiers visited ↦ visitAll store importer specifiers visited = .error e →
      ∃ s ∈ specifiers,
        store.resolve? (resolveImport importer s) = none ∧ e = .moduleNotFound s importer ∨
          ∃ d content, store.resolve? (resolveImport importer s) = some (d, content) ∧
            Fault store d e)
    ?_ ?_ ?_ ?_ ?_ ?_ missing path visited h
  · intro missing path visited hfile h
    rw [visit_of_unresolved hfile] at h
    exact .inl ⟨hfile, (Except.error.inj h).symm⟩
  · intro missing path visited file content hfile hmem h
    rw [visit_of_mem hfile hmem] at h
    exact absurd h (by simp)
  · intro missing path visited file hmem b hfile _ _ h
    rw [visit_of_bytes hfile hmem] at h
    obtain rfl := Except.error.inj h
    exact .inr ⟨file, .bytes b, hfile, .unreadable .refl (ModuleStore.find?_of_resolve? hfile)⟩
  · intro missing path visited file hmem source hfile _ _ ih h
    rw [visit_of_text hfile hmem, bind_ok_eq_error_iff] at h
    have hspec : store.specifiers file = (Script.detachLocal source).specifiers :=
      ModuleStore.specifiers_of_text (ModuleStore.find?_of_resolve? hfile)
    refine .inr ⟨file, .text source, hfile, ?_⟩
    obtain ⟨s, hs, hfault⟩ := ih h
    rw [← hspec] at hs
    -- Either the specifier leads nowhere, or the fault lies behind the module that it leads to.
    rcases hfault with ⟨hnone, rfl⟩ | ⟨d, content, hd, hfault⟩
    · exact .unresolved .refl hs hnone
    · exact hfault.of_imports (.of_resolve? hs hd)
  · intro importer visited h
    rw [visitAll] at h
    exact absurd h (by simp)
  · intro importer visited specifier specifiers ihfirst ihothers h
    rcases visitAll_cons_eq_error_iff.mp h with h | ⟨first, -, h⟩
    · exact ⟨specifier, List.mem_cons_self, ihfirst h⟩
    · obtain ⟨s, hs, hfault⟩ := ihothers first h
      exact ⟨s, List.mem_cons_of_mem specifier hs, hfault⟩

/-! ## Bundles -/

/-- What is known of the modules of a bundle: the entry module leads to a file, and a visit with
nothing visited before explores it. -/
theorem exists_explores_of_make {root entry : Path} {b : Bundle}
    (h : make store root entry = .ok b) :
    ∃ file, Explores store (root.join entry).normalize [] b.modules file := by
  obtain ⟨all, hall, rfl⟩ := make_eq_ok_iff.mp h
  exact exists_explores_of_visit hall

theorem Explores.getLast? {ms : List Path} (h : Explores store path [] ms file) :
    ms.getLast? = some file :=
  h.isLast.resolve_left fun hmem ↦ List.not_mem_nil hmem.1

/-- What a module of a bundle names is in the bundle. -/
theorem exists_imported_of_mem {root entry m : Path} {b : Bundle} {s : Text}
    (h : make store root entry = .ok b) (hm : m ∈ b.modules) (hs : s ∈ store.specifiers m) :
    ∃ d content, store.resolve? (resolveImport m s) = some (d, content) ∧ d ∈ b.modules := by
  obtain ⟨file, hexp⟩ := exists_explores_of_make h
  obtain ⟨⟨d, content⟩, hd⟩ :=
    Option.isSome_iff_exists.mp ((hexp.adds.isComplete m hm).resolves s hs)
  have himp : store.Imports m d := .of_resolve? hs hd
  exact ⟨d, content, hd, (hexp.adds.closed hm himp).resolve_left List.not_mem_nil⟩

/-- With nothing visited before, a visit adds all that is reached. -/
theorem Explores.mem_iff {ms : List Path} (h : Explores store path [] ms file) {m : Path} :
    m ∈ ms ↔ store.Reaches file m := by
  refine ⟨h.reaches m, fun hreach ↦ ?_⟩
  refine hreach.mem_of_closed (List.mem_of_getLast? h.getLast?) fun x hx y himp ↦ ?_
  exact (h.adds.closed hx himp).resolve_left List.not_mem_nil

/-- **Which bundles can be made, and of what.** A bundle can be made exactly where the entry leads
to a module and all modules reached from it are complete. It is then made of these modules, each
once, the entry module being the last one. Otherwise the error is that of an entry that leads
nowhere, or it tells of a reached module that is not complete. -/
theorem make_ok_iff_reached_complete (store : ModuleStore) (root entry : Path) :
    ((∃ b, make store root entry = .ok b) ↔
        ∃ file content, store.resolve? (root.join entry).normalize = some (file, content) ∧
          ∀ m, store.Reaches file m → store.IsComplete m) ∧
      (∀ b, make store root entry = .ok b →
        ∃ file content, store.resolve? (root.join entry).normalize = some (file, content) ∧
          b.modules.Nodup ∧ (∀ m, m ∈ b.modules ↔ store.Reaches file m) ∧
          b.modules.getLast? = some file) ∧
      ∀ e, make store root entry = .error e →
        store.resolve? (root.join entry).normalize = none ∧
            e = .entryNotFound (root.join entry).normalize ∨
          ∃ file content, store.resolve? (root.join entry).normalize = some (file, content) ∧
            Fault store file e := by
  have hfault : ∀ e, make store root entry = .error e →
      store.resolve? (root.join entry).normalize = none ∧
          e = .entryNotFound (root.join entry).normalize ∨
        ∃ file content, store.resolve? (root.join entry).normalize = some (file, content) ∧
          Fault store file e :=
    fun e he ↦ fault_of_visit (make_eq_error_iff.mp he)
  refine ⟨⟨?_, ?_⟩, ?_, hfault⟩
  · rintro ⟨b, hb⟩
    obtain ⟨file, hexp⟩ := exists_explores_of_make hb
    obtain ⟨content, hfile⟩ := hexp.resolves
    exact ⟨file, content, hfile, fun m hm ↦ hexp.adds.isComplete m (hexp.mem_iff.mpr hm)⟩
  · rintro ⟨file, content, hfile, hcomplete⟩
    cases hmake : make store root entry with
    | ok b => exact ⟨b, rfl⟩
    | error e =>
      rcases hfault e hmake with ⟨hnone, -⟩ | ⟨file', content', hfile', hfault⟩
      · rw [hfile] at hnone
        exact absurd hnone (by simp)
      · rw [hfile] at hfile'
        obtain ⟨rfl, rfl⟩ := Prod.mk.inj (Option.some.inj hfile')
        obtain ⟨m, hreach, hm⟩ := hfault.exists_not_isComplete
        exact absurd (hcomplete m hreach) hm
  · intro b hb
    obtain ⟨file, hexp⟩ := exists_explores_of_make hb
    obtain ⟨content, hfile⟩ := hexp.resolves
    exact ⟨file, content, hfile, hexp.adds.nodup, fun _ ↦ hexp.mem_iff, hexp.getLast?⟩

/-! ## A cycle -/

/-- Two modules that name each other. -/
def cycle : ModuleStore :=
  .ofList [(⟨"a.js".toList⟩, .text "import './b'\nexport const a = 1".toList),
    (⟨"b.js".toList⟩, .text "import './a'\nexport const b = 2".toList)]

/-- A cycle of modules makes a bundle, with the entry module at the end. -/
theorem make_cycle :
    make cycle ⟨['.']⟩ ⟨"a.js".toList⟩ = .ok
      { code := "const b = 2\nconst a = 1".toList
        isTyped := false
        modules := [⟨"b.js".toList⟩, ⟨"a.js".toList⟩] } := by
  have ha : Script.detachLocal "import './b'\nexport const a = 1".toList
      = ⟨["./b".toList], "export const a = 1".toList⟩ := by decide +kernel
  have hb : Script.detachLocal "import './a'\nexport const b = 2".toList
      = ⟨["./a".toList], "export const b = 2".toList⟩ := by decide +kernel
  have hfileA : cycle.resolve? ((⟨['.']⟩ : Path).join ⟨"a.js".toList⟩).normalize
      = some (⟨"a.js".toList⟩, .text "import './b'\nexport const a = 1".toList) := rfl
  have hfileB : cycle.resolve? (resolveImport ⟨"a.js".toList⟩ "./b".toList)
      = some (⟨"b.js".toList⟩, .text "import './a'\nexport const b = 2".toList) := rfl
  have hback : cycle.resolve? (resolveImport ⟨"b.js".toList⟩ "./a".toList)
      = some (⟨"a.js".toList⟩, .text "import './b'\nexport const a = 1".toList) := rfl
  refine make_eq_ok_iff.mpr
    ⟨⟨"\nconst b = 2\nconst a = 1".toList, [⟨"b.js".toList⟩, ⟨"a.js".toList⟩]⟩, ?_, by decide⟩
  rw [visit_of_text hfileA List.not_mem_nil, ha, bind_eq_ok_iff]
  refine ⟨⟨"\nconst b = 2\n".toList, [⟨"b.js".toList⟩]⟩, ?_, by decide +kernel⟩
  refine visitAll_cons_eq_ok_iff.mpr
    ⟨⟨"\nconst b = 2".toList, [⟨"b.js".toList⟩]⟩, ?_, ⟨[], []⟩, visitAll.eq_1 .., by decide⟩
  rw [visit_of_text hfileB (by decide), hb, bind_eq_ok_iff]
  refine ⟨⟨['\n'], []⟩, ?_, by decide +kernel⟩
  refine visitAll_cons_eq_ok_iff.mpr ⟨⟨[], []⟩, ?_, ⟨[], []⟩, visitAll.eq_1 .., rfl⟩
  exact visit_of_mem hback (by decide)

end Bundle

end PluginPack
