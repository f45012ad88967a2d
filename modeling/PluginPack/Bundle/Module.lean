import PluginPack.FileSystem.Basic

/-!
# Modules

Where the modules of a project come from, and how the path of a module is found from the place
that names it.
-/

namespace PluginPack

/-- The regular files that modules are read from, each found under its paths. There are finitely
many such paths. -/
structure ModuleStore where
  /-- The content of the file that a path leads to. -/
  find? : Path → Option Content
  finite : ∃ paths : List Path, ∀ p, (find? p).isSome → p ∈ paths

/-- The store of the files of a list, each under one path. -/
def ModuleStore.ofList (files : List (Path × Content)) : ModuleStore where
  find? p := files.lookup p
  finite := ⟨files.map (·.1), fun p h ↦ by
    obtain ⟨c, hc⟩ := Option.isSome_iff_exists.mp h
    obtain ⟨before, behind, rfl, -⟩ := List.lookup_eq_some_iff.mp hc
    simp⟩

/-- The regular files of a file system. The number of paths to them is finite because a path has a
greatest length. -/
def FileSystem.moduleStore (fs : FileSystem) : ModuleStore where
  find? := fs.fileAt?
  finite := by
    obtain ⟨texts, htexts⟩ := Text.exists_forall_mem_of_length_le FileSystem.maxPathBytes
    refine ⟨texts.map Path.mk, fun p h ↦ ?_⟩
    exact List.mem_map.mpr ⟨p.text, htexts p.text (FileSystem.length_le_of_fileAt? h), rfl⟩

namespace ModuleStore

/-- The endings under which a module is looked for, in this order. -/
def extensions : List Text := [[], ".js".toList, ".ts".toList]

/-- The first file among a path as it is and the path with an extension written behind it. -/
def resolve? (store : ModuleStore) (p : Path) : Option (Path × Content) :=
  extensions.findSome? fun e ↦ (store.find? (p.append e)).map (p.append e, ·)

theorem find?_of_resolve? {store : ModuleStore} {p file : Path} {content : Content}
    (h : store.resolve? p = some (file, content)) : store.find? file = some content := by
  obtain ⟨before, e, behind, -, he, -⟩ := List.findSome?_eq_some_iff.mp h
  obtain ⟨c, hc, heq⟩ := Option.map_eq_some_iff.mp he
  obtain ⟨rfl, rfl⟩ := Prod.mk.inj heq
  exact hc

/-! ## Files that are left -/

/-- The number of paths that lead to files and are not in a list. -/
noncomputable def unvisited (store : ModuleStore) (visited : List Path) : Nat :=
  store.finite.choose.countP (· ∉ visited)

theorem unvisited_append_le (store : ModuleStore) (ps visited : List Path) :
    store.unvisited (ps ++ visited) ≤ store.unvisited visited := by
  refine List.countP_mono_left fun p _ hp ↦ ?_
  rw [decide_eq_true_eq] at hp ⊢
  exact fun h ↦ hp (List.mem_append_right ps h)

/-- A file that is new to the list leaves fewer behind. -/
theorem unvisited_cons_lt {store : ModuleStore} {visited : List Path} {p file : Path}
    {content : Content} (hfile : store.resolve? p = some (file, content))
    (hnew : file ∉ visited) : store.unvisited (file :: visited) < store.unvisited visited := by
  have hsome : (store.find? file).isSome := by rw [find?_of_resolve? hfile, Option.isSome_some]
  have hmem : file ∈ store.finite.choose.filter (· ∉ visited) :=
    List.mem_filter.mpr ⟨store.finite.choose_spec file hsome, decide_eq_true hnew⟩
  have hsplit : store.finite.choose.filter (· ∉ file :: visited)
      = (store.finite.choose.filter (· ∉ visited)).filter (· ≠ file) := by
    rw [List.filter_filter]
    refine List.filter_congr fun q _ ↦ ?_
    simp [not_or]
  rw [unvisited, unvisited, List.countP_eq_length_filter, List.countP_eq_length_filter, hsplit]
  exact List.length_filter_lt_length_iff_exists.mpr ⟨file, hmem, by simp⟩

end ModuleStore

/-- The path that a specifier in the module at `importer` stands for. -/
def resolveImport (importer : Path) (specifier : Text) : Path :=
  (((importer.parent?).getD ⟨[]⟩).join ⟨specifier⟩).normalize

end PluginPack
