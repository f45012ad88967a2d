import PluginPack.Proofs.Build.Effect
import PluginPack.Proofs.Bundle.ModuleGraph

/-!
# Building again

A build that runs on what an earlier one has left gives the same script, as long as the script does
not get in the way of what is read. The script may be none of the modules, and it may be none of the
files that were looked for in vain before a module was found: a specifier without an extension finds
the script of an earlier build ahead of a typed module of the same name.

New directories do not matter. All paths that are looked for are normal, so they lead through no
directory that they leave again, and every directory on the way to a file was there before.
-/

namespace PluginPack

open Text FileSystem PluginPack.Path

/-! ## Files that were looked for in vain -/

namespace ModuleStore

variable {store store' : ModuleStore} {p file : Path} {content : Content}

/-- The files that are looked for in vain before a path leads to a module. -/
def passedOver (store : ModuleStore) (p : Path) : List Path :=
  (extensions.map p.append).takeWhile fun c ↦ (store.find? c).isNone

/-- A path leads to the same module where that module is found and nothing is found before it. -/
theorem resolve?_congr (h : store.resolve? p = some (file, content))
    (hmissing : ∀ c ∈ store.passedOver p, store'.find? c = none)
    (hfile : store'.find? file = some content) : store'.resolve? p = some (file, content) := by
  obtain ⟨before, e, behind, hsplit, he, hbefore⟩ := List.findSome?_eq_some_iff.mp h
  obtain ⟨c, hc, heq⟩ := Option.map_eq_some_iff.mp he
  obtain ⟨rfl, rfl⟩ := Prod.mk.inj heq
  refine List.findSome?_eq_some_iff.mpr ⟨before, e, behind, hsplit, ?_, fun x hx ↦ ?_⟩
  · rw [hfile, Option.map_some]
  · have hpassed : p.append x ∈ store.passedOver p := by
      rw [passedOver, hsplit, List.map_append, List.takeWhile_append_of_pos]
      · exact List.mem_append_left _ (List.mem_map_of_mem hx)
      · rintro _ hmem
        obtain ⟨y, hy, rfl⟩ := List.mem_map.mp hmem
        rw [Option.isNone_iff_eq_none, ← Option.map_eq_none_iff]
        exact hbefore y hy
    rw [hmissing _ hpassed, Option.map_none]

end ModuleStore

/-! ## What a bundle asks for -/

namespace Bundle

variable {store store' : ModuleStore} {missing : BundleError} {path : Path} {visited : List Path}
  {r : Inlined}

/-- The paths that are resolved for a bundle of modules: the one of the entry module, and those that
specifiers in the modules stand for. -/
def Asks (store : ModuleStore) (path : Path) (modules : List Path) (p : Path) : Prop :=
  p = path ∨ ∃ m ∈ modules, ∃ s ∈ store.specifiers m, p = resolveImport m s

/-- A visit depends on the store only through the paths that it asks for. -/
theorem visit_congr (h : visit store missing path visited = .ok r)
    (hasked : ∀ p, Asks store path r.modules p → store'.resolve? p = store.resolve? p) :
    visit store' missing path visited = .ok r := by
  have hall : ∀ missing, visit store' missing path visited = .ok r := by
    refine visit_ok_induction
      (P := fun path visited r ↦ (∀ p, Asks store path r.modules p →
        store'.resolve? p = store.resolve? p) →
          ∀ missing, visit store' missing path visited = .ok r)
      (Q := fun importer specifiers visited r ↦
        (∀ s ∈ specifiers, store'.resolve? (resolveImport importer s) =
          store.resolve? (resolveImport importer s)) →
        (∀ m ∈ r.modules, ∀ s ∈ store.specifiers m, store'.resolve? (resolveImport m s) =
          store.resolve? (resolveImport m s)) →
        visitAll store' importer specifiers visited = .ok r)
      ?_ ?_ ?_ ?_ h hasked
    · intro path file visited content hfile hmem hasked missing
      exact visit_of_mem ((hasked path (.inl rfl)).trans hfile) hmem
    · intro path file visited source below hfile hnew ih hasked missing
      have hspecifiers := ModuleStore.specifiers_of_text (ModuleStore.find?_of_resolve? hfile)
      have hbelow := ih
        (fun s hs ↦ hasked _ (.inr ⟨file, List.mem_append_right _ List.mem_cons_self, s,
          hspecifiers ▸ hs, rfl⟩))
        (fun m hm s hs ↦ hasked _ (.inr ⟨m, List.mem_append_left _ hm, s, hs, rfl⟩))
      rw [visit_of_text ((hasked path (.inl rfl)).trans hfile) hnew, hbelow]
      rfl
    · intro importer visited _ _
      rw [visitAll]
    · intro importer specifier specifiers visited first others ihfirst ihothers hspecifiers hmodules
      refine visitAll_cons_eq_ok_iff.mpr ⟨first, ihfirst ?_ _, others, ihothers ?_ ?_, rfl⟩
      · rintro p (rfl | ⟨m, hm, s, hs, rfl⟩)
        · exact hspecifiers specifier List.mem_cons_self
        · exact hmodules m (List.mem_append_left _ hm) s hs
      · exact fun s hs ↦ hspecifiers s (List.mem_cons_of_mem specifier hs)
      · exact fun m hm ↦ hmodules m (List.mem_append_right _ hm)
  exact hall missing

/-- A bundle depends on the store only through the paths that it asks for. -/
theorem make_congr {root entry : Path} {b : Bundle} (h : make store root entry = .ok b)
    (hasked : ∀ p, Asks store (root.join entry).normalize b.modules p →
      store'.resolve? p = store.resolve? p) : make store' root entry = .ok b := by
  obtain ⟨all, hall, rfl⟩ := make_eq_ok_iff.mp h
  exact make_eq_ok_iff.mpr ⟨all, visit_congr hall hasked, rfl⟩

/-- All that a bundle asks for leads to its modules. -/
theorem exists_resolve?_of_asks {root entry p : Path} {b : Bundle}
    (h : make store root entry = .ok b)
    (hp : Asks store (root.join entry).normalize b.modules p) :
    ∃ file content, store.resolve? p = some (file, content) ∧ file ∈ b.modules := by
  obtain ⟨file, hexplores⟩ := exists_explores_of_make h
  rcases hp with rfl | ⟨m, hm, s, hs, rfl⟩
  · obtain ⟨content, hfile⟩ := hexplores.resolves
    exact ⟨file, content, hfile, List.mem_of_getLast? hexplores.getLast?⟩
  · have hresolves := (hexplores.adds.isComplete m hm).resolves s hs
    obtain ⟨⟨d, content⟩, hd⟩ := Option.isSome_iff_exists.mp hresolves
    have himports := hexplores.adds.closed hm (.of_resolve? hs hd)
    exact ⟨d, content, hd, himports.resolve_left List.not_mem_nil⟩

end Bundle

/-! ## The file system that a build leaves -/

namespace FileSystem

variable {fs fs' : FileSystem} {loc l O : Location} {n : Node} {p dir : Path} {c : Content}
  {pieces : List Text}

/-- What a build does to a file system, with `O` as the place of the script: directories may be
new, and of the regular files only the one at `O` may be another. -/
structure Rewrites (O : Location) (fs fs' : FileSystem) : Prop where
  working : fs'.workingDirectory = fs.workingDirectory
  dirs : ∀ l, fs.node? l = some .dir → fs'.node? l = some .dir
  files : Build.SameFilesBut (some O) fs fs'

/-- A path that goes up first and then only down can be followed wherever its end can be reached in
a larger file system. -/
theorem follow_of_isDirect (htree : fs.IsTree) (hdirect : IsDirect pieces)
    (hloc : fs.node? loc = some .dir) (h : fs'.follow loc pieces = .ok l)
    (hnode : fs.node? l = some n) (hnode' : fs'.node? l = some n) :
    fs.follow loc pieces = .ok l := by
  induction hdirect generalizing loc with
  | up _ ih =>
    rw [follow_cons] at h ⊢
    obtain ⟨loc', hstep, hrest⟩ := Bundle.bind_eq_ok_iff.mp h
    obtain ⟨-, hlength, rfl⟩ := step_eq_ok_iff.mp hstep
    have hup : fs.node? (move loc ['.', '.']) = some .dir := htree.node?_dropLast hloc
    exact Bundle.bind_eq_ok_iff.mpr
      ⟨_, step_eq_ok_iff.mpr ⟨hloc, hlength, rfl⟩, ih hup hrest⟩
  | @down pieces hpieces =>
    obtain ⟨rfl, hway⟩ := follow_eq_ok_iff.mp h
    refine follow_eq_ok_iff.mpr ⟨rfl, fun pre piece hpre ↦ ⟨?_, (hway pre piece hpre).2⟩⟩
    -- The place is on the way to the end, hence a directory as soon as something is further on.
    obtain ⟨rest, hrest⟩ := hpre
    have hdown : ['.', '.'] ∉ piece :: rest := fun hmem ↦ hpieces <| by
      rw [← hrest, List.append_assoc]
      exact List.mem_append_right pre hmem
    obtain ⟨below, hbelow⟩ := prefix_foldl_move hdown (pre.foldl move loc)
    have hend : pieces.foldl move loc = pre.foldl move loc ++ below := by
      rw [hbelow, ← hrest, List.append_assoc, List.foldl_append]
      rfl
    by_cases hnil : below = []
    · rw [hend, hnil, List.append_nil] at hnode hnode'
      rw [hnode, ← hnode', (hway pre piece ⟨rest, hrest⟩).1]
    · rw [hend] at hnode
      exact htree.node?_of_append hnode hnil

namespace Rewrites

/-- Another file than the script is read as before. -/
theorem fileAt?_eq_some (h : Rewrites O fs fs') (hp : fs.fileAt? p = some c)
    (hO : fs.place p ≠ O) : fs'.fileAt? p = some c := by
  have hlocate := fileAt?_eq_some_iff.mp hp
  have hnode := (h.files _ c fun heq ↦ hO (Option.some.inj heq)).mpr (locate_place hlocate)
  rw [fileAt?, locate_mono hlocate h.working h.dirs hnode]

/-- What was missing under a normal path is still missing, if it is not the script. -/
theorem fileAt?_eq_none (h : Rewrites O fs fs') (htree : fs.IsTree)
    (hdirect : IsDirect (splitSlashes p.text)) (hp : fs.fileAt? p = none)
    (hO : fs.place p ≠ O) : fs'.fileAt? p = none := by
  refine Option.eq_none_iff_forall_not_mem.mpr fun c hc ↦ ?_
  have hlocate := fileAt?_eq_some_iff.mp hc
  obtain ⟨hcheck, hfollow, hnode'⟩ := locate_eq_ok_iff.mp hlocate
  rw [place_congr h.working] at hfollow hnode'
  rw [start_congr h.working] at hfollow
  have hnode := (h.files _ c fun heq ↦ hO (Option.some.inj heq)).mp hnode'
  have hstart : fs.node? (fs.start p) = some .dir := by
    rw [start]
    split_ifs
    · exact node?_nil fs
    · exact htree.working
  have hfound := follow_of_isDirect htree hdirect hstart hfollow hnode hnode'
  rw [fileAt?_eq_some_iff.mpr (locate_eq_ok_iff.mpr ⟨hcheck, hfound, hnode⟩)] at hp
  cases hp

/-- A normal path leads to the same module as before, if the script is neither that module nor one
of the files looked for before it. -/
theorem resolve?_eq (h : Rewrites O fs fs') (htree : fs.IsTree) {q file : Path}
    (hfile : fs.moduleStore.resolve? q.normalize = some (file, c)) (hO : fs.place file ≠ O)
    (hpassed : ∀ c ∈ fs.moduleStore.passedOver q.normalize, fs.place c ≠ O) :
    fs'.moduleStore.resolve? q.normalize = some (file, c) := by
  refine ModuleStore.resolve?_congr hfile (fun p hp ↦ ?_)
    (h.fileAt?_eq_some (ModuleStore.find?_of_resolve? hfile) hO)
  have hnone : fs.fileAt? p = none :=
    Option.isNone_iff_eq_none.mp (List.all_eq_true.mp List.all_takeWhile p hp)
  refine h.fileAt?_eq_none htree ?_ hnone (hpassed p hp)
  obtain ⟨e, he, rfl⟩ := List.mem_map.mp (List.takeWhile_subset _ hp)
  simp only [ModuleStore.extensions, List.mem_cons, List.not_mem_nil, or_false] at he
  rcases he with rfl | rfl | rfl
  · rw [append, List.append_nil]
    exact isDirect_normalize q
  · exact isDirect_normalize_append q (by decide) (by decide)
  · exact isDirect_normalize_append q (by decide) (by decide)

end Rewrites

/-- A path that leads to something in a directory leads through the directory. -/
theorem isDir_of_locate_join {name : Text} (hname : '/' ∉ name) (hne : name ≠ [])
    (hdir : dir.text ≠ []) (h : fs.locate (dir.join ⟨name⟩) = .ok (l, n)) : fs.isDir dir := by
  have hrelative : (⟨name⟩ : Path).isAbsolute = false := by
    obtain ⟨d, r, rfl⟩ := List.exists_cons_of_ne_nil hne
    rw [isAbsolute, List.head?_cons]
    exact beq_false_of_ne fun heq ↦ hname (Option.some.inj heq ▸ List.mem_cons_self)
  obtain ⟨hcheck, hfollow, -⟩ := locate_eq_ok_iff.mp h
  have hstart : fs.start (dir.join ⟨name⟩) = fs.start dir := by
    rw [start, start, isAbsolute_join hrelative hdir]
  have hcheckDir : checkPath dir = .ok () := by
    obtain ⟨hnul, -, hlength⟩ := checkPath_eq_ok_iff.mp hcheck
    obtain ⟨rest, hrest⟩ : ∃ rest, (dir.join ⟨name⟩).text = dir.text ++ rest := by
      rw [join, if_neg (by simp [hrelative])]
      split_ifs
      · exact ⟨name, rfl⟩
      · exact ⟨'/' :: name, rfl⟩
    rw [hrest] at hnul hlength
    rw [utf8Length_append] at hlength
    exact checkPath_eq_ok_iff.mpr
      ⟨fun hmem ↦ hnul (List.mem_append_left rest hmem), hdir, by omega⟩
  -- Up to its last step the joined path follows the directory, but for an empty piece at its end.
  have hreach : ∃ loc, fs.follow (fs.start dir) (splitSlashes dir.text) = .ok loc ∧
      fs.node? loc = some .dir := by
    rw [hstart] at hfollow
    rcases splitSlashes_join hrelative hdir with heq | ⟨pieces, hpieces, heq⟩
    · rw [heq, splitSlashes_eq_singleton hname] at hfollow
      obtain ⟨loc, hloc, hlast⟩ := follow_append.mp hfollow
      exact ⟨loc, hloc, ((follow_eq_ok_iff.mp hlast).2 [] name (List.prefix_refl _)).1⟩
    · rw [heq, splitSlashes_eq_singleton hname] at hfollow
      obtain ⟨loc, hloc, hlast⟩ := follow_append.mp hfollow
      have hnode := ((follow_eq_ok_iff.mp hlast).2 [] name (List.prefix_refl _)).1
      have hhere : fs.step loc [] = .ok loc :=
        step_eq_ok_iff.mpr ⟨hnode, by decide, by rw [move, if_pos (.inl rfl)]⟩
      refine ⟨loc, ?_, hnode⟩
      rw [hpieces]
      exact follow_append.mpr ⟨loc, hloc, by rw [follow_cons, hhere]; rfl⟩
  obtain ⟨loc, hloc, hnode⟩ := hreach
  rw [isDir, locate_eq_ok_iff.mpr ⟨hcheckDir, hloc, hnode⟩]

end FileSystem

/-! ## Whole builds -/

namespace Build

variable {fs fs' : FileSystem} {project outputDir : Path} {product : Product} {s : Summary}

theorem rewrites_of_write (h : write fs outputDir product = (fs', .ok s)) :
    Rewrites (fs.place s.output) fs fs' := by
  have hfiles := sameFilesBut_of_write h
  obtain ⟨fs₁, hmake, hwrite, rfl⟩ := write_eq_ok_iff.mp h
  have hadds := addsDirs_makeDirs fs outputDir
  rw [hmake] at hadds
  exact ⟨(workingDirectory_of_writeFile hwrite).trans hadds.working,
    fun l hl ↦ node?_eq_dir_of_writeFile hwrite (hadds.node?_eq_some hl), hfiles⟩

/-- Writing the same script again changes nothing. -/
theorem write_again (h : write fs outputDir product = (fs', .ok s)) :
    write fs' outputDir product = (fs', .ok s) := by
  obtain ⟨fs₁, hmake, hwrite, rfl⟩ := write_eq_ok_iff.mp h
  refine write_eq_ok_iff.mpr ⟨fs', ?_, writeFile_again hwrite, rfl⟩
  by_cases hout : outputDir.text = []
  · obtain rfl : outputDir = ⟨[]⟩ := congrArg Path.mk hout
    rfl
  · have hname : '/' ∉ outputName.text ∧ outputName.text ≠ [] := by decide
    exact makeDirs_of_isDir
      (isDir_of_locate_join hname.1 hname.2 hout (locate_of_writeFile hwrite))

/-- The script never takes the place of the manifest. -/
theorem place_manifest_ne (fs : FileSystem) (project outputDir : Path) :
    fs.place (project.join Manifest.fileName) ≠ fs.place (outputDir.join outputName) := by
  have hmanifest : Path.splitSlashes Manifest.fileName.text = [Manifest.fileName.text] := by decide
  have houtput : Path.splitSlashes outputName.text = [outputName.text] := by decide
  rw [place_join (by decide), place_join (by decide), hmanifest, houtput, List.foldl_cons,
    List.foldl_cons, List.foldl_nil, List.foldl_nil, move_name (by decide), move_name (by decide)]
  intro heq
  exact absurd (List.append_inj_right' heq rfl) (by decide)

/-- The same project is prepared from what a build of it leaves, if the script is not in the way. -/
theorem prepare_of_rewrites {O : Location} {package : Descriptor} {b : Bundle} (htree : fs.IsTree)
    (hrewrites : Rewrites O fs fs') (hprepare : prepare fs project = .ok product)
    (hpackage : Descriptor.load fs project = .ok package)
    (hmake : Bundle.make fs.moduleStore project ⟨package.entry⟩ = .ok b)
    (hmanifest : fs.place (project.join Manifest.fileName) ≠ O)
    (hmodules : ∀ m ∈ b.modules, fs.place m ≠ O)
    (hpassed : ∀ p,
      Bundle.Asks fs.moduleStore (project.join ⟨package.entry⟩).normalize b.modules p →
        ∀ c ∈ fs.moduleStore.passedOver p, fs.place c ≠ O) :
    prepare fs' project = .ok product := by
  have hread : ∀ p t, fs.place p ≠ O → fs.readText p = .ok t → fs'.readText p = .ok t := by
    intro p t hO ht
    exact readText_eq_ok_iff.mpr (hrewrites.fileAt?_eq_some (readText_eq_ok_iff.mp ht) hO)
  obtain ⟨package', b', entry, source, hpackage', hmake', hlast, hsource, rfl⟩ :=
    prepare_eq_ok_iff.mp hprepare
  obtain rfl := Except.ok.inj (hpackage.symm.trans hpackage')
  obtain rfl := Except.ok.inj (hmake.symm.trans hmake')
  refine prepare_eq_ok_iff.mpr ⟨package, b, entry, source, ?_, ?_, hlast,
    hread entry source (hmodules entry (List.mem_of_getLast? hlast)) hsource, rfl⟩
  · -- The manifest
    rw [Descriptor.load] at hpackage ⊢
    split at hpackage
    · next content hcontent =>
      rw [hread _ content hmanifest hcontent]
      exact hpackage
    · cases hpackage
    · cases hpackage
  · -- The modules
    refine Bundle.make_congr hmake fun p hp ↦ ?_
    obtain ⟨file, content, hfile, hmem⟩ := Bundle.exists_resolve?_of_asks hmake hp
    have hpassed' := hpassed p hp
    obtain ⟨q, rfl⟩ : ∃ q : Path, p = q.normalize := by
      rcases hp with rfl | ⟨m, -, s, -, rfl⟩
      · exact ⟨_, rfl⟩
      · exact ⟨_, rfl⟩
    rw [hfile]
    exact hrewrites.resolve?_eq htree hfile (hmodules file hmem) hpassed'

/-- **Building again is a fixed point.** A build that succeeds, and whose script is neither one of
the modules nor one of the files that were looked for in vain, can be run again on the file system
that it leaves: it succeeds with the same summary and leaves that file system as it is. -/
theorem run_again {package : Descriptor} {b : Bundle} (htree : fs.IsTree)
    (hrun : run fs project outputDir = (fs', .ok s))
    (hpackage : Descriptor.load fs project = .ok package)
    (hmake : Bundle.make fs.moduleStore project ⟨package.entry⟩ = .ok b)
    (hmodules : ∀ m ∈ b.modules, fs.place m ≠ fs.place s.output)
    (hpassed : ∀ p,
      Bundle.Asks fs.moduleStore (project.join ⟨package.entry⟩).normalize b.modules p →
        ∀ c ∈ fs.moduleStore.passedOver p, fs.place c ≠ fs.place s.output) :
    run fs' project outputDir = (fs', .ok s) := by
  rw [run] at hrun ⊢
  cases hprepare : prepare fs project with
  | error e =>
    rw [hprepare] at hrun
    cases (Prod.mk.inj hrun).2
  | ok product =>
    rw [hprepare] at hrun
    have hwrite : write fs outputDir product = (fs', .ok s) := hrun
    have houtput : s.output = outputDir.join outputName := by
      obtain ⟨-, -, -, rfl⟩ := write_eq_ok_iff.mp hwrite
      rfl
    have hmanifest : fs.place (project.join Manifest.fileName) ≠ fs.place s.output := by
      rw [houtput]
      exact place_manifest_ne fs project outputDir
    rw [prepare_of_rewrites htree (rewrites_of_write hwrite) hprepare hpackage hmake hmanifest
      hmodules hpassed]
    exact write_again hwrite

/-! ## A specifier without an extension -/

/-- A project in which the entry module names a typed module without its extension. -/
def extensionless : FileSystem where
  nodes := [(["w".toList], .dir),
    (["w".toList, "package.toml".toList],
      .file (.text "[package]\nname = \"p\"\nentry = \"index.js\"\n".toList)),
    (["w".toList, "index.js".toList], .file (.text "import \"./package\";\n".toList)),
    (["w".toList, "package.ts".toList], .file (.text "const a = 1;\n".toList))]
  workingDirectory := ["w".toList]

/-- What the manifest of the project says. -/
def extensionlessPackage : Descriptor :=
  ⟨"p".toList, [], [], "index.js".toList, [], "p".toList⟩

/-- What is made of the project. -/
def extensionlessProduct : Product :=
  ⟨Registry.script "const a = 1;".toList false [] extensionlessPackage, 0, 2⟩

theorem make_extensionless :
    Bundle.make extensionless.moduleStore ⟨['.']⟩ ⟨extensionlessPackage.entry⟩ =
      .ok ⟨"const a = 1;".toList, false, [⟨"package.ts".toList⟩, ⟨"index.js".toList⟩]⟩ := by
  have hnames : (Script.detachLocal "import \"./package\";\n".toList).specifiers =
      ["./package".toList] := by decide +kernel
  have hcode : trim (Bundle.body "const a = 1;\n".toList ++
      '\n' :: Bundle.body "import \"./package\";\n".toList) = "const a = 1;".toList := by
    decide +kernel
  have hentry : extensionless.moduleStore.resolve?
      ((⟨['.']⟩ : Path).join ⟨extensionlessPackage.entry⟩).normalize =
        some (⟨"index.js".toList⟩, .text "import \"./package\";\n".toList) := rfl
  have hnamed : extensionless.moduleStore.resolve?
      (resolveImport ⟨"index.js".toList⟩ "./package".toList) =
        some (⟨"package.ts".toList⟩, .text "const a = 1;\n".toList) := rfl
  have huntyped : (⟨"index.js".toList⟩ : Path).isTyped = false := by decide
  rw [← hcode]
  exact Bundle.make_of_one_import hnames hnamed (by decide +kernel) (by decide) hentry huntyped

theorem prepare_extensionless : prepare extensionless ⟨['.']⟩ = .ok extensionlessProduct := by
  have hextract : Documentation.extract "import \"./package\";\n".toList = [] := by decide +kernel
  refine prepare_eq_ok_iff.mpr ⟨extensionlessPackage, _, ⟨"index.js".toList⟩,
    "import \"./package\";\n".toList, by decide +kernel, make_extensionless, rfl, rfl, ?_⟩
  rw [hextract]
  rfl

/-- The project can be built again when its script goes into a directory of its own. -/
theorem run_again_extensionless :
    ∃ fs' s, run extensionless ⟨['.']⟩ ⟨"dist".toList⟩ = (fs', .ok s) ∧
      s.moduleCount = 2 ∧ run fs' ⟨['.']⟩ ⟨"dist".toList⟩ = (fs', .ok s) := by
  have hrun : run extensionless ⟨['.']⟩ ⟨"dist".toList⟩ =
      ((write extensionless ⟨"dist".toList⟩ extensionlessProduct).1,
        .ok ⟨⟨"dist/package.js".toList⟩, 0, 2⟩) := by
    rw [run, prepare_extensionless]
    rfl
  have hspecifiers : extensionless.moduleStore.specifiers ⟨"package.ts".toList⟩ = [] ∧
      extensionless.moduleStore.specifiers ⟨"index.js".toList⟩ = ["./package".toList] := by
    decide +kernel
  refine ⟨_, _, hrun, rfl, run_again (by decide) hrun (by decide +kernel) make_extensionless
    (by decide) ?_⟩
  have hentry : extensionless.moduleStore.passedOver
      ((⟨['.']⟩ : Path).join ⟨extensionlessPackage.entry⟩).normalize = [] := by decide
  rintro p (rfl | ⟨m, hm, specifier, hspecifier, rfl⟩) c hc
  · rw [hentry] at hc
    exact absurd hc List.not_mem_nil
  · simp only [List.mem_cons, List.not_mem_nil, or_false] at hm
    rcases hm with rfl | rfl
    · rw [hspecifiers.1] at hspecifier
      exact absurd hspecifier List.not_mem_nil
    · rw [hspecifiers.2, List.mem_singleton] at hspecifier
      subst hspecifier
      have hpassed : extensionless.moduleStore.passedOver
          (resolveImport ⟨"index.js".toList⟩ "./package".toList) =
            [⟨"package".toList⟩, ⟨"package.js".toList⟩] := by decide
      rw [hpassed] at hc
      simp only [List.mem_cons, List.not_mem_nil, or_false] at hc
      rcases hc with rfl | rfl
      · decide
      · decide

/-- What a build next to the modules leaves. -/
def extensionlessRebuilt : FileSystem :=
  extensionless.setNode ["w".toList, "package.js".toList]
    (.file (.text extensionlessProduct.script))

theorem prepare_extensionlessRebuilt :
    ∃ product, prepare extensionlessRebuilt ⟨['.']⟩ = .ok product ∧
      product.script ≠ extensionlessProduct.script := by
  have hnames : (Script.detachLocal "import \"./package\";\n".toList).specifiers =
      ["./package".toList] := by decide +kernel
  have hentry : extensionlessRebuilt.moduleStore.resolve?
      ((⟨['.']⟩ : Path).join ⟨extensionlessPackage.entry⟩).normalize =
        some (⟨"index.js".toList⟩, .text "import \"./package\";\n".toList) := rfl
  have hnamed : extensionlessRebuilt.moduleStore.resolve?
      (resolveImport ⟨"index.js".toList⟩ "./package".toList) =
        some (⟨"package.js".toList⟩, .text extensionlessProduct.script) := rfl
  have huntyped : (⟨"index.js".toList⟩ : Path).isTyped = false := by decide
  have hmake := Bundle.make_of_one_import hnames hnamed (by decide +kernel) (by decide) hentry
    huntyped
  refine ⟨_, prepare_eq_ok_iff.mpr ⟨extensionlessPackage, _, ⟨"index.js".toList⟩,
    "import \"./package\";\n".toList, by decide +kernel, hmake, rfl, rfl, rfl⟩, ?_⟩
  decide +kernel

/-- Next to the modules the script is found in the place of the typed module, so that building again
gives another script. -/
theorem not_forall_run_again :
    ¬∀ (fs fs' : FileSystem) (project outputDir : Path) (s : Summary) (package : Descriptor)
      (b : Bundle), fs.IsTree → run fs project outputDir = (fs', .ok s) →
      Descriptor.load fs project = .ok package →
      Bundle.make fs.moduleStore project ⟨package.entry⟩ = .ok b →
      (∀ m ∈ b.modules, fs.place m ≠ fs.place s.output) →
      ∃ fs'', run fs' project outputDir = (fs'', .ok s) ∧
        fs''.readText s.output = fs'.readText s.output := by
  intro h
  have hwrite : write extensionless ⟨['.']⟩ extensionlessProduct =
      (extensionlessRebuilt, .ok ⟨⟨"./package.js".toList⟩, 0, 2⟩) := rfl
  have hrun : run extensionless ⟨['.']⟩ ⟨['.']⟩ =
      (extensionlessRebuilt, .ok ⟨⟨"./package.js".toList⟩, 0, 2⟩) := by
    rw [run, prepare_extensionless]
    exact hwrite
  obtain ⟨fs'', hagain, hscript⟩ := h _ _ _ _ _ _ _ (by decide) hrun (by decide +kernel)
    make_extensionless (by decide)
  obtain ⟨product, hprepare, hne⟩ := prepare_extensionlessRebuilt
  rw [run, hprepare] at hagain
  rw [readText_of_write hagain, readText_of_write hwrite] at hscript
  exact hne (Except.ok.inj hscript)

end Build

end PluginPack
