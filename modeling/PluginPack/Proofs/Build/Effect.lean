import PluginPack.Build
import PluginPack.Proofs.Bundle.Exploration
import PluginPack.Proofs.Documentation.ReadBack
import PluginPack.Proofs.FileSystem.Effect
import PluginPack.Proofs.Registry.EntryCount

/-!
# What a build writes

A build reads all it needs before it writes anything, and it writes one file. So a build that fails,
at whatever stage, leaves all regular files alone, and one that succeeds has put the script of the
package at its place and changed no other file. The numbers it reports are those of the script: the
functions are extracted with distinct names, hence none of them is left out of the registration.
-/

namespace PluginPack

open Text FileSystem PluginPack.Bundle

/-! ## Extracted functions -/

namespace Documentation

variable {fs : List Function} {f : Function} {t : Text}

/-- Extracted functions have distinct names, so all of them are registered. -/
theorem distinct_extract (source : Text) : distinct (extract source) = extract source :=
  distinctFrom_eq_self (fun _ _ ↦ List.not_mem_nil) (nodup_map_name_distinctFrom [] _).1

theorem isKey_of_named? {isAsync : Bool} {s : Source} (h : named? isAsync t = some s) :
    Registry.IsKey s.name := by
  unfold named? at h
  simp only at h
  split_ifs at h with hstart
  obtain ⟨r, -, h⟩ := Option.bind_eq_some_iff.mp h
  split at h
  · exact absurd h nofun
  · obtain ⟨o, -, h⟩ := Option.bind_eq_some_iff.mp h
    obtain ⟨p, -, rfl⟩ := Option.map_eq_some_iff.mp h
    refine ⟨fun hmem ↦ ?_, fun hhead ↦ ?_⟩
    · have hname := List.all_eq_true.mp List.all_takeWhile '\n' hmem
      exact absurd hname (by decide)
    · rw [hhead] at hstart
      exact absurd hstart (by decide)

theorem isKey_of_exported? {s : Source} (h : exported? t = some s) : Registry.IsKey s.name := by
  obtain ⟨r, -, h⟩ := Option.bind_eq_some_iff.mp h
  split at h
  · obtain ⟨u, -, h⟩ := Option.bind_eq_some_iff.mp h
    exact isKey_of_named? h
  · obtain ⟨u, -, h⟩ := Option.bind_eq_some_iff.mp h
    exact isKey_of_named? h

/-- The name of an extracted function can stand as a key. -/
theorem isKey_of_mem_functionsFrom {line : Nat} (h : f ∈ functionsFrom line t) :
    Registry.IsKey f.name := by
  fun_induction functionsFrom line t with
  | case1 => exact absurd h List.not_mem_nil
  | case2 line t b _ _ start _ s hs _ before inside ih =>
    rcases List.mem_cons.mp h with rfl | h
    · exact isKey_of_exported? hs
    · exact ih h
  | case3 line t b _ _ start _ _ ih => exact ih h

theorem isKey_of_mem_extract {source : Text} (h : f ∈ extract source) : Registry.IsKey f.name :=
  isKey_of_mem_functionsFrom ((distinctFrom_sublist [] _).subset h)

end Documentation

namespace Build

variable {fs fs' : FileSystem} {project outputDir : Path} {product : Product} {s : Summary}
  {e : BuildError}

/-! ## Reading -/

theorem mapError_eq_ok_iff {ε ε' α : Type} {x : Except ε α} {f : ε → ε'} {a : α} :
    x.mapError f = .ok a ↔ x = .ok a := by
  cases x with
  | error e => simp [Except.mapError]
  | ok b => simp [Except.mapError]

theorem prepare_eq_ok_iff :
    prepare fs project = .ok product ↔
      ∃ package b entry source, Descriptor.load fs project = .ok package ∧
        Bundle.make fs.moduleStore project ⟨package.entry⟩ = .ok b ∧
        b.modules.getLast? = some entry ∧ fs.readText entry = .ok source ∧
        product =
          { script := Registry.script b.code b.isTyped (Documentation.extract source) package
            functionCount := (Documentation.extract source).length
            moduleCount := b.modules.length } := by
  simp only [prepare, bind_eq_ok_iff, mapError_eq_ok_iff]
  constructor
  · rintro ⟨package, hpackage, b, hb, source, hsource, h⟩
    obtain ⟨entry, hexplores⟩ := exists_explores_of_make hb
    have hlast := hexplores.getLast?
    rw [hlast, Option.getD_some] at hsource
    exact ⟨package, b, entry, source, hpackage, hb, hlast, hsource, (Except.ok.inj h).symm⟩
  · rintro ⟨package, b, entry, source, hpackage, hb, hlast, hsource, rfl⟩
    refine ⟨package, hpackage, b, hb, source, ?_, rfl⟩
    rw [hlast, Option.getD_some, hsource]

/-! ## Writing -/

/-- All regular files are the same in two file systems, or all but the one at a place. -/
def SameFilesBut (place : Option Location) (fs fs' : FileSystem) : Prop :=
  ∀ l c, some l ≠ place → (fs'.node? l = some (.file c) ↔ fs.node? l = some (.file c))

theorem write_eq_error (h : write fs outputDir product = (fs', .error e)) :
    SameFilesBut none fs fs' := by
  have hadds := addsDirs_makeDirs fs outputDir
  rw [write] at h
  split at h
  · next fs₁ e₁ hmake =>
    rw [hmake] at hadds
    obtain ⟨rfl, -⟩ := Prod.mk.inj h
    exact fun l c _ ↦ hadds.node?_eq_file_iff
  · next fs₁ u hmake =>
    rw [hmake] at hadds
    simp only at h
    split at h
    · obtain ⟨rfl, -⟩ := Prod.mk.inj h
      exact fun l c _ ↦ hadds.node?_eq_file_iff
    · exact absurd (Prod.mk.inj h).2 nofun

/-- A write that succeeds made the directories and then put the script at its site. -/
theorem write_eq_ok_iff :
    write fs outputDir product = (fs', .ok s) ↔
      ∃ fs₁, fs.makeDirs outputDir = (fs₁, .ok ()) ∧
        fs₁.writeFile (outputDir.join outputName) (.text product.script) = .ok fs' ∧
        s = ⟨outputDir.join outputName, product.functionCount, product.moduleCount⟩ := by
  rw [write]
  constructor
  · intro h
    split at h
    · exact absurd (Prod.mk.inj h).2 nofun
    · next fs₁ u hmake =>
      simp only at h
      split at h
      · exact absurd (Prod.mk.inj h).2 nofun
      · next fs₂ hwrite =>
        obtain ⟨rfl, hs⟩ := Prod.mk.inj h
        exact ⟨fs₁, hmake, hwrite, (Except.ok.inj hs).symm⟩
  · rintro ⟨fs₁, hmake, hwrite, rfl⟩
    rw [hmake]
    simp only [hwrite]

theorem sameFilesBut_of_write (h : write fs outputDir product = (fs', .ok s)) :
    SameFilesBut (some (fs.place s.output)) fs fs' := by
  obtain ⟨fs₁, hmake, hwrite, rfl⟩ := write_eq_ok_iff.mp h
  have hadds := addsDirs_makeDirs fs outputDir
  rw [hmake] at hadds
  obtain ⟨hsite, -, -, rfl⟩ := writeFile_eq_ok_iff.mp hwrite
  intro l c hl
  rw [node?_setNode _ _ hsite.place_ne_nil, place_congr hadds.working,
    if_neg fun heq ↦ hl (congrArg some heq)]
  exact hadds.node?_eq_file_iff

/-- What was written can be read. -/
theorem readText_of_write (h : write fs outputDir product = (fs', .ok s)) :
    fs'.readText s.output = .ok product.script := by
  obtain ⟨fs₁, -, hwrite, rfl⟩ := write_eq_ok_iff.mp h
  rw [readText, locate_of_writeFile hwrite]

/-! ## Whole builds -/

/-- **A build writes one file or none.** A build that fails leaves all regular files as they were,
whatever it fails at. A build that succeeds leaves all but one as they were: its output path then
leads to the script of the bundle, of the functions of the last module as it is written, and of the
manifest. It reports as many functions as entries are registered and as many modules as are
inlined. -/
theorem run_writes_one_file (fs : FileSystem) (project outputDir : Path) :
    match run fs project outputDir with
    | (fs', .error _) => SameFilesBut none fs fs'
    | (fs', .ok s) =>
      ∃ package b entry source,
        Descriptor.load fs project = .ok package ∧
        Bundle.make fs.moduleStore project ⟨package.entry⟩ = .ok b ∧
        b.modules.getLast? = some entry ∧ fs.readText entry = .ok source ∧
        s.output = outputDir.join outputName ∧
        fs'.readText s.output =
          .ok (Registry.script b.code b.isTyped (Documentation.extract source) package) ∧
        SameFilesBut (some (fs.place s.output)) fs fs' ∧
        Registry.script b.code b.isTyped (Documentation.extract source) package =
          Registry.preamble b.code b.isTyped (Documentation.extract source) ++ "\n\n".toList ++
            Registry.registration (Documentation.extract source) package ∧
        s.functionCount =
          Registry.entryCount (Registry.registration (Documentation.extract source) package) ∧
        s.moduleCount = b.modules.length := by
  rw [run]
  cases hprepare : prepare fs project with
  | error e => exact fun l c _ ↦ Iff.rfl
  | ok product =>
    obtain ⟨package, b, entry, source, hpackage, hb, hlast, hsource, hproduct⟩ :=
      prepare_eq_ok_iff.mp hprepare
    simp only
    rcases hwrite : write fs outputDir product with ⟨fs', e | s⟩
    · exact write_eq_error hwrite
    · have hread := readText_of_write hwrite
      have hfiles := sameFilesBut_of_write hwrite
      obtain ⟨-, -, -, rfl⟩ := write_eq_ok_iff.mp hwrite
      rw [hproduct] at hread ⊢
      refine ⟨package, b, entry, source, hpackage, hb, hlast, hsource, rfl, hread, hfiles, ?_, ?_,
        rfl⟩
      · rw [Registry.script, Documentation.distinct_extract]
      · exact (Registry.entryCount_registration
          (fun f hf ↦ Documentation.isKey_of_mem_extract hf) package).symm

end Build

end PluginPack
