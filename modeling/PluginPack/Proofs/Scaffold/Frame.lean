import PluginPack.Proofs.FileSystem.Directory
import PluginPack.Proofs.Scaffold.Course
import PluginPack.Proofs.Text.Reading

/-!
# What making a project leaves alone

A project is only made where nothing is, so what was there before should stay. It does as long as
the place that is looked at is the place that is written to: everything is written below the
target, nothing stands there at the beginning, and only the target is removed again. The log file
alone may grow.

The two places differ for the empty path, which leads nowhere but joins to the working directory,
and for a step up behind a directory that is still to be made. With these the files of the directory
around are overwritten, and all of it may be removed.
-/

namespace PluginPack

open Text FileSystem

/-- The place of the log file. -/
def Console.logPlace? (c : Console) : Option Location := c.logFile.map c.files.place

namespace Scaffold

variable {c c' c'' : Console} {o : Options} {T W l : Location} {n : Node} {p target : Path}

/-! ## Keeping to a place -/

/-- Nothing is made, changed or removed outside a place, but text may be written behind the log,
which is made if need be. -/
structure Confines (T : Location) (c c' : Console) : Prop where
  logFile : c'.logFile = c.logFile
  working : c'.files.workingDirectory = c.files.workingDirectory
  node : ∀ l, ¬T <+: l → c'.files.node? l = c.files.node? l ∨
    c.logPlace? = some l ∧ ∃ x t,
      (c.files.node? l = some (.file x) ∨ c.files.node? l = none ∧ x = .text []) ∧
        c'.files.node? l = some (.file (x.append t))

theorem logPlace?_congr (hlog : c'.logFile = c.logFile)
    (hwork : c'.files.workingDirectory = c.files.workingDirectory) :
    c'.logPlace? = c.logPlace? := by
  rw [Console.logPlace?, Console.logPlace?, hlog]
  exact congrArg (c.logFile.map ·) (funext fun p ↦ place_congr hwork p)

namespace Confines

theorem refl (T : Location) (c : Console) : Confines T c c where
  logFile := rfl
  working := rfl
  node _ _ := .inl rfl

theorem trans (h : Confines T c c') (h' : Confines T c' c'') : Confines T c c'' where
  logFile := h'.logFile.trans h.logFile
  working := h'.working.trans h.working
  node l hl := by
    have hplace := logPlace?_congr h.logFile h.working
    rcases h.node l hl with hsame | ⟨hlog, x, t, hx, hgrown⟩
    · have hnext := h'.node l hl
      rwa [hsame, hplace] at hnext
    · refine .inr ⟨hlog, x, ?_⟩
      rcases h'.node l hl with hsame | ⟨-, y, s, hy, hgrown'⟩
      · exact ⟨t, hx, hsame.trans hgrown⟩
      · rw [hgrown] at hy
        obtain rfl : x.append t = y := by simpa using hy
        exact ⟨t ++ s, hx, by rw [hgrown', Content.append_append]⟩

/-- What keeps to a place keeps to every place around it. -/
theorem mono (h : Confines T c c') (hT : W <+: T) : Confines W c c' where
  logFile := h.logFile
  working := h.working
  node l hl := h.node l fun hTl ↦ hl (hT.trans hTl)

/-- A change of the files that keeps to the place. -/
theorem of_files {fs : FileSystem} (hwork : fs.workingDirectory = c.files.workingDirectory)
    (hnode : ∀ l, ¬T <+: l → fs.node? l = c.files.node? l) :
    Confines T c { c with files := fs } where
  logFile := rfl
  working := hwork
  node l hl := .inl (hnode l hl)

theorem writeFile {x : Content} {fs : FileSystem} (h : c.files.writeFile p x = .ok fs)
    (hT : T <+: c.files.place p) : Confines T c { c with files := fs } := by
  obtain ⟨hsite, -, -, rfl⟩ := writeFile_eq_ok_iff.mp h
  refine .of_files rfl fun l hl ↦ ?_
  rw [node?_setNode _ _ hsite.place_ne_nil, if_neg]
  rintro rfl
  exact hl hT

theorem removeDirAll (hT : T <+: c.files.place p) :
    Confines T c { c with files := (c.files.removeDirAll p).1 } :=
  .of_files (workingDirectory_removeDirAll c.files p) fun _ hl ↦
    node?_removeDirAll fun hp ↦ hl (hT.trans hp)

/-! ## Messages -/

/-- A line goes behind what the log file holds, and nowhere else. -/
theorem log (T : Location) (c : Console) (line : Text) : Confines T c (c.log line) := by
  unfold Console.log
  split
  · exact .refl T c
  · next p hlog =>
    split
    · next fs happend =>
      rw [appendFile] at happend
      obtain ⟨hsite, hdir, hslash, rfl⟩ := writeFile_eq_ok_iff.mp happend
      refine ⟨rfl, rfl, fun l _ ↦ ?_⟩
      rw [node?_setNode _ _ hsite.place_ne_nil]
      by_cases hl : l = c.files.place p
      · subst hl
        have hplace : c.logPlace? = some (c.files.place p) := by
          rw [Console.logPlace?, hlog, Option.map_some]
        rw [if_pos rfl, hsite.fileAt?_eq hslash]
        cases hnode : c.files.node? (c.files.place p) with
        | none => exact .inr ⟨hplace, _, _, .inr ⟨rfl, rfl⟩, rfl⟩
        | some n =>
          cases n with
          | dir => exact absurd hnode hdir
          | file x => exact .inr ⟨hplace, x, _, .inl rfl, rfl⟩
      · rw [if_neg hl]
        exact .inl rfl
    · exact .refl T c

theorem tell (T : Location) (c : Console) (level : Level) (message : Text) :
    Confines T c (c.tell level message) := by
  unfold Console.tell
  have hlog := log T c (level.logMark ++ message)
  simp only
  split_ifs
  · exact ⟨hlog.logFile, hlog.working, hlog.node⟩
  · exact hlog

/-! ## Writing and removing files -/

theorem withFile {x : Content} {fs : FileSystem} (h : c.files.writeFile p x = .ok fs)
    (hT : T <+: c.files.place p) (shown : Text) : Confines T c (withFile c fs shown) :=
  (writeFile h hT).trans (tell T _ .step _)

theorem writeSteps {files : List (Path × Text × Text)}
    (hT : ∀ f ∈ files, T <+: c.files.place f.1) : Confines T c (writeSteps c files).1 := by
  refine writeSteps_induction (.refl T c) fun d hd f hf fs hwrite ↦ hd.trans (.withFile hwrite ?_ _)
  rw [place_congr hd.working]
  exact hT f hf

theorem cleanUp (c : Console) (target : Path) :
    Confines (c.files.place target) c (cleanUp c target) := by
  have hremoved := removeDirAll (c := c) (List.prefix_refl (c.files.place target))
  rcases cleanUp_cases c target with heq | ⟨message, heq⟩
  · rwa [heq]
  · rw [heq]
    exact hremoved.trans (tell _ _ _ _)

end Confines

/-! ## Sparing what is outside a place -/

/-- The nodes outside a place stay as they are, but text may be written behind the log. -/
structure Spares (T : Location) (c c' : Console) : Prop where
  logFile : c'.logFile = c.logFile
  working : c'.files.workingDirectory = c.files.workingDirectory
  node : ∀ l n, ¬T <+: l → c.files.node? l = some n →
    c'.files.node? l = some n ∨
      c.logPlace? = some l ∧ ∃ x t, n = .file x ∧ c'.files.node? l = some (.file (x.append t))

theorem Confines.spares (h : Confines T c c') : Spares T c c' where
  logFile := h.logFile
  working := h.working
  node l n hl hn := by
    rcases h.node l hl with hsame | ⟨hlog, x, t, hx, hgrown⟩
    · exact .inl (hsame.trans hn)
    · rw [hn] at hx
      exact .inr ⟨hlog, x, t, by simpa using hx, hgrown⟩

namespace Spares

theorem refl (T : Location) (c : Console) : Spares T c c := (Confines.refl T c).spares

theorem trans (h : Spares T c c') (h' : Spares T c' c'') : Spares T c c'' where
  logFile := h'.logFile.trans h.logFile
  working := h'.working.trans h.working
  node l n hl hn := by
    rcases h.node l n hl hn with hsame | ⟨hlog, x, t, rfl, hgrown⟩
    · have hnext := h'.node l n hl hsame
      rwa [logPlace?_congr h.logFile h.working] at hnext
    · refine .inr ⟨hlog, ?_⟩
      rcases h'.node l _ hl hgrown with hsame | ⟨-, y, s, hy, hgrown'⟩
      · exact ⟨x, t, rfl, hsame⟩
      · obtain rfl := Node.file.inj hy
        exact ⟨x, t ++ s, rfl, by rw [hgrown', Content.append_append]⟩

/-- Directories are made wherever they are missing on the way, but nothing that is there changes. -/
theorem makeDirs (T : Location) (c : Console) (p : Path) :
    Spares T c { c with files := (c.files.makeDirs p).1 } where
  logFile := rfl
  working := (addsDirs_makeDirs c.files p).working
  node _ _ _ hn := .inl ((addsDirs_makeDirs c.files p).node?_eq_some hn)

end Spares

/-- Every file of a project has its place below the target. -/
theorem prefix_place_of_mem_files (fs : FileSystem) {f : Path × Text × Text}
    (hf : f ∈ files target o) : fs.place target <+: fs.place f.1 := by
  have hdown : ∀ dir p : Path, p.isAbsolute = false → ['.', '.'] ∉ Path.splitSlashes p.text →
      fs.place dir <+: fs.place (dir.join p) := by
    intro dir p hp hup
    rw [place_join hp]
    exact prefix_foldl_move hup (fs.place dir)
  have hentry : o.language.entryFile.isAbsolute = false ∧
      ['.', '.'] ∉ Path.splitSlashes o.language.entryFile.text := by
    cases o.language <;> decide
  rw [files] at hf
  simp only [List.mem_cons, List.not_mem_nil, or_false] at hf
  rcases hf with rfl | rfl | rfl
  · exact hdown target _ (by decide) (by decide)
  · exact hdown target _ (by decide) (by decide)
  · exact (hdown target ⟨"src".toList⟩ (by decide) (by decide)).trans
      (hdown _ o.language.entryFile hentry.1 hentry.2)

namespace Spares

theorem writeProject (c : Console) (target : Path) (o : Options) :
    Spares (c.files.place target) c (writeProject c target o).1 := by
  refine writeProject_induction (makeDirs _ c _) fun d hd f hf fs hwrite ↦
    hd.trans (Confines.withFile hwrite ?_ _).spares
  rw [← place_congr hd.working]
  exact prefix_place_of_mem_files d.files hf

/-- A run changes nothing outside the place that the directory names. -/
theorem run {t : Text} (c : Console) (hvalid : validatePath o.directory = .ok t) :
    Spares (c.files.place ⟨t⟩) c (run c o).1 := by
  rcases run_cases c o with heq | ⟨t', hvalid', -, hrun⟩
  · rw [heq]
    exact .refl _ c
  obtain rfl := Except.ok.inj (hvalid.symm.trans hvalid')
  have hwrite := writeProject c ⟨t⟩ o
  rcases hrun with ⟨heq, -⟩ | heq
  · rwa [heq]
  · rw [heq]
    refine hwrite.trans ?_
    rw [← place_congr hwrite.working]
    exact (Confines.cleanUp _ ⟨t⟩).spares

end Spares

/-! ## Nothing is lost -/

/-- In a path that is let through, a step up stands only at the end. -/
theorem up_not_mem_of_validatePath {d t : Text} {pieces : List Text} {last : Text}
    (h : validatePath d = .ok t) (ht : Path.splitSlashes t = pieces ++ [last]) :
    ['.', '.'] ∉ pieces := by
  rw [validatePath] at h
  split_ifs at h with hup
  obtain rfl := Except.ok.inj h
  obtain ⟨hcut, -⟩ := not_or.mp hup
  intro hmem
  obtain ⟨before, behind, rfl⟩ := List.append_of_mem hmem
  rw [Option.not_isSome_iff_eq_none] at hcut
  refine not_isInfix_of_cutAt?_eq_none hcut ?_
  cases behind with
  | nil =>
    rw [List.append_assoc] at ht
    exact Path.isInfix_of_splitSlashes_eq ht
  | cons next behind =>
    rw [List.append_assoc] at ht
    exact Path.isInfix_of_splitSlashes_eq ht

/-- The directory names one place before and after it is made: it is not empty, and a step up at its
end leaves a directory that is there. -/
def IsPlain (fs : FileSystem) (directory : Text) : Prop :=
  ∀ t, validatePath directory = .ok t →
    t ≠ [] ∧ ((Path.splitSlashes t).getLast? = some ['.', '.'] → fs.pathExists ⟨t⟩)

instance (fs : FileSystem) (directory : Text) : Decidable (IsPlain fs directory) :=
  match hvalid : validatePath directory with
  | .ok t =>
    decidable_of_iff
      (t ≠ [] ∧ ((Path.splitSlashes t).getLast? = some ['.', '.'] → fs.pathExists ⟨t⟩))
      ⟨fun hplain _ hu ↦ Except.ok.inj (hvalid.symm.trans hu) ▸ hplain,
        fun hplain ↦ hplain t hvalid⟩
  | .error _ => isTrue fun _ ht ↦ absurd (hvalid.symm.trans ht) nofun

/-- In a path that is let through and leads nowhere there is no step up. -/
theorem up_not_mem_of_missing {fs : FileSystem} {d t : Text} (hplain : IsPlain fs d)
    (hvalid : validatePath d = .ok t) (hmissing : fs.locate ⟨t⟩ = .error .notFound) :
    ['.', '.'] ∉ Path.splitSlashes t := by
  obtain ⟨-, hend⟩ := hplain t hvalid
  rcases List.eq_nil_or_concat (Path.splitSlashes t) with hnil | ⟨pieces, last, hlast⟩
  · exact absurd hnil (Path.splitSlashes_ne_nil t)
  · rw [List.concat_eq_append] at hlast
    intro hmem
    rw [hlast] at hmem hend
    rcases List.mem_append.mp hmem with hmem | hmem
    · exact up_not_mem_of_validatePath hvalid hlast hmem
    · obtain rfl := List.mem_singleton.mp hmem
      have hexists := hend List.getLast?_concat
      rw [pathExists, hmissing] at hexists
      exact absurd hexists Bool.false_ne_true

/-- Where a target is found missing, nothing stands at its place or below. -/
theorem node?_eq_none_of_missing {fs : FileSystem} {d t : Text} (htree : fs.IsTree)
    (hplain : IsPlain fs d) (hvalid : validatePath d = .ok t)
    (hmissing : fs.locate ⟨t⟩ = .error .notFound) (hl : fs.place ⟨t⟩ <+: l) :
    fs.node? l = none :=
  node?_eq_none_of_notFound htree hmissing (hplain t hvalid).1
    (up_not_mem_of_missing hplain hvalid hmissing) hl

/-- **Making a project loses nothing.** Whatever comes of it, every file and directory that was
there is there afterwards and holds what it held; only behind the log may text have been written. -/
theorem run_keeps_nodes {c : Console} (o : Options) (htree : c.files.IsTree)
    (hplain : IsPlain c.files o.directory) (hn : c.files.node? l = some n) :
    (run c o).1.files.node? l = some n ∨
      c.logPlace? = some l ∧
        ∃ x t, n = .file x ∧ (run c o).1.files.node? l = some (.file (x.append t)) := by
  rcases run_cases c o with heq | ⟨t, hvalid, hmissing, -⟩
  · rw [heq]
    exact .inl hn
  · have hl : ¬c.files.place ⟨t⟩ <+: l := fun hl ↦ by
      rw [node?_eq_none_of_missing htree hplain hvalid hmissing hl] at hn
      cases hn
    exact (Spares.run c hvalid).node l n hl hn

/-- A directory that holds a manifest and a log. -/
def workspace : Console where
  files :=
    { nodes := [(["w".toList], .dir),
        (["w".toList, "package.toml".toList], .file (.text "old".toList)),
        (["w".toList, "log".toList], .file (.text "begun\n".toList))]
      workingDirectory := ["w".toList] }
  stamp := []
  logFile := some ⟨"/w/log".toList⟩
  verbosity := 0
  output := []
  errors := []

/-- What a project in a directory is made from. -/
def optionsIn (directory : String) : Options :=
  ⟨"p".toList, directory.toList, "com.acme".toList, none, "d".toList, .javascript⟩

/-- The manifest around a new project stays, and the log goes on. -/
theorem run_keeps_nodes_workspace :
    (workspace.files.IsTree ∧ IsPlain workspace.files "p".toList) ∧
      (run workspace (optionsIn "p")).1.files.node? ["w".toList, "package.toml".toList] =
        some (.file (.text "old".toList)) := by
  have htree : workspace.files.IsTree := by decide
  have hplain : IsPlain workspace.files "p".toList := by decide
  refine ⟨⟨htree, hplain⟩, ?_⟩
  have hmanifest : workspace.files.node? ["w".toList, "package.toml".toList] =
      some (.file (.text "old".toList)) := by decide
  rcases run_keeps_nodes (optionsIn "p") htree hplain hmanifest with hkept | ⟨hlog, -⟩
  · exact hkept
  · exact absurd hlog (by decide)

/-- A step up behind a directory that is still to be made leads to files that are overwritten. -/
theorem not_forall_nodes_kept :
    ¬∀ (c : Console) (o : Options), c.files.IsTree → ∀ l n, c.files.node? l = some n →
      (run c o).1.files.node? l = some n ∨
        c.logPlace? = some l ∧
          ∃ x t, n = .file x ∧ (run c o).1.files.node? l = some (.file (x.append t)) := by
  intro h
  rcases h workspace (optionsIn "a/..") (by decide) ["w".toList, "package.toml".toList]
    (.file (.text "old".toList)) (by decide) with hkept | ⟨hlog, -⟩
  · exact absurd hkept (by decide +kernel)
  · exact absurd hlog (by decide)

end Scaffold

end PluginPack
