import PluginPack.Proofs.FileSystem.Removal
import PluginPack.Proofs.Scaffold.Confinement

/-!
# What a failed project leaves

When a project can not be written, its directory is removed again with all that was written into it.
The directories above it that were missing are made on the way and are not taken back, so after a
failure they may be there where nothing was before. Nothing else is: where the directory above the
target is there already, a failure leaves no trace but in the log.
-/

namespace PluginPack

open Text PluginPack.Path FileSystem

namespace Scaffold

variable {c c' c'' : Console} {fs fs' : FileSystem} {o : Options} {T l : Location} {n : Node}
  {t : Text} {e : FileError}

/-! ## Building up -/

/-- No directory is lost, and a tree stays a tree. -/
structure Builds (c c' : Console) : Prop where
  logFile : c'.logFile = c.logFile
  working : c'.files.workingDirectory = c.files.workingDirectory
  tree : c.files.IsTree → c'.files.IsTree
  dir : ∀ l, c.files.node? l = some .dir → c'.files.node? l = some .dir

namespace Builds

theorem refl (c : Console) : Builds c c := ⟨rfl, rfl, id, fun _ h ↦ h⟩

theorem trans (h : Builds c c') (h' : Builds c' c'') : Builds c c'' where
  logFile := h'.logFile.trans h.logFile
  working := h'.working.trans h.working
  tree htree := h'.tree (h.tree htree)
  dir l hl := h'.dir l (h.dir l hl)

theorem writeFile {p : Path} {x : Content} (h : c.files.writeFile p x = .ok fs) :
    Builds c { c with files := fs } where
  logFile := rfl
  working := workingDirectory_of_writeFile h
  tree htree := htree.writeFile h
  dir _ hl := node?_eq_dir_of_writeFile h hl

theorem makeDirs (c : Console) (p : Path) :
    Builds c { c with files := (c.files.makeDirs p).1 } where
  logFile := rfl
  working := (addsDirs_makeDirs c.files p).working
  tree htree := makeDirs_induction htree fun _ _ _ _ htree hmake ↦ htree.makeDir hmake
  dir _ hl := (addsDirs_makeDirs c.files p).node?_eq_some hl

theorem log (c : Console) (line : Text) : Builds c (c.log line) := by
  unfold Console.log
  split
  · exact refl c
  · split
    · next fs happend => exact writeFile happend
    · exact refl c

theorem tell (c : Console) (level : Level) (message : Text) : Builds c (c.tell level message) := by
  have hlog := log c (level.logMark ++ message)
  unfold Console.tell
  simp only
  split_ifs
  · exact ⟨hlog.logFile, hlog.working, hlog.tree, hlog.dir⟩
  · exact hlog

theorem withFile {p : Path} {x : Content} (h : c.files.writeFile p x = .ok fs) (shown : Text) :
    Builds c (withFile c fs shown) :=
  (writeFile h).trans (tell _ _ _)

theorem writeSteps (c : Console) (files : List (Path × Text × Text)) :
    Builds c (writeSteps c files).1 :=
  writeSteps_induction (refl c) fun _ hd _ _ _ hwrite ↦ hd.trans (withFile hwrite _)

theorem writeProject (c : Console) (target : Path) (o : Options) :
    Builds c (writeProject c target o).1 :=
  writeProject_induction (makeDirs c _) fun _ hd _ _ _ hwrite ↦ hd.trans (withFile hwrite _)

end Builds

/-! ## The directories of a project -/

/-- The name of the directory for modules. -/
theorem isFileName_source : IsFileName "src".toList := by decide

theorem checkPath_of_missing (ht : t ≠ []) (hmissing : fs.locate ⟨t⟩ = .error .notFound) :
    checkPath ⟨t⟩ = .ok () := by
  cases hcheck : checkPath ⟨t⟩ with
  | ok u => rfl
  | error e =>
    rw [locate, hcheck] at hmissing
    obtain rfl : e = .notFound := Except.error.inj hmissing
    unfold checkPath at hcheck
    split_ifs at hcheck
    · cases hcheck
    · cases hcheck

/-- The target and the directory for modules, and the paths above them, lead to places on the way
down from the beginning of the target. -/
theorem exists_take_of_mem_ancestors (fs : FileSystem) {q : Path} (ht : t ≠ [])
    (hup : ['.', '.'] ∉ splitSlashes t)
    (hq : q ∈ ancestors ((⟨t⟩ : Path).join ⟨"src".toList⟩)) :
    q.isAbsolute = (⟨t⟩ : Path).isAbsolute ∧ ∃ (names : List Text) (j : Nat),
      (⟨t⟩ : Path).steps = names.map .name ∧ fs.place ⟨t⟩ = fs.start ⟨t⟩ ++ names ∧
        q.steps = ((names ++ ["src".toList]).take j).map .name ∧
          fs.place q = fs.start ⟨t⟩ ++ (names ++ ["src".toList]).take j := by
  obtain ⟨names, hnames⟩ := exists_steps_eq_names (p := ⟨t⟩) hup
  have habsolute : ((⟨t⟩ : Path).join ⟨"src".toList⟩).isAbsolute = (⟨t⟩ : Path).isAbsolute :=
    isAbsolute_join (by decide) ht
  have hjoin : ((⟨t⟩ : Path).join ⟨"src".toList⟩).steps =
      (names ++ ["src".toList]).map .name := by
    rw [steps_join isFileName_source ht, hnames, List.map_append]
    rfl
  have hfrom : ∀ p : Path, p.isAbsolute = (⟨t⟩ : Path).isAbsolute → ∀ ns : List Text,
      p.steps = ns.map .name → fs.place p = fs.start ⟨t⟩ ++ ns := by
    intro p hp ns hns
    rw [← foldl_move_steps, hns, foldl_move_names, start, hp, ← start]
  obtain ⟨hsame, j, hj⟩ : q.isAbsolute = (⟨t⟩ : Path).isAbsolute ∧
      ∃ j, q.steps = ((names ++ ["src".toList]).take j).map .name := by
    rcases exists_steps_eq_of_mem_ancestors hq with rfl | ⟨hsame, j, -, hj⟩
    · exact ⟨habsolute, _, by rw [hjoin, List.take_length]⟩
    · exact ⟨hsame.trans habsolute, j, by rw [hj, hjoin, List.map_take]⟩
  exact ⟨hsame, names, j, hnames, hfrom _ rfl names hnames, hj, hfrom q hsame _ hj⟩

/-- Once something stands at the place of the target, the target is a directory. -/
theorem isDir_or_node?_makeDirs (ht : t ≠ []) (hup : ['.', '.'] ∉ splitSlashes t)
    (hcheck : checkPath ⟨t⟩ = .ok ()) (hnone : fs.node? (fs.place ⟨t⟩) = none) :
    (fs.makeDirs ((⟨t⟩ : Path).join ⟨"src".toList⟩)).1.isDir ⟨t⟩ ∨
      (fs.makeDirs ((⟨t⟩ : Path).join ⟨"src".toList⟩)).1.node? (fs.place ⟨t⟩) = none := by
  refine (makeDirs_induction (P := fun fs' ↦ fs'.workingDirectory = fs.workingDirectory ∧
    (fs'.isDir ⟨t⟩ ∨ fs'.node? (fs.place ⟨t⟩) = none)) ⟨rfl, .inr hnone⟩ ?_).2
  rintro fs₁ fs₂ q hq ⟨hwork, hfound⟩ hmake
  have hadds := AddsDirs.of_makeDir hmake
  refine ⟨hadds.working.trans hwork, ?_⟩
  rcases hfound with hdir | hnone
  · exact .inl (isDir_mono hdir hadds.working fun l hl ↦ hadds.node?_eq_some hl)
  · obtain ⟨habsolute, names, j, hnames, hplace, hsteps, hq'⟩ :=
      exists_take_of_mem_ancestors fs₁ ht hup hq
    rw [← place_congr hwork] at hnone ⊢
    by_cases hsame : fs₁.place q = fs₁.place ⟨t⟩
    · -- The path that was made has the steps of the target and no others.
      have htake : (names ++ ["src".toList]).take j = names := by
        rw [hq', hplace] at hsame
        exact List.append_cancel_left hsame
      rw [htake, ← hnames] at hsteps
      exact .inl (isDir_congr habsolute hsteps hcheck (isDir_of_makeDir hmake))
    · obtain ⟨hsite, -, rfl⟩ := makeDir_eq_ok_iff.mp hmake
      rw [node?_setNode _ _ hsite.place_ne_nil, if_neg (Ne.symm hsame)]
      exact .inr hnone

/-- Away from the target, only directories above it are made. -/
theorem above_of_makeDirs (ht : t ≠ []) (hup : ['.', '.'] ∉ splitSlashes t)
    (hl : ¬fs.place ⟨t⟩ <+: l) (hnone : fs.node? l = none)
    (hn : (fs.makeDirs ((⟨t⟩ : Path).join ⟨"src".toList⟩)).1.node? l = some n) :
    n = .dir ∧ l <+: fs.place ⟨t⟩ := by
  constructor
  · rcases (addsDirs_makeDirs fs _).node l with hsame | ⟨-, hdir⟩
    · rw [hsame, hnone] at hn
      cases hn
    · rw [hdir] at hn
      exact (Option.some.inj hn).symm
  · obtain ⟨q, hq, rfl⟩ : ∃ q ∈ ancestors ((⟨t⟩ : Path).join ⟨"src".toList⟩), fs.place q = l := by
      by_contra hno
      push Not at hno
      rw [node?_makeDirs hno, hnone] at hn
      cases hn
    obtain ⟨-, names, j, -, hplace, -, hq'⟩ := exists_take_of_mem_ancestors fs ht hup hq
    have hbelow : fs.place q <+: fs.place ⟨t⟩ ++ ["src".toList] := by
      rw [hq', hplace, List.append_assoc]
      exact (List.prefix_append_right_inj _).mpr (List.take_prefix j _)
    exact (List.prefix_concat_iff.mp hbelow).resolve_left
      fun heq ↦ hl (heq ▸ List.prefix_append _ _)

/-! ## Writing a project -/

/-- When a project can not be written, its target is a directory, or nothing is there. -/
theorem isDir_or_node?_writeProject (htree : c.files.IsTree) (ht : t ≠ [])
    (hup : ['.', '.'] ∉ splitSlashes t) (hcheck : checkPath ⟨t⟩ = .ok ())
    (hnone : c.files.node? (c.files.place ⟨t⟩) = none) :
    (writeProject c ⟨t⟩ o).1.files.isDir ⟨t⟩ ∨
      (writeProject c ⟨t⟩ o).1.files.node? (c.files.place ⟨t⟩) = none := by
  have hdirs : (withDirs c ⟨t⟩).files.isDir ⟨t⟩ ∨
      (withDirs c ⟨t⟩).files.node? (c.files.place ⟨t⟩) = none :=
    isDir_or_node?_makeDirs ht hup hcheck hnone
  have hbuilds : Builds c (withDirs c ⟨t⟩) := .makeDirs c _
  rcases writeProject_cases c ⟨t⟩ o with heq | ⟨hmade, heq⟩
  · rwa [heq]
  · -- The directory for modules is there, and so is the target above it.
    have hdir : (withDirs c ⟨t⟩).files.isDir ⟨t⟩ := by
      refine hdirs.resolve_right fun hgone ↦ ?_
      obtain ⟨loc, hfollow, hnode⟩ := follow_of_makeDirs hmade htree.working
      have hloc : loc = (withDirs c ⟨t⟩).files.place ((⟨t⟩ : Path).join ⟨"src".toList⟩) :=
        eq_of_follow hfollow
      rw [hloc, place_join (by decide), place_congr hbuilds.working] at hnode
      rw [(hbuilds.tree htree).node?_eq_none_below hgone
        (prefix_foldl_move (by decide) _)] at hnode
      cases hnode
    have hwrites := Builds.writeSteps (withDirs c ⟨t⟩) (files ⟨t⟩ o)
    rw [heq]
    exact .inl (isDir_mono hdir hwrites.working hwrites.dir)

/-- Away from the target, writing a project makes directories above it, and lines of the log. -/
theorem above_or_log_of_writeProject (ht : t ≠ []) (hup : ['.', '.'] ∉ splitSlashes t)
    (hl : ¬c.files.place ⟨t⟩ <+: l) (hnone : c.files.node? l = none)
    (hn : (writeProject c ⟨t⟩ o).1.files.node? l = some n) :
    n = .dir ∧ l <+: c.files.place ⟨t⟩ ∨ c.logPlace? = some l := by
  have habove : ∀ {m}, (withDirs c ⟨t⟩).files.node? l = some m →
      m = .dir ∧ l <+: c.files.place ⟨t⟩ := fun hm ↦ above_of_makeDirs ht hup hl hnone hm
  have hbuilds : Builds c (withDirs c ⟨t⟩) := .makeDirs c _
  rcases writeProject_cases c ⟨t⟩ o with heq | ⟨-, heq⟩
  · exact .inl (habove (heq ▸ hn))
  · have hwrites : Confines (c.files.place ⟨t⟩) (withDirs c ⟨t⟩) (writeProject c ⟨t⟩ o).1 := by
      rw [heq]
      refine .writeSteps fun f hf ↦ ?_
      rw [← place_congr hbuilds.working]
      exact prefix_place_of_mem_files _ hf
    rcases hwrites.node l hl with hsame | ⟨hlog, -⟩
    · exact .inl (habove (hsame ▸ hn))
    · exact .inr ((logPlace?_congr hbuilds.logFile hbuilds.working) ▸ hlog)

/-! ## Cleaning up -/

/-- What is there after a message was there before, or the message made the log. -/
theorem node?_of_tell {level : Level} {message : Text}
    (hn : (c.tell level message).files.node? l = some n) :
    c.files.node? l = some n ∨ c.logPlace? = some l := by
  have hl : ¬l ++ [[]] <+: l := fun hshorter ↦ by
    have hlength := hshorter.length_le
    rw [List.length_append, List.length_singleton] at hlength
    omega
  rcases (Confines.tell (l ++ [[]]) c level message).node l hl with hsame | ⟨hlog, -⟩
  · exact .inl (hsame ▸ hn)
  · exact .inr hlog

theorem node?_of_cleanUp {p : Path} (hn : (cleanUp c p).files.node? l = some n) :
    (c.files.removeDirAll p).1.node? l = some n ∨ c.logPlace? = some l := by
  rcases cleanUp_cases c p with heq | ⟨message, heq⟩
  · rw [heq] at hn
    exact .inl hn
  · rw [heq] at hn
    have hlog : ({ c with files := (c.files.removeDirAll p).1 } : Console).logPlace? =
        c.logPlace? := logPlace?_congr rfl (workingDirectory_removeDirAll c.files p)
    exact (node?_of_tell hn).imp_right hlog.symm.trans

/-- Cleaning up leaves nothing at the target and below, but the target itself where its path ends in
a dot, and what the log may hold. -/
theorem mem_of_cleanUp (htree : c.files.IsTree) (hup : ['.', '.'] ∉ splitSlashes t)
    (hdown : c.files.place ⟨t⟩ ≠ c.files.start ⟨t⟩)
    (htarget : c.files.isDir ⟨t⟩ ∨ c.files.node? (c.files.place ⟨t⟩) = none)
    (hn : (cleanUp c ⟨t⟩).files.node? l = some n) :
    (c.files.node? l = some n ∧ (c.files.place ⟨t⟩ <+: l →
      l = c.files.place ⟨t⟩ ∧ n = .dir ∧ (splitLast ⟨t⟩).2 = .here)) ∨ c.logPlace? = some l := by
  refine (node?_of_cleanUp hn).imp_left fun hleft ↦ ?_
  obtain ⟨hn, hbelow⟩ := node?_of_removeDirAll hleft
  refine ⟨hn, fun hl ↦ ?_⟩
  rcases htarget with hdir | hnone
  · obtain rfl := hbelow hdir hl
    refine ⟨rfl, Option.some.inj (hn.symm.trans (isDir_iff.mp hdir).2.2), ?_⟩
    by_contra hdot
    obtain ⟨fs', hremove, hgone⟩ := removeDirAll_of_isDir hdir hup hdot hdown
    rw [hremove] at hleft
    cases (hgone _ hl).symm.trans hleft
  · cases (htree.node?_eq_none_below hnone hl).symm.trans hn

/-! ## The whole run -/

/-- **What a failed project leaves.** What is there after a failure and was not there before is a
directory above the target that was missing, the target itself where its path ends in a dot and so
can not be removed, or the log. -/
theorem run_error_leaves (o : Options) (htree : c.files.IsTree)
    (hplain : IsPlain c.files o.directory) {e : InitError} (herror : (run c o).2 = .error e)
    (hnone : c.files.node? l = none) (hn : (run c o).1.files.node? l = some n) :
    (n = .dir ∧ l <+: c.files.place ⟨slashed o.directory⟩ ∧
      (l = c.files.place ⟨slashed o.directory⟩ →
        (splitLast ⟨slashed o.directory⟩).2 = .here)) ∨ c.logPlace? = some l := by
  rcases run_error_cases herror with hsame | ⟨t, hvalid, hmissing, hrun⟩
  · rw [hsame, hnone] at hn
    cases hn
  · rw [hrun] at hn
    rw [← eq_slashed_of_validatePath hvalid]
    have ht := (hplain t hvalid).1
    have hup := up_not_mem_of_missing hplain hvalid hmissing
    have hfree := node?_eq_none_of_missing htree hplain hvalid hmissing (List.prefix_refl _)
    have hstart : c.files.place ⟨t⟩ ≠ c.files.start ⟨t⟩ := fun heq ↦ by
      cases (heq ▸ hfree).symm.trans (htree.node?_start ⟨t⟩)
    have hbuilds := Builds.writeProject c ⟨t⟩ o
    have hplace : (writeProject c ⟨t⟩ o).1.files.place ⟨t⟩ = c.files.place ⟨t⟩ :=
      place_congr hbuilds.working ⟨t⟩
    have hleft := mem_of_cleanUp (hbuilds.tree htree) hup
      (by rwa [hplace, start_congr hbuilds.working])
      (hplace ▸ isDir_or_node?_writeProject htree ht hup (checkPath_of_missing ht hmissing) hfree)
      hn
    rw [hplace, logPlace?_congr hbuilds.logFile hbuilds.working] at hleft
    rcases hleft with ⟨hn, hbelow⟩ | hlog
    · by_cases hl : c.files.place ⟨t⟩ <+: l
      · obtain ⟨rfl, hdir, hdot⟩ := hbelow hl
        exact .inl ⟨hdir, List.prefix_refl _, fun _ ↦ hdot⟩
      · refine (above_or_log_of_writeProject ht hup hl hnone hn).imp_left ?_
        rintro ⟨hdir, habove⟩
        exact ⟨hdir, habove, fun heq ↦ absurd (heq ▸ List.prefix_refl l) hl⟩
    · exact .inr hlog

/-- A project in `a` whose directory has a name that is too long. -/
def overlong : Options :=
  { optionsIn "" with directory := "a/".toList ++ List.replicate 256 'x' }

/-- Below the missing directory, one is left that is above the target. -/
theorem run_error_leaves_overlong :
    (neighbours.files.IsTree ∧ IsPlain neighbours.files overlong.directory ∧
      (run neighbours overlong).2 = .error (.failed ⟨overlong.directory⟩ .nameTooLong) ∧
      neighbours.files.node? ["w".toList, "a".toList] = none ∧
      (run neighbours overlong).1.files.node? ["w".toList, "a".toList] = some .dir) ∧
      ["w".toList, "a".toList] <+:
        neighbours.files.place ⟨slashed overlong.directory⟩ := by
  have htree : neighbours.files.IsTree := by decide
  have hplain : IsPlain neighbours.files overlong.directory := by decide +kernel
  have herror : (run neighbours overlong).2 =
      .error (.failed ⟨overlong.directory⟩ .nameTooLong) := by decide +kernel
  have hnone : neighbours.files.node? ["w".toList, "a".toList] = none := by decide
  have hleft : (run neighbours overlong).1.files.node? ["w".toList, "a".toList] =
      some .dir := by decide +kernel
  refine ⟨⟨htree, hplain, herror, hnone, hleft⟩, ?_⟩
  rcases run_error_leaves _ htree hplain herror hnone hleft with ⟨-, habove, -⟩ | hlog
  · exact habove
  · cases hlog

/-- The directories that are made above a target are not taken back. -/
theorem not_forall_nothing_left :
    ¬∀ (c : Console) (o : Options) (e : InitError) (l : Location), c.files.IsTree →
      c.logFile = none → IsPlain c.files o.directory →
        (splitLast ⟨slashed o.directory⟩).2 ≠ .here → (run c o).2 = .error e →
          c.files.node? l = none → (run c o).1.files.node? l = none := by
  intro h
  have hnone := h neighbours overlong (.failed ⟨overlong.directory⟩ .nameTooLong)
    ["w".toList, "a".toList] (by decide) rfl (by decide +kernel) (by decide +kernel)
    (by decide +kernel) (by decide)
  exact absurd hnone (by decide +kernel)

end Scaffold

end PluginPack
