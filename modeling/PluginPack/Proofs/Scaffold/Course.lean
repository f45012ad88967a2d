import PluginPack.Scaffold.Basic

/-!
# The course of making a project

What a run does to the console, told once: the directories are made, the files of the project are
written one after the other, each with a message, and after a failure the target is removed. What
holds before and is kept by each of these steps holds when the run is over. The steps are taken as
they are written down: it is not used that, in file systems without permissions, only the manifest
among the files can fail to be written.
-/

namespace PluginPack.Scaffold

variable {c : Console} {o : Options} {target : Path} {P : Console → Prop}

/-- The console after the directories of a project have been made, as far as they can be made. -/
def withDirs (c : Console) (target : Path) : Console :=
  { c with files := (c.files.makeDirs (target.join ⟨"src".toList⟩)).1 }

/-- The console after a file of a project has been written. -/
def withFile (c : Console) (fs : FileSystem) (shown : Text) : Console :=
  { c with files := fs }.tell .step ("Created ".toList ++ shown)

theorem writeSteps_induction {files : List (Path × Text × Text)} (hc : P c)
    (hwrite : ∀ d, P d → ∀ f ∈ files, ∀ fs, d.files.writeFile f.1 (.text f.2.1) = .ok fs →
      P (withFile d fs f.2.2)) :
    P (writeSteps c files).1 := by
  induction files generalizing c with
  | nil => exact hc
  | cons f files ih =>
    obtain ⟨p, content, shown⟩ := f
    rw [writeSteps, writeStep]
    cases hfile : c.files.writeFile p (.text content) with
    | error e => exact hc
    | ok fs =>
      exact ih (hwrite c hc _ List.mem_cons_self fs hfile)
        fun d hd f hf ↦ hwrite d hd f (List.mem_cons_of_mem _ hf)

/-- A project is given up when its directories can not be made, or else its files are written. -/
theorem writeProject_cases (c : Console) (target : Path) (o : Options) :
    (writeProject c target o).1 = withDirs c target ∨
      c.files.makeDirs (target.join ⟨"src".toList⟩) = ((withDirs c target).files, .ok ()) ∧
        writeProject c target o = writeSteps (withDirs c target) (files target o) := by
  rw [writeProject, withDirs]
  rcases c.files.makeDirs (target.join ⟨"src".toList⟩) with ⟨fs, e | u⟩
  · exact .inl rfl
  · exact .inr ⟨rfl, rfl⟩

theorem writeProject_induction (hdirs : P (withDirs c target))
    (hwrite : ∀ d, P d → ∀ f ∈ files target o, ∀ fs,
      d.files.writeFile f.1 (.text f.2.1) = .ok fs → P (withFile d fs f.2.2)) :
    P (writeProject c target o).1 := by
  rcases writeProject_cases c target o with heq | ⟨-, heq⟩
  · rwa [heq]
  · rw [heq]
    exact writeSteps_induction hdirs hwrite

/-- Cleaning up removes the target, and tells of it when it can not be removed. -/
theorem cleanUp_cases (c : Console) (target : Path) :
    cleanUp c target = { c with files := (c.files.removeDirAll target).1 } ∨
      ∃ message, cleanUp c target =
        { c with files := (c.files.removeDirAll target).1 }.tell .debug message := by
  rw [cleanUp]
  rcases c.files.removeDirAll target with ⟨fs, e | u⟩
  · exact .inr ⟨_, rfl⟩
  · exact .inl rfl

/-- A run is refused before anything is written, or it writes a project where nothing is found, and
cleans up when this fails. -/
theorem run_cases (c : Console) (o : Options) :
    (run c o).1 = c ∨ ∃ t, validatePath o.directory = .ok t ∧
      c.files.locate ⟨t⟩ = .error .notFound ∧
        ((run c o).1 = (writeProject c ⟨t⟩ o).1 ∧ (run c o).2 = .ok ⟨t⟩ ∨
          (run c o).1 = cleanUp (writeProject c ⟨t⟩ o).1 ⟨t⟩) := by
  cases hvalid : validatePath o.directory with
  | error e =>
    rw [run, hvalid]
    exact .inl rfl
  | ok t =>
    rw [run, hvalid]
    simp only
    split
    · exact .inl rfl
    · exact .inl rfl
    · next hmissing =>
      refine .inr ⟨t, rfl, hmissing, ?_⟩
      rcases writeProject c ⟨t⟩ o with ⟨d, e | u⟩
      · exact .inr rfl
      · exact .inl ⟨rfl, rfl⟩
    · exact .inl rfl

/-- A failure comes before anything is written, or is followed by cleaning up. -/
theorem run_error_cases {e : InitError} (herror : (run c o).2 = .error e) :
    (run c o).1 = c ∨ ∃ t, validatePath o.directory = .ok t ∧
      c.files.locate ⟨t⟩ = .error .notFound ∧
        (run c o).1 = cleanUp (writeProject c ⟨t⟩ o).1 ⟨t⟩ := by
  refine (run_cases c o).imp_right ?_
  rintro ⟨t, hvalid, hmissing, ⟨-, hok⟩ | hclean⟩
  · rw [herror] at hok
    cases hok
  · exact ⟨t, hvalid, hmissing, hclean⟩

end PluginPack.Scaffold
