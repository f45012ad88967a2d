import PluginPack.Console
import PluginPack.Proofs.FileSystem.Directory

/-!
# Runs of a console

A program calls its console at one moment after another. A call either begins a log, or writes a
line to the log, or touches no file; this is all that a run needs to know about its steps.
-/

namespace PluginPack.Console

open Text PluginPack.Path FileSystem

/-! ## Runs -/

/-- What a program can ask of its console. -/
inductive Call where
  | openLog (dir : Path)
  | openDefaultLog (verbosity : Nat)
  | setVerbosity (n : Nat)
  | tell (level : Level) (message : Text)
  | announce (message : Text)
  /-- Ends the work that was announced. Nothing was drawn for it, so there is nothing to remove. -/
  | endWork
  | showLogFile
deriving DecidableEq, Repr

namespace Call

/-- What a call does, and whether it fails. -/
def run (env : Environment) (c : Console) : Call → Console × Except LogError Unit
  | .openLog dir => c.openLog dir
  | .openDefaultLog n => c.openDefaultLog env n
  | .setVerbosity n => (c.setVerbosity n, .ok ())
  | .tell level message => (c.tell level message, .ok ())
  | .announce message => (c.announce message, .ok ())
  | .endWork => (c, .ok ())
  | .showLogFile => (c.showLogFile env, .ok ())

/-- The directory that a call begins a log in. -/
def logDirectory? (env : Environment) : Call → Option Path
  | .openLog dir => some dir
  | .openDefaultLog _ => env.directory
  | _ => none

/-- The line that a call adds to the log, without its time stamp. -/
def entry? : Call → Option Text
  | .tell level message => some (level.logMark ++ message)
  | .announce message => some (Level.step.logMark ++ message)
  | _ => none

/-- The verbosity behind a call. -/
def verbosityAfter (v : Nat) : Call → Nat
  | .openDefaultLog n => n
  | .setVerbosity n => n
  | _ => v

/-- Two calls differ at most in the verbosity that they set. -/
inductive SameButVerbosity : Call → Call → Prop
  | openDefaultLog (n m : Nat) : SameButVerbosity (.openDefaultLog n) (.openDefaultLog m)
  | setVerbosity (n m : Nat) : SameButVerbosity (.setVerbosity n) (.setVerbosity m)
  | same (call : Call) : SameButVerbosity call call

end Call

/-- A call, and the time stamp of its moment. -/
structure Event where
  stamp : Text
  call : Call
deriving DecidableEq, Repr

namespace Event

def run (env : Environment) (c : Console) (e : Event) : Console × Except LogError Unit :=
  e.call.run env { c with stamp := e.stamp }

/-- The event begins a log in a directory, with success. -/
def Opens (env : Environment) (c : Console) (e : Event) (dir : Path) : Prop :=
  e.call.logDirectory? env = some dir ∧ (e.run env c).2 = .ok ()

/-- The time stamp and the line that an event adds to the log. -/
def entry? (e : Event) : Option (Text × Text) := e.call.entry?.map fun line ↦ (e.stamp, line)

end Event

/-- The console behind a run. -/
def after (c : Console) (env : Environment) (es : List Event) : Console :=
  es.foldl (fun c e ↦ (e.run env c).1) c

/-- No event of a run begins a log. -/
def NoneOpens (env : Environment) (c : Console) (es : List Event) : Prop :=
  ∀ pre e post, es = pre ++ e :: post → ∀ dir, ¬e.Opens env (c.after env pre) dir

variable {env : Environment} {c : Console} {e : Event} {es : List Event} {l : Location}

theorem after_cons (c : Console) (env : Environment) (e : Event) (es : List Event) :
    c.after env (e :: es) = (e.run env c).1.after env es := rfl

theorem noneOpens_cons_iff :
    NoneOpens env c (e :: es) ↔
      (∀ dir, ¬e.Opens env c dir) ∧ NoneOpens env (e.run env c).1 es := by
  constructor
  · intro h
    refine ⟨h [] e es rfl, fun pre e' post hes ↦ ?_⟩
    rw [hes] at h
    exact h (e :: pre) e' post rfl
  · rintro ⟨hfirst, hrest⟩ pre e' post hes
    rcases pre with _ | ⟨x, pre⟩
    · obtain ⟨rfl, -⟩ := List.cons.inj hes
      exact hfirst
    · obtain ⟨rfl, rfl⟩ := List.cons.inj hes
      exact hrest pre e' post rfl

instance (env : Environment) (c : Console) (e : Event) : Decidable (∀ dir, ¬e.Opens env c dir) :=
  decidable_of_iff (∀ dir ∈ e.call.logDirectory? env, (e.run env c).2 ≠ .ok ())
    ⟨fun h dir hopens ↦ h dir hopens.1 hopens.2, fun h dir hdir hok ↦ h dir ⟨hdir, hok⟩⟩

instance decidableNoneOpens (env : Environment) :
    (c : Console) → (es : List Event) → Decidable (NoneOpens env c es)
  | _, [] => isTrue fun _ _ _ hes ↦ absurd hes (by simp)
  | c, e :: es =>
    have := decidableNoneOpens env (e.run env c).1 es
    decidable_of_iff _ noneOpens_cons_iff.symm

/-! ## What one call changes -/

/-- Writing a line to the log changes nothing but files. -/
theorem log_eq (c : Console) (line : Text) :
    c.log line = { c with files := (c.log line).files } := by
  unfold log
  split
  · rfl
  · split
    · rfl
    · rfl

@[simp] theorem logFile_log (c : Console) (line : Text) : (c.log line).logFile = c.logFile := by
  rw [log_eq]

@[simp] theorem verbosity_log (c : Console) (line : Text) :
    (c.log line).verbosity = c.verbosity := by
  rw [log_eq]

@[simp] theorem output_log (c : Console) (line : Text) : (c.log line).output = c.output := by
  rw [log_eq]

@[simp] theorem errors_log (c : Console) (line : Text) : (c.log line).errors = c.errors := by
  rw [log_eq]

theorem tell_eq (c : Console) (level : Level) (message : Text) :
    c.tell level message = if level.threshold ≤ c.verbosity then
      (c.log (level.logMark ++ message)).printError (level.screenMark ++ message)
    else c.log (level.logMark ++ message) := by
  rw [← verbosity_log c (level.logMark ++ message)]
  rfl

theorem files_tell (c : Console) (level : Level) (message : Text) :
    (c.tell level message).files = (c.log (level.logMark ++ message)).files := by
  rw [tell_eq]
  split_ifs
  · rfl
  · rfl

theorem logFile_tell (c : Console) (level : Level) (message : Text) :
    (c.tell level message).logFile = c.logFile := by
  rw [tell_eq]
  split_ifs
  · exact logFile_log c _
  · exact logFile_log c _

theorem files_showLogFile (c : Console) (env : Environment) :
    (c.showLogFile env).files = c.files := by
  unfold showLogFile
  split
  · rfl
  · rfl
  · rfl

theorem logFile_showLogFile (c : Console) (env : Environment) :
    (c.showLogFile env).logFile = c.logFile := by
  unfold showLogFile
  split
  · rfl
  · rfl
  · rfl

/-- A line that is written to the log leaves every directory where it is. -/
theorem node?_eq_dir_log (c : Console) (line : Text) :
    (c.log line).files.node? l = some .dir ↔ c.files.node? l = some .dir := by
  unfold log
  split
  · rfl
  · split
    · next fs happend =>
      obtain ⟨hsite, hdir, -, rfl⟩ := writeFile_eq_ok_iff.mp happend
      rw [node?_setNode _ _ hsite.place_ne_nil]
      split_ifs with hl
      · subst hl
        simp [hdir]
      · rfl
    · rfl

theorem workingDirectory_log (c : Console) (line : Text) :
    (c.log line).files.workingDirectory = c.files.workingDirectory := by
  unfold log
  split
  · rfl
  · split
    · next fs happend => exact workingDirectory_of_writeFile happend
    · rfl

/-- How beginning a log ends. -/
theorem openLog_cases (c : Console) (dir : Path) :
    (∃ fs error, c.files.makeDirs dir = (fs, .error error) ∧
      c.openLog dir = ({ c with files := fs }, .error (.noDirectory error))) ∨
    ∃ fs, c.files.makeDirs dir = (fs, .ok ()) ∧
      c.openLog dir = ({ c with
        files := (fs.removeFile (dir.join logName)).toOption.getD fs
        logFile := some (dir.join logName) }, .ok ()) := by
  unfold openLog
  split
  · next fs error h => exact .inl ⟨fs, error, h, rfl⟩
  · next fs u h => exact .inr ⟨fs, h, rfl⟩

/-- A call begins a log in the directory that it has for it, or does not touch any directory. -/
theorem Event.run_cases (env : Environment) (c : Console) (e : Event) :
    (∃ dir n, e.call.logDirectory? env = some dir ∧
      e.run env c = ({ c with stamp := e.stamp, verbosity := n }.openLog dir) ∧
      e.call.entry? = none) ∨
    (∃ line, e.call.entry? = some line ∧ e.call.logDirectory? env = none ∧
      (e.run env c).1.logFile = c.logFile ∧
      (e.run env c).1.files = ({ c with stamp := e.stamp }.log line).files) ∨
    (e.call.entry? = none ∧ e.call.logDirectory? env = none ∧
      (e.run env c).1.logFile = c.logFile ∧ (e.run env c).1.files = c.files) := by
  obtain ⟨stamp, call⟩ := e
  cases call with
  | openLog dir => exact .inl ⟨dir, c.verbosity, rfl, rfl, rfl⟩
  | openDefaultLog n =>
    cases hdir : env.directory with
    | some dir =>
      refine .inl ⟨dir, n, hdir, ?_, rfl⟩
      simp only [run, Call.run, openDefaultLog, hdir]
      rfl
    | none =>
      refine .inr (.inr ⟨rfl, hdir, ?_⟩)
      simp only [run, Call.run, openDefaultLog, hdir]
      exact ⟨rfl, rfl⟩
  | setVerbosity n => exact .inr (.inr ⟨rfl, rfl, rfl, rfl⟩)
  | tell level message =>
    exact .inr (.inl ⟨_, rfl, rfl, logFile_tell _ level message, files_tell _ level message⟩)
  | announce message => exact .inr (.inl ⟨_, rfl, rfl, logFile_log _ _, rfl⟩)
  | endWork => exact .inr (.inr ⟨rfl, rfl, rfl, rfl⟩)
  | showLogFile =>
    exact .inr (.inr ⟨rfl, rfl, logFile_showLogFile _ env, files_showLogFile _ env⟩)

end PluginPack.Console
