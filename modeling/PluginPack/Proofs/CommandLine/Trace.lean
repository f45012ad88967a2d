import PluginPack.CommandLine.Run
import PluginPack.Proofs.Console.Run

/-!
# What a run leaves besides messages

A console keeps the files and the log apart from what is shown on the screen, and from how verbose
it is. Two consoles that agree on the former go on agreeing whatever is done with them, and every
operation ends for both in the same way: only what is shown is decided by the verbosity. So a
command leaves the same files, the same log and the same error behind however loud it is.
-/

namespace PluginPack

open Text

namespace Console

/-- Two consoles differ at most in how verbose they are and in what they have shown. -/
structure SameTraces (c c' : Console) : Prop where
  files : c'.files = c.files
  stamp : c'.stamp = c.stamp
  logFile : c'.logFile = c.logFile

variable {c c' d d' : Console}

namespace SameTraces

theorem refl (c : Console) : SameTraces c c := ⟨rfl, rfl, rfl⟩

theorem withFiles (h : SameTraces c c') (fs : FileSystem) :
    SameTraces { c with files := fs } { c' with files := fs } := ⟨rfl, h.stamp, h.logFile⟩

/-- What is written to the log does not depend on the verbosity. -/
theorem log (h : SameTraces c c') (line : Text) : SameTraces (c.log line) (c'.log line) := by
  unfold Console.log
  rw [h.files, h.stamp, h.logFile]
  split
  · exact h
  · split
    · exact ⟨rfl, rfl, rfl⟩
    · exact h

theorem tell (h : SameTraces c c') (level : Level) (message : Text) :
    SameTraces (c.tell level message) (c'.tell level message) := by
  have hlog := h.log (level.logMark ++ message)
  rw [tell_eq, tell_eq]
  split_ifs
  · exact ⟨hlog.files, hlog.stamp, hlog.logFile⟩
  · exact ⟨hlog.files, hlog.stamp, hlog.logFile⟩
  · exact ⟨hlog.files, hlog.stamp, hlog.logFile⟩
  · exact hlog

theorem announce (h : SameTraces c c') (message : Text) :
    SameTraces (c.announce message) (c'.announce message) := h.log _

/-- What is printed leaves no other traces. -/
theorem printAll (c : Console) (ls : List Text) : SameTraces c (CommandLine.printAll c ls) := by
  induction ls generalizing c with
  | nil => exact .refl c
  | cons l ls ih =>
    have hrest := ih (c.print l)
    exact ⟨hrest.files, hrest.stamp, hrest.logFile⟩

theorem showLogFile (c : Console) (env : Environment) : SameTraces c (c.showLogFile env) := by
  unfold Console.showLogFile
  split
  · exact ⟨rfl, rfl, rfl⟩
  · exact ⟨rfl, rfl, rfl⟩
  · exact ⟨rfl, rfl, rfl⟩

theorem symm (h : SameTraces c c') : SameTraces c' c :=
  ⟨h.files.symm, h.stamp.symm, h.logFile.symm⟩

theorem trans (h : SameTraces c c') (h' : SameTraces c' d) : SameTraces c d :=
  ⟨h'.files.trans h.files, h'.stamp.trans h.stamp, h'.logFile.trans h.logFile⟩

end SameTraces

/-- Two operations end in the same way, with the same traces. -/
structure SameEnd {α : Type} (r r' : Console × α) : Prop where
  traces : SameTraces r.1 r'.1
  result : r'.2 = r.2

theorem SameEnd.exists_eq {α : Type} {r r' : Console × α} {a : α} (h : SameEnd r r')
    (hr : r = (d, a)) : ∃ d', r' = (d', a) ∧ SameTraces d d' := by
  subst hr
  exact ⟨r'.1, Prod.ext rfl h.result, h.traces⟩

/-- Beginning a log does not depend on the verbosity, neither on the old one nor on the new one. -/
theorem sameEnd_openDefaultLog (h : SameTraces c c') (env : Environment) (n n' : Nat) :
    SameEnd (c.openDefaultLog env n) (c'.openDefaultLog env n') := by
  unfold openDefaultLog
  cases env.directory with
  | none => exact ⟨⟨h.files, h.stamp, h.logFile⟩, rfl⟩
  | some dir =>
    simp only [openLog, setVerbosity, h.files]
    split
    · exact ⟨⟨rfl, h.stamp, h.logFile⟩, rfl⟩
    · exact ⟨⟨rfl, h.stamp, rfl⟩, rfl⟩

end Console

open Console

variable {c c' : Console}

/-! ## Making a project -/

namespace Scaffold

theorem sameEnd_writeSteps (h : SameTraces c c') (files : List (Path × Text × Text)) :
    SameEnd (writeSteps c files) (writeSteps c' files) := by
  induction files generalizing c c' with
  | nil => exact ⟨h, rfl⟩
  | cons f files ih =>
    obtain ⟨p, content, shown⟩ := f
    rw [writeSteps, writeSteps, writeStep, writeStep, h.files]
    cases c.files.writeFile p (.text content) with
    | error e => exact ⟨h, rfl⟩
    | ok fs => exact ih ((h.withFiles fs).tell .step _)

theorem sameEnd_writeProject (h : SameTraces c c') (target : Path) (o : Options) :
    SameEnd (writeProject c target o) (writeProject c' target o) := by
  unfold writeProject
  rw [h.files]
  split
  · exact ⟨h.withFiles _, rfl⟩
  · exact sameEnd_writeSteps (h.withFiles _) _

theorem sameTraces_cleanUp (h : SameTraces c c') (target : Path) :
    SameTraces (cleanUp c target) (cleanUp c' target) := by
  unfold cleanUp
  rw [h.files]
  split
  · exact h.withFiles _
  · exact (h.withFiles _).tell .debug _

theorem sameEnd_run (h : SameTraces c c') (o : Options) : SameEnd (run c o) (run c' o) := by
  unfold run
  cases validatePath o.directory with
  | error e => exact ⟨h, rfl⟩
  | ok t =>
    simp only [h.files]
    split
    · exact ⟨h, rfl⟩
    · exact ⟨h, rfl⟩
    · have hproject := sameEnd_writeProject h ⟨t⟩ o
      split
      · next d u hd =>
        obtain ⟨d', hd', htraces⟩ := hproject.exists_eq hd
        rw [hd']
        exact ⟨htraces, rfl⟩
      · next d e hd =>
        obtain ⟨d', hd', htraces⟩ := hproject.exists_eq hd
        rw [hd']
        exact ⟨sameTraces_cleanUp htraces ⟨t⟩, rfl⟩
    · exact ⟨h, rfl⟩

end Scaffold

/-! ## Commands -/

namespace CommandLine

variable {env : Environment}

theorem sameTraces_report (h : SameTraces c c') (q q' : Bool) (ls : List Text) :
    SameTraces (if q then c else printAll c ls) (if q' then c' else printAll c' ls) := by
  have hprint : ∀ (q : Bool) (c : Console), SameTraces c (if q then c else printAll c ls) := by
    intro q c
    split
    · exact .refl c
    · exact .printAll c ls
  exact (hprint q c).symm.trans (h.trans (hprint q' c'))

theorem sameTraces_reportBuild (h : SameTraces c c') (l l' : Loudness) (s : Build.Summary) :
    SameTraces (reportBuild c l s) (reportBuild c' l' s) := by
  unfold reportBuild
  refine sameTraces_report (.tell ?_ .info _) l.quiet l'.quiet _
  split
  · exact h.tell .warning _
  · exact h

theorem sameEnd_runBuild (h : SameTraces c c') (l l' : Loudness) (project : Path)
    (output : Option Path) :
    SameEnd (runBuild c l project output) (runBuild c' l' project output) := by
  have hbegun := (h.tell .debug ("Project: ".toList ++ project.text ++ ", output: ".toList ++
    (output.getD project).text)).announce ("Building ".toList ++ project.text)
  unfold runBuild
  simp only [hbegun.files]
  split
  · exact ⟨hbegun.withFiles _, rfl⟩
  · exact ⟨sameTraces_reportBuild (hbegun.withFiles _) l l' _, rfl⟩

theorem sameEnd_defaults (h : SameTraces c c') (env : Environment) :
    SameEnd (defaults c env) (defaults c' env) := by
  unfold defaults
  rw [h.files]
  split
  · exact ⟨h, rfl⟩
  · exact ⟨h.tell .warning _, rfl⟩

theorem sameEnd_complete (h : SameTraces c c') (r : Scaffold.Request) (config : Config) :
    SameEnd (complete c r config) (complete c' r config) := by
  unfold complete
  split
  · exact ⟨h, rfl⟩
  · split
    · exact ⟨h, rfl⟩
    · exact ⟨h.tell .warning _, rfl⟩

theorem sameEnd_runInit (h : SameTraces c c') (l l' : Loudness) (r : Scaffold.Request) :
    SameEnd (runInit c env l r) (runInit c' env l' r) := by
  have hdefaults := sameEnd_defaults (h.tell .debug "Handling init command".toList) env
  unfold runInit
  rcases hd : defaults (c.tell .debug "Handling init command".toList) env with ⟨d, config⟩
  obtain ⟨d', hd', htraces⟩ := hdefaults.exists_eq hd
  rw [hd']
  have hcomplete := sameEnd_complete htraces r config
  rcases hx : complete d r config with ⟨x, e | o⟩
  · obtain ⟨x', hx', htraces⟩ := hcomplete.exists_eq hx
    simp only [hx, hx']
    exact ⟨htraces, rfl⟩
  · obtain ⟨x', hx', htraces⟩ := hcomplete.exists_eq hx
    have hproject := Scaffold.sameEnd_run htraces o
    rcases hy : Scaffold.run x o with ⟨y, e | target⟩
    · obtain ⟨y', hy', htraces⟩ := hproject.exists_eq hy
      simp only [hx, hx', hy, hy']
      exact ⟨htraces, rfl⟩
    · obtain ⟨y', hy', htraces⟩ := hproject.exists_eq hy
      simp only [hx, hx', hy, hy']
      exact ⟨sameTraces_report (htraces.tell .success _) l.quiet l'.quiet _, rfl⟩

theorem sameEnd_runShowConfig (h : SameTraces c c') (l l' : Loudness) :
    SameEnd (runShowConfig c env l) (runShowConfig c' env l') := by
  unfold runShowConfig
  rw [h.files]
  split
  · exact ⟨h, rfl⟩
  · exact ⟨(SameTraces.printAll c _).symm.trans (h.trans (.printAll c' _)), rfl⟩

theorem sameEnd_runShowConfigPath (h : SameTraces c c') :
    SameEnd (runShowConfigPath c env) (runShowConfigPath c' env) := by
  unfold runShowConfigPath
  split
  · exact ⟨h, rfl⟩
  · exact ⟨⟨h.files, h.stamp, h.logFile⟩, rfl⟩

/-- A command does the same however loud it is. -/
theorem sameEnd_runCommand (h : SameTraces c c') (env : Environment) (l l' : Loudness)
    (command : Command) :
    SameEnd (runCommand c env l command) (runCommand c' env l' command) := by
  cases command with
  | build project output => exact sameEnd_runBuild h l l' project output
  | init r => exact sameEnd_runInit h l l' r
  | showConfig => exact sameEnd_runShowConfig h l l'
  | showConfigPath => exact sameEnd_runShowConfigPath h

/-! ## Runs -/

/-- Two runs end in the same way and leave the same files and the same log. -/
structure SameOutcome (r r' : Outcome) : Prop where
  succeeded : r'.succeeded = r.succeeded
  traces : SameTraces r.console r'.console

theorem sameTraces_beginLog (h : SameTraces c c') (env : Environment) (n n' : Nat) :
    SameTraces (beginLog c env n) (beginLog c' env n') := by
  have hlog := sameEnd_openDefaultLog h env n n'
  unfold beginLog
  split
  · next d u hd =>
    obtain ⟨d', hd', htraces⟩ := hlog.exists_eq hd
    rw [hd']
    exact htraces
  · next d e hd =>
    obtain ⟨d', hd', htraces⟩ := hlog.exists_eq hd
    rw [hd']
    exact ⟨htraces.files, htraces.stamp, htraces.logFile⟩

/-- What is asked for is done in the same way however loud it is to be done. -/
theorem sameOutcome_runInvocation (h : SameTraces c c') (env : Environment) {i i' : Invocation}
    (hcommand : i'.command = i.command) :
    SameOutcome (runInvocation c env i) (runInvocation c' env i') := by
  have hbegun := sameTraces_beginLog h env i.loudness.verbosity i'.loudness.verbosity
  unfold runInvocation
  rw [hcommand]
  cases i.command with
  | none => exact ⟨rfl, hbegun.files, hbegun.stamp, hbegun.logFile⟩
  | some command =>
    have hdone := sameEnd_runCommand hbegun env i.loudness i'.loudness command
    rcases hd : runCommand (beginLog c env i.loudness.verbosity) env i.loudness command with
      ⟨d, e | u⟩
    · obtain ⟨d', hd', htraces⟩ := hdone.exists_eq hd
      simp only [hd, hd']
      have htold := htraces.tell .error e.message
      exact ⟨rfl, (SameTraces.showLogFile _ env).symm.trans (htold.trans (.showLogFile _ env))⟩
    · obtain ⟨d', hd', htraces⟩ := hdone.exists_eq hd
      simp only [hd, hd']
      exact ⟨rfl, htraces⟩

end CommandLine

end PluginPack
