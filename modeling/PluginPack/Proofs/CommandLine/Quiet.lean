import PluginPack.Proofs.CommandLine.Flags
import PluginPack.Proofs.Console.Transcript
import PluginPack.Proofs.Scaffold.Course

/-!
# Quiet runs

A console whose verbosity is zero shows warnings, errors and successes. Of these a build that comes
to its end gives warnings alone, and a new project gives one success besides: the message that it
was made. Both keep what they report on the output stream to themselves when they are to be quiet,
so there stands nothing but what a command line asks for in the place of a command.
-/

namespace PluginPack

open Text

namespace Console

/-- The lines of warnings on the error stream. -/
def warningLines (warnings : List Text) : Text :=
  warnings.flatMap fun w ↦ Level.warning.screenMark ++ w ++ ['\n']

/-- Between two moments a console has shown warnings at most, and is as verbose as it was. -/
structure Warned (c c' : Console) : Prop where
  output : c'.output = c.output
  verbosity : c'.verbosity = c.verbosity
  errors : ∃ warnings, c'.errors = c.errors ++ warningLines warnings

variable {c c' d : Console}

theorem output_tell (c : Console) (level : Level) (message : Text) :
    (c.tell level message).output = c.output := by
  rw [tell_eq]
  split_ifs
  · exact output_log c _
  · exact output_log c _

theorem output_openLog (c : Console) (dir : Path) : (c.openLog dir).1.output = c.output := by
  obtain ⟨fs, error, -, heq⟩ | ⟨fs, -, heq⟩ := openLog_cases c dir
  · rw [heq]
  · rw [heq]

theorem output_openDefaultLog (c : Console) (env : Environment) (n : Nat) :
    (c.openDefaultLog env n).1.output = c.output := by
  rw [openDefaultLog]
  cases env.directory with
  | none => rfl
  | some dir => exact output_openLog (c.setVerbosity n) dir

namespace Warned

theorem trans (h : Warned c c') (h' : Warned c' d) : Warned c d where
  output := h'.output.trans h.output
  verbosity := h'.verbosity.trans h.verbosity
  errors := by
    obtain ⟨ws, hws⟩ := h.errors
    obtain ⟨ws', hws'⟩ := h'.errors
    refine ⟨ws ++ ws', ?_⟩
    rw [hws', hws, List.append_assoc, warningLines, warningLines, warningLines,
      List.flatMap_append]

theorem withFiles (h : Warned c c') (fs : FileSystem) : Warned c { c' with files := fs } :=
  ⟨h.output, h.verbosity, h.errors⟩

theorem log (h : Warned c c') (line : Text) : Warned c (c'.log line) where
  output := (output_log c' line).trans h.output
  verbosity := (verbosity_log c' line).trans h.verbosity
  errors := by
    rw [errors_log]
    exact h.errors

theorem warn (h : Warned c c') (message : Text) : Warned c (c'.tell .warning message) :=
  h.trans ⟨output_tell c' _ message, verbosity_tell c' _ message, [message],
    by simp [tell_eq, Level.threshold, printError, warningLines]⟩

/-- A message that the verbosity does not let through goes to the log alone. -/
theorem tell (h : Warned c c') (level : Level) (hc : c.verbosity = 0) (message : Text)
    (hlevel : 0 < level.threshold) : Warned c (c'.tell level message) := by
  have hc' : c'.verbosity = 0 := h.verbosity.trans hc
  rw [tell_eq, if_neg (by omega)]
  exact h.log _

end Warned

end Console

open Console

variable {c c' d : Console}

/-! ## Making a project -/

namespace Scaffold

theorem warned_writeProject (h : Warned c c') (hc : c.verbosity = 0) (target : Path)
    (o : Options) : Warned c (writeProject c' target o).1 :=
  writeProject_induction (h.withFiles _) fun _ hd _ _ fs _ ↦
    (hd.withFiles fs).tell _ hc _ (by decide)

theorem warned_cleanUp (h : Warned c c') (hc : c.verbosity = 0) (target : Path) :
    Warned c (cleanUp c' target) := by
  rcases cleanUp_cases c' target with heq | ⟨message, heq⟩
  · rw [heq]
    exact h.withFiles _
  · rw [heq]
    exact (h.withFiles _).tell _ hc _ (by decide)

/-- Making a project is silent as long as nobody wants to know more. -/
theorem warned_run (h : Warned c c') (hc : c.verbosity = 0) (o : Options) :
    Warned c (run c' o).1 := by
  rcases run_cases c' o with heq | ⟨t, -, -, ⟨heq, -⟩ | heq⟩
  · rwa [heq]
  · rw [heq]
    exact warned_writeProject h hc ⟨t⟩ o
  · rw [heq]
    exact warned_cleanUp (warned_writeProject h hc ⟨t⟩ o) hc _

end Scaffold

/-! ## Commands -/

namespace CommandLine

variable {env : Environment} {l : Loudness}

theorem warned_beginLog (c : Console) (env : Environment) :
    Warned { c with verbosity := 0 } (beginLog c env 0) := by
  have hopen : Warned { c with verbosity := 0 } (c.openDefaultLog env 0).1 := by
    obtain ⟨herrors, hverbosity⟩ := errors_openDefaultLog c env 0
    exact ⟨output_openDefaultLog c env 0, hverbosity, [], herrors.trans (List.append_nil _).symm⟩
  unfold beginLog
  split
  · next d _ hd =>
    rw [hd] at hopen
    exact hopen
  · next d e hd =>
    rw [hd] at hopen
    have hmark : "Warning: Failed to initialize logger: ".toList =
        Level.warning.screenMark ++ "Failed to initialize logger: ".toList := by decide
    refine hopen.trans ⟨rfl, rfl, ["Failed to initialize logger: ".toList ++ e.message], ?_⟩
    rw [printError, hmark, warningLines, List.flatMap_singleton]
    simp only [List.append_assoc]

theorem warned_reportBuild (h : Warned c c') (hc : c.verbosity = 0) (hquiet : l.quiet = true)
    (s : Build.Summary) : Warned c (reportBuild c' l s) := by
  unfold reportBuild
  rw [if_pos hquiet]
  refine Warned.tell ?_ _ hc _ (by decide)
  split
  · exact h.warn _
  · exact h

/-- A quiet build warns at most. -/
theorem warned_runBuild (h : Warned c c') (hc : c.verbosity = 0) (hquiet : l.quiet = true)
    (project : Path) (output : Option Path) :
    Warned c (runBuild c' l project output).1 := by
  have hbegun := (h.tell .debug hc ("Project: ".toList ++ project.text ++
    ", output: ".toList ++ (output.getD project).text) (by decide)).log
      (Level.step.logMark ++ ("Building ".toList ++ project.text))
  unfold runBuild
  dsimp only
  split
  · exact hbegun.withFiles _
  · exact warned_reportBuild (hbegun.withFiles _) hc hquiet _

theorem warned_defaults (h : Warned c c') (env : Environment) :
    Warned c (defaults c' env).1 := by
  unfold defaults
  split
  · exact h
  · exact h.warn _

theorem warned_complete (h : Warned c c') (r : Scaffold.Request) (config : Config) :
    Warned c (complete c' r config).1 := by
  unfold complete
  split
  · exact h
  · split
    · exact h
    · exact h.warn _

theorem name?_of_complete {x : Console} {r : Scaffold.Request} {config : Config}
    {o : Scaffold.Options} (h : complete c r config = (x, .ok o)) : r.name? = some o.name := by
  rw [complete, Scaffold.Request.resolve] at h
  cases hname : r.name? with
  | none =>
    rw [hname] at h
    simp at h
  | some name =>
    rw [hname] at h
    dsimp only at h
    split at h
    · cases h
      rfl
    · cases h
      rfl

/-- A quiet project warns at most before it says that it was made. -/
theorem warned_runInit (h : Warned c c') (hc : c.verbosity = 0) (hquiet : l.quiet = true)
    {r : Scaffold.Request} (hrun : runInit c' env l r = (d, .ok ())) :
    ∃ x name, Warned c x ∧ r.name? = some name ∧
      d = x.tell .success ("Created plugin package: ".toList ++ name) := by
  have hdefaults := warned_defaults (h.tell .debug hc "Handling init command".toList
    (by decide)) env
  unfold runInit at hrun
  rcases hx : defaults (c'.tell .debug "Handling init command".toList) env with ⟨x, config⟩
  rw [hx] at hdefaults hrun
  have hcomplete := warned_complete hdefaults r config
  rcases hy : complete x r config with ⟨y, e | o⟩
  · simp [hy] at hrun
  · rw [hy] at hcomplete
    have hproject := Scaffold.warned_run hcomplete hc o
    rcases hz : Scaffold.run y o with ⟨z, e | target⟩
    · simp [hy, hz] at hrun
    · rw [hz] at hproject
      simp only [hy, hz, hquiet, if_true, Prod.mk.injEq, and_true] at hrun
      exact ⟨z, o.name, hproject, name?_of_complete hy, hrun.symm⟩

/-- Whether a command builds a package or makes a project. -/
def isWork : Command → Bool
  | .build _ _ | .init _ => true
  | .showConfig | .showConfigPath => false

/-- The line about a success that a command ends with. -/
def successLine : Command → Text
  | .init r => r.name?.elim [] fun name ↦
    Level.success.screenMark ++ "Created plugin package: ".toList ++ name ++ ['\n']
  | _ => []

/-- A quiet command warns at most before it tells of its success. -/
theorem shown_of_runCommand (h : Warned c c') (hc : c.verbosity = 0) (hquiet : l.quiet = true)
    {command : Command} (hwork : isWork command = true)
    (hrun : runCommand c' env l command = (d, .ok ())) :
    d.output = c.output ∧
      ∃ warnings, d.errors = c.errors ++ warningLines warnings ++ successLine command := by
  cases command with
  | build project output =>
    have hbuild := warned_runBuild h hc hquiet project output
    rw [show runBuild c' l project output = (d, .ok ()) from hrun] at hbuild
    obtain ⟨warnings, herrors⟩ := hbuild.errors
    exact ⟨hbuild.output, warnings, herrors.trans (List.append_nil _).symm⟩
  | init r =>
    obtain ⟨x, name, hx, hname, rfl⟩ := warned_runInit h hc hquiet hrun
    obtain ⟨warnings, herrors⟩ := hx.errors
    refine ⟨(output_tell x _ _).trans hx.output, warnings, ?_⟩
    have hshown : Level.success.threshold ≤ x.verbosity := Nat.zero_le _
    rw [tell_eq, if_pos hshown, printError, errors_log, herrors, successLine, hname]
    simp only [Option.elim_some, List.append_assoc]
  | showConfig | showConfigPath => cases hwork

/-! ## Runs -/

/-- What a command line asks to be told in the place of a command. -/
def asked (words : List Text) : Text :=
  match read words with
  | .error (.help t) => t
  | .error .version => versionText ++ ['\n']
  | _ => []

/-- The command that a line asks for, if it asks for one. -/
def command? (words : List Text) : Option Command :=
  match read words with
  | .ok i => i.command
  | .error _ => none

/-- A line that can be read asks for a build or a new project, and to be quiet about it. -/
def IsQuiet (words : List Text) : Prop :=
  ∀ i, read words = .ok i → i.loudness.quiet = true ∧ i.command.any isWork = true

/-- **A quiet run.** A line asks for a quiet build or a quiet new project, or to be told something
in the place of a command, and is carried out. Then the output stream holds what the line asks to be
told, and the error stream, which is no terminal, holds warnings and, behind them, that a project
was made. -/
theorem run_quiet (c : Console) (env : Environment) {words : List Text} (hquiet : IsQuiet words)
    (hsucceeded : (run c env words).succeeded = true) :
    (run c env words).console.output = c.output ++ asked words ∧
      ∃ warnings, (run c env words).console.errors =
        c.errors ++ warningLines warnings ++ (command? words).elim [] successLine := by
  unfold run at hsucceeded ⊢
  unfold asked command?
  rcases hread : read words with (t | _ | e) | i
  · exact ⟨rfl, [], by simp [warningLines]⟩
  · exact ⟨by simp [print], [], by simp [warningLines, print]⟩
  · simp [hread] at hsucceeded
  · obtain ⟨hloud, hwork⟩ := hquiet i hread
    cases hcommand : i.command with
    | none =>
      rw [hcommand] at hwork
      cases hwork
    | some command =>
      rw [hcommand] at hwork
      have hverbosity : i.loudness.verbosity = 0 := if_pos hloud
      simp only [hread, runInvocation, hcommand, hverbosity] at hsucceeded ⊢
      rcases hrun : runCommand (beginLog c env 0) env i.loudness command with ⟨d, e | u⟩
      · simp [hrun] at hsucceeded
      · obtain ⟨houtput, herrors⟩ :=
          shown_of_runCommand (warned_beginLog c env) rfl hloud hwork hrun
        exact ⟨houtput.trans (List.append_nil _).symm, herrors⟩

/-- A line that asks for a quiet new project. -/
def quietInitLine : List Text := ["init".toList, "--quiet".toList, "demo".toList]

/-- What the line asks for. -/
def quietInit : Invocation where
  loudness := ⟨true, 0⟩
  command := some (.init
    { positionalName := some "demo".toList
      name := none
      directory := none
      packageId := none
      description := none
      language := none })

theorem read_quietInitLine : read quietInitLine = .ok quietInit := by decide +kernel

theorem isQuiet_quietInitLine : IsQuiet quietInitLine := fun i hread ↦ by
  rw [read_quietInitLine] at hread
  cases hread
  decide

/-- A user without a home directory. -/
def homeless : Environment := .ofVariables none none

/-- Without a home directory there is no log and no configuration, so a quiet new project warns of
both before it is told of. -/
theorem run_quiet_homeless :
    (IsQuiet quietInitLine ∧ (run bareConsole homeless quietInitLine).succeeded = true) ∧
      (run bareConsole homeless quietInitLine).console.output = [] ∧
      ∃ warnings, (run bareConsole homeless quietInitLine).console.errors =
        warningLines warnings ++ "✔ Created plugin package: demo\n".toList := by
  have hsucceeded : (run bareConsole homeless quietInitLine).succeeded = true := by
    decide +kernel
  obtain ⟨houtput, warnings, herrors⟩ :=
    run_quiet bareConsole homeless isQuiet_quietInitLine hsucceeded
  have hasked : asked quietInitLine = [] := by decide +kernel
  have hlast : (command? quietInitLine).elim [] successLine =
      "✔ Created plugin package: demo\n".toList := by decide +kernel
  rw [hasked] at houtput
  rw [hlast] at herrors
  exact ⟨⟨isQuiet_quietInitLine, hsucceeded⟩, houtput, warnings, herrors⟩

/-- **Not every quiet run is silent**: that a project was made is told even then. -/
theorem not_forall_quiet_silent :
    ¬∀ (c : Console) (env : Environment) (words : List Text) (i : Invocation),
      read words = .ok i → i.loudness.quiet = true → i.command.any isWork = true →
        (run c env words).succeeded = true →
          (run c env words).console.output = c.output ∧
            ∃ warnings, (run c env words).console.errors = c.errors ++ warningLines warnings := by
  intro h
  obtain ⟨-, warnings, herrors⟩ := h bareConsole bareEnvironment quietInitLine quietInit
    read_quietInitLine rfl rfl (by decide +kernel)
  have hshown : (run bareConsole bareEnvironment quietInitLine).console.errors =
      "✔ Created plugin package: demo\n".toList := by decide +kernel
  rw [hshown] at herrors
  have hhead := congrArg List.head? herrors
  cases warnings with
  | nil => cases hhead
  | cons w ws => exact absurd (Option.some.inj hhead) (by decide)

end CommandLine

end PluginPack
