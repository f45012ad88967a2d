import PluginPack.Proofs.CommandLine.Louder
import PluginPack.Proofs.CommandLine.Settle
import PluginPack.Proofs.CommandLine.Trace

/-!
# Command lines with flags for the verbosity

Wherever an option may stand on a command line, a flag for the verbosity may be added. The line is
then read in step with the one without flags, and asks for the same.

A flag may come behind an option whose value has not been looked at yet, and has it looked at
sooner. Where the value is refused, the line without the flag is refused as well, if only later.
-/

namespace PluginPack.CommandLine

open Text

/-! ## Lines with flags -/

namespace Frame

/-- Whether an option may stand next. -/
def takesOption (f : Frame) : Bool := !f.plainOnly && !f.awaitsValue

/-- Whether words are read without a flag for the verbosity among them. -/
def isMute (f : Frame) : List Text → Bool
  | [] => true
  | w :: ws =>
    match f.subcommand? w with
    | some s => s.isHelp || (start s).isMute ws
    | none => (f.plainOnly || !f.scope.asks w) &&
      match f.read w with
      | .ok f => f.isMute ws
      | .error _ => true

end Frame

/-- A flag is added to the words that are read into a command: once, or as often as one likes when
it is a flag that is counted. -/
inductive Adds (o : Opt) : Frame → List Text → List Text → Prop
  | none (f : Frame) (ws : List Text) : Adds o f ws ws
  | once {f : Frame} {w : Text} {ws : List Text} (hf : f.takesOption = true)
      (hw : w ∈ o.flagWords) : Adds o f ws (w :: ws)
  | more {f : Frame} {w : Text} {ws ws' : List Text} (ho : o.isCounted = true)
      (hf : f.takesOption = true) (hw : w ∈ o.flagWords) (h : Adds o f ws ws') :
      Adds o f ws (w :: ws')
  | word {f f₁ : Frame} {w : Text} {ws ws' : List Text} (hsub : f.subcommand? w = none)
      (hread : f.read w = .ok f₁) (h : Adds o f₁ ws ws') : Adds o f (w :: ws) (w :: ws')
  | enter {f : Frame} {s : Scope} {w : Text} {ws ws' : List Text} (hsub : f.subcommand? w = some s)
      (hs : s.isHelp = false) (h : Adds o (.start s) ws ws') : Adds o f (w :: ws) (w :: ws')

variable {o : Opt} {f f' g : Frame} {w : Text} {ws ws' : List Text} {s : Scope}

/-- A word among words without a flag gives none, and neither do the words behind it. -/
theorem Frame.isMute_word (h : f.isMute (w :: ws) = true) (hsub : f.subcommand? w = none) :
    (f.plainOnly = false → f.scope.asks w = false) ∧
      ∀ g, f.read w = .ok g → g.isMute ws = true := by
  rw [isMute, hsub] at h
  obtain ⟨hword, hrest⟩ := Bool.and_eq_true_iff.mp h
  refine ⟨fun hplain ↦ ?_, fun g hread ↦ ?_⟩
  · rw [hplain, Bool.false_or] at hword
    simpa using hword
  · rwa [hread] at hrest

theorem Frame.isMute_enter (h : f.isMute (w :: ws) = true) (hsub : f.subcommand? w = some s)
    (hs : s.isHelp = false) : (start s).isMute ws = true := by
  rw [isMute, hsub] at h
  simpa [hs] using h

/-! ## Reading a flag -/

/-- Every command has the flags, and no flag is taken for a command. -/
theorem Scope.flag_facts (hs : s.isHelp = false) (ho : o.isVerbosity = true) :
    s.longOption? o.long = some o ∧ (∀ c ∈ o.short?, s.shortOption? c = some o) ∧
      ∀ w ∈ o.flagWords, s.subcommand? w = none := by
  have hflags : ∀ o ∈ [Opt.quiet, .verbose], ∀ s ∈ [Scope.program, .build, .init, .config,
      .configShow, .configPath], s.longOption? o.long = some o ∧
        (o.short?.all fun c ↦ s.shortOption? c = some o) ∧
          ∀ w ∈ o.flagWords, s.subcommand? w = none := by decide
  have hscope : s ∈ [Scope.program, .build, .init, .config, .configShow, .configPath] := by
    cases s with
    | help | configHelp => cases hs
    | program | build | init | config | configShow | configPath => decide
  obtain ⟨hlong, hshort, hsub⟩ := hflags o (by simpa using Opt.eq_of_isVerbosity ho) s hscope
  refine ⟨hlong, fun c hc ↦ ?_, hsub⟩
  rw [hc] at hshort
  exact of_decide_eq_true hshort

theorem Frame.giveFlag_verbosity (f : Frame) (ho : o.isVerbosity = true) (t : Text) :
    f.giveFlag o t = (f.settle.mapError .usage) >>= fun g ↦ (g.give o []).mapError .usage := by
  rcases Opt.eq_of_isVerbosity ho with rfl | rfl <;> rfl

/-- A flag is given once all before it has been looked at. -/
theorem Frame.read_flagWord (hs : f.scope.isHelp = false) (ho : o.isVerbosity = true)
    (hplain : f.plainOnly = false) (hw : w ∈ o.flagWords) :
    f.read w = (f.settle.mapError .usage) >>= fun g ↦ (g.give o []).mapError .usage := by
  obtain ⟨hlong, hshort, -⟩ := Scope.flag_facts hs ho
  have hvalue : o.takesValue = false ∧ cutAt? ['='] o.long = none := by
    rcases Opt.eq_of_isVerbosity ho with rfl | rfl <;> decide
  rw [Opt.flagWords, List.mem_cons] at hw
  rcases hw with rfl | hw
  · have hread : f.read ("--".toList ++ o.long) = f.readLong o.long := by
      unfold read
      rw [if_neg (by simp [hplain])]
      rcases Opt.eq_of_isVerbosity ho with rfl | rfl <;> rfl
    rw [hread]
    unfold readLong
    simp only [hvalue.2, hlong, hvalue.1]
    exact f.giveFlag_verbosity ho _
  · obtain ⟨c, hc, rfl⟩ : ∃ c, o.short? = some c ∧ ['-', c] = w := by simpa using hw
    have hread : f.read ['-', c] = f.readShort [c] := by
      unfold read
      rw [if_neg (by simp [hplain])]
      rcases Opt.eq_of_isVerbosity ho with rfl | rfl
      · obtain rfl := Option.some.inj hc
        rfl
      · cases hc
    rw [hread, readShort, hshort c hc, ← f.giveFlag_verbosity ho f.scope.shortHelp]
    simp only [hvalue.1, Bool.false_eq_true, if_false, readShort]
    cases f.giveFlag o f.scope.shortHelp with
    | error e => rfl
    | ok g => rfl

/-! ## Commands with flags beside commands without -/

/-- The frame of a command with flags beside the one without, in which an option may still have to
be looked at. -/
def Follows (o : Opt) (s : Scope) (f f' : Frame) : Prop :=
  Louder o s f f' ∨ ∃ g, f.settle = .ok g ∧ Louder o s g f' ∧ f.IsSound

namespace Follows

theorem scope (h : Follows o s f f') : f.scope = s := by
  rcases h with h | ⟨g, hsettle, h, -⟩
  · exact h.scope
  · rw [← (Frame.of_settle hsettle).2.1, h.scope]

theorem sound (h : Follows o s f f') : f.IsSound := by
  rcases h with h | ⟨g, -, -, hsound⟩
  · exact h.sound
  · exact hsound

theorem plainOnly (h : Follows o s f f') : f'.plainOnly = f.plainOnly := by
  rcases h with h | ⟨g, hsettle, h, -⟩
  · exact h.plainOnly
  · rw [h.plainOnly, (Frame.of_settle hsettle).2.2.2]

theorem awaitsValue (h : Follows o s f f') : f'.awaitsValue = f.awaitsValue := by
  rcases h with h | ⟨g, hsettle, h, -⟩
  · rw [Frame.awaitsValue, Frame.awaitsValue, h.pending, h.plainOnly]
  · have hnot : f.awaitsValue = false := by
      unfold Frame.awaitsValue
      split
      · next p hawait =>
        rw [Frame.settle, hawait] at hsettle
        cases hsettle
      · rfl
    rw [hnot, Frame.awaitsValue, h.pending, (Frame.of_settle hsettle).1]

theorem scope' (h : Follows o s f f') : f'.scope = s := by
  rcases h with h | ⟨g, -, h, -⟩
  · exact h.scope'
  · exact h.scope'

theorem subcommand?_eq (h : Follows o s f f') (w : Text) : f'.subcommand? w = f.subcommand? w := by
  rw [Frame.subcommand?, Frame.subcommand?, h.plainOnly, h.awaitsValue, h.scope, h.scope']

/-- Nothing is left to be looked at where a subcommand is opened. -/
theorem louder (h : Follows o s f f') {s' : Scope} (hsub : f.subcommand? w = some s') :
    Louder o s f f' := by
  rcases h with h | ⟨g, hsettle, h, hsound⟩
  · exact h
  · cases hpending : f.pending with
    | none =>
      rw [Frame.settle_of_pending hpending] at hsettle
      obtain rfl := Except.ok.inj hsettle
      exact h
    | some x =>
      rw [Frame.subcommand?, Scope.subcommand?, (hsound _ _ hpending).2] at hsub
      split at hsub
      · cases hsub
      · cases hsub

theorem settle (h : Follows o s f f') :
    InStep (Louder o s) (f.settle.mapError .usage) (f'.settle.mapError .usage) := by
  rcases h with h | ⟨g, hsettle, h, -⟩
  · exact h.settle
  · rw [hsettle, Frame.settle_of_pending (h.pending.trans (Frame.of_settle hsettle).1)]
    exact .ok h

theorem read (h : Follows o s f f') (hmute : f.plainOnly = false → s.asks w = false) :
    InStep (Follows o s) (f.read w) (f'.read w) := by
  rcases h with h | ⟨g, hsettle, h, hsound⟩
  · exact (h.read hmute).mono fun _ _ ↦ .inl
  · have hplain := (Frame.of_settle hsettle).2.2.2
    have hread := h.read (w := w) (by rwa [hplain])
    rcases Frame.read_of_settle hsettle w with heq | ⟨heq, heq'⟩
    · rw [heq]
      exact hread.mono fun _ _ ↦ .inl
    · have hsettle' : { f with plainOnly := true }.settle = .ok { g with plainOnly := true } := by
        rw [Frame.settle_withPlainOnly, hsettle]
        rfl
      rw [heq'] at hread
      rw [heq]
      generalize f'.read w = x at hread ⊢
      cases hread with
      | ok hg => exact .ok (.inr ⟨_, hsettle', hg, hsound⟩)

/-- Where an option may stand a flag is taken, and all else goes on as without it; or else an option
is looked at that is refused sooner or later in any case. -/
theorem flag (h : Follows o s f f') (hs : s.isHelp = false) (ho : o.isVerbosity = true)
    (hf : f.takesOption = true) (hw : w ∈ o.flagWords)
    (hroom : o.isCounted = true ∨ f' = f) :
    f'.subcommand? w = none ∧
      ((∃ f'', f'.read w = .ok f'' ∧ Follows o s f f'') ∨
        (∃ e, f'.read w = .error (.usage e)) ∧ f.IsDoomed) := by
  obtain ⟨hplain, hawaits⟩ : f.plainOnly = false ∧ f.awaitsValue = false := by
    simpa [Frame.takesOption] using hf
  have hsub : f'.subcommand? w = none := by
    have hnone := (Scope.flag_facts hs ho).2.2 w hw
    rw [h.subcommand?_eq, Frame.subcommand?, h.scope, hnone]
    split <;> rfl
  have hread := Frame.read_flagWord (h.scope' ▸ hs) ho (h.plainOnly.trans hplain) hw
  refine ⟨hsub, ?_⟩
  rcases h.settle.cases_mapError with ⟨g, g', hsettle, hsettle', hg⟩ | ⟨e, e', hrefused, hrefused'⟩
  · left
    have hroom' : o.isCounted = true ∨ g' = g := by
      refine hroom.imp_right ?_
      rintro rfl
      exact Except.ok.inj (hsettle'.symm.trans hsettle)
    refine ⟨{ g' with given := (o, []) :: g'.given }, ?_,
      .inr ⟨g, hsettle, hg.withFlag ho, h.sound⟩⟩
    rw [hread, hsettle']
    exact congrArg (Except.mapError Interruption.usage) (hg.give_flag ho hroom')
  · right
    obtain ⟨p, v, hpending⟩ := Frame.exists_pending_of_refused hrefused hawaits hplain
    refine ⟨⟨e', ?_⟩, ⟨p, v, hpending⟩, ⟨e, hrefused⟩, h.scope ▸ (h.sound _ _ hpending).2⟩
    rw [hread, hrefused']
    rfl

end Follows

/-! ## Command lines with flags -/

/-- The frames of the commands on a line with flags beside those on a line without. -/
def SameFrames (o : Opt) : List Frame → List Frame → Prop :=
  List.Forall₂ fun f f' ↦ ∃ s, Louder o s f f'

variable {outer outer' : List Frame}

theorem readWords_of_read (hsub : f.subcommand? w = none) (hread : f.read w = .ok g)
    (outer : List Frame) (ws : List Text) :
    readWords outer f (w :: ws) = readWords outer g ws := by
  rw [readWords, hsub, hread]

theorem readWords_of_enter (hsub : f.subcommand? w = some s) (hs : s.isHelp = false)
    (outer : List Frame) (ws : List Text) :
    readWords outer f (w :: ws) = readWords (f :: outer) (.start s) ws := by
  rw [readWords, hsub]
  exact if_neg (by simp [hs])

theorem inStep_readWords (h : Follows o s f f') (hmute : f.isMute ws = true)
    (houter : SameFrames o outer outer') :
    InStep (SameFrames o) (readWords outer f ws) (readWords outer' f' ws) := by
  induction ws generalizing f f' s outer outer' with
  | nil =>
    rw [readWords, readWords]
    exact h.settle.bind fun g g' hg ↦ .ok (.cons ⟨s, hg⟩ houter)
  | cons w ws ih =>
    rw [readWords, readWords, h.subcommand?_eq]
    cases hsub : f.subcommand? w with
    | some t =>
      simp only
      by_cases ht : t.isHelp = true
      · rw [if_pos ht, if_pos ht, h.scope, h.scope']
        cases helpFor s ws with
        | ok t => exact .help t
        | error e => exact .usage e e
      · rw [if_neg ht, if_neg ht]
        have hrest := Frame.isMute_enter hmute hsub (Bool.eq_false_iff.mpr ht)
        exact ih (.inl (.start o t)) hrest (.cons ⟨s, h.louder hsub⟩ houter)
    | none =>
      obtain ⟨hasks, hrest⟩ := Frame.isMute_word hmute hsub
      have hread := h.read (h.scope ▸ hasks)
      generalize f.read w = x at hread hrest ⊢
      generalize f'.read w = x' at hread ⊢
      cases hread with
      | ok hg => exact ih hg (hrest _ rfl) houter
      | help t => exact .help t
      | version => exact .version
      | usage e e' => exact .usage e e'

/-- Both lines are refused when the flag comes behind a value that is refused. -/
theorem Frame.IsDoomed.inStep {e : UsageError} (h : f.IsDoomed) (hsub : f'.subcommand? w = none)
    (hread : f'.read w = .error (.usage e)) (outer outer' : List Frame) (ws ws' : List Text) :
    InStep (SameFrames o) (CommandLine.readWords outer f ws)
      (CommandLine.readWords outer' f' (w :: ws')) := by
  obtain ⟨e', hrefused⟩ := h.readWords outer ws
  rw [hrefused, CommandLine.readWords, hsub, hread]
  exact .usage e' e

/-- A line to which flags are added is read in step with the line as it was. -/
theorem Adds.inStep_readWords (hadds : Adds o f ws ws') (ho : o.isVerbosity = true)
    (h : Follows o s f f') (hs : s.isHelp = false) (hmute : f.isMute ws = true)
    (houter : SameFrames o outer outer') (hroom : o.isCounted = true ∨ f' = f) :
    InStep (SameFrames o) (readWords outer f ws) (readWords outer' f' ws') := by
  induction hadds generalizing f' s outer outer' with
  | none f ws => exact CommandLine.inStep_readWords h hmute houter
  | once hf hw =>
    obtain ⟨hsub, hflag⟩ := h.flag hs ho hf hw hroom
    rcases hflag with ⟨f'', hread, hnext⟩ | ⟨⟨e, hread⟩, hdoomed⟩
    · rw [readWords_of_read hsub hread]
      exact CommandLine.inStep_readWords hnext hmute houter
    · exact hdoomed.inStep hsub hread _ _ _ _
  | more hcounted hf hw _ ih =>
    obtain ⟨hsub, hflag⟩ := h.flag hs ho hf hw hroom
    rcases hflag with ⟨f'', hread, hnext⟩ | ⟨⟨e, hread⟩, hdoomed⟩
    · rw [readWords_of_read hsub hread]
      exact ih hnext hs hmute houter (.inl hcounted)
    · exact hdoomed.inStep hsub hread _ _ _ _
  | @word f f₁ w ws ws' hsub hread _ ih =>
    have hsub' := (h.subcommand?_eq w).trans hsub
    obtain ⟨hasks, hrest⟩ := Frame.isMute_word hmute hsub
    have hstep := h.read (h.scope ▸ hasks)
    rw [hread] at hstep
    obtain ⟨f₁', hread', hnext⟩ := hstep.exists_of_ok
    rw [readWords_of_read hsub hread, readWords_of_read hsub' hread']
    refine ih hnext hs (hrest _ hread) houter (hroom.imp_right ?_)
    rintro rfl
    exact Except.ok.inj (hread'.symm.trans hread)
  | @enter f t w ws ws' hsub ht _ ih =>
    have hsub' := (h.subcommand?_eq w).trans hsub
    rw [readWords_of_enter hsub ht, readWords_of_enter hsub' ht]
    exact ih (.inl (.start o t)) ht (Frame.isMute_enter hmute hsub ht)
      (.cons ⟨s, h.louder hsub⟩ houter) (.inr rfl)

namespace SameFrames

variable {frames frames' : List Frame}

theorem forM_check (h : SameFrames o frames frames') :
    frames.forM Frame.check = .ok () ∧ frames'.forM Frame.check = .ok () := by
  induction h with
  | nil => exact ⟨rfl, rfl⟩
  | cons hf _ ih =>
    obtain ⟨s, hf⟩ := hf
    obtain ⟨hcheck, hcheck'⟩ := hf.check_eq
    rw [List.forM, List.forM, hcheck, hcheck']
    exact ih

theorem command?_eq (h : SameFrames o frames frames') :
    frames'.head?.bind Frame.command? = frames.head?.bind Frame.command? := by
  cases h with
  | nil => rfl
  | cons hf _ =>
    obtain ⟨s, hf⟩ := hf
    exact hf.command?_eq

end SameFrames

/-- A line with flags asks for the same as the line without, or is faulty as well. -/
theorem inStep_read {words words' : List Text} (ho : o.isVerbosity = true)
    (hmute : (Frame.start .program).isMute words = true)
    (hadds : Adds o (.start .program) words words') :
    InStep (fun i i' ↦ i'.command = i.command) (read words) (read words') := by
  have hwords : InStep (SameFrames o) (readWords [] (.start .program) words)
      (readWords [] (.start .program) words') :=
    hadds.inStep_readWords ho (.inl (.start o .program)) rfl hmute .nil (.inr rfl)
  unfold read
  refine hwords.bind fun frames frames' hframes ↦ ?_
  obtain ⟨hcheck, hcheck'⟩ := hframes.forM_check
  rw [hcheck, hcheck']
  exact .ok hframes.command?_eq

/-- **Flags for the verbosity change only what is printed.** Let a command line have no such flag,
and let `--quiet` be added to it once, or `--verbose` any number of times, wherever an option may
stand. Run from the same console, both lines succeed or neither does, and they leave the same files
with the same contents and the same log. -/
theorem run_with_flags (c : Console) (env : Environment) {words words' : List Text}
    (ho : o = .quiet ∨ o = .verbose) (hmute : (Frame.start .program).isMute words = true)
    (hadds : Adds o (.start .program) words words') :
    (run c env words').succeeded = (run c env words).succeeded ∧
      (run c env words').console.files = (run c env words).console.files ∧
      (run c env words').console.logFile = (run c env words).console.logFile := by
  have hread := inStep_read (o := o) (by rcases ho with rfl | rfl <;> rfl) hmute hadds
  unfold run
  generalize read words = x at hread ⊢
  generalize read words' = x' at hread ⊢
  cases hread with
  | ok hcommand =>
    have hsame := sameOutcome_runInvocation (.refl c) env hcommand
    exact ⟨hsame.succeeded, hsame.traces.files, hsame.traces.logFile⟩
  | help t => exact ⟨rfl, rfl, rfl⟩
  | version => exact ⟨rfl, rfl, rfl⟩
  | usage e e' => exact ⟨rfl, rfl, rfl⟩

/-- A console with nothing but a working directory. -/
def bareConsole : Console where
  files := { nodes := [(["w".toList], .dir)], workingDirectory := ["w".toList] }
  stamp := "[0] ".toList
  logFile := none
  verbosity := 0
  output := []
  errors := []

/-- A user at home in the working directory. -/
def bareEnvironment : Environment := .ofVariables (some "/w".toList) none

/-- A line that asks to build. -/
def buildLine : List Text := ["build".toList, "-p".toList, "p".toList]

/-- A line that asks to build and to be told more, once before the command and once behind the value
of an option. -/
def verboseBuildLine : List Text :=
  ["--verbose".toList, "build".toList, "-p".toList, "p".toList, "--verbose".toList]

/-- A build that fails leaves the same log when more is told on the screen. -/
theorem run_with_flags_missing_project :
    ((Frame.start .program).isMute buildLine = true ∧
      Adds .verbose (.start .program) buildLine verboseBuildLine) ∧
      (run bareConsole bareEnvironment verboseBuildLine).console.errors ≠
        (run bareConsole bareEnvironment buildLine).console.errors ∧
      (run bareConsole bareEnvironment verboseBuildLine).console.files =
        (run bareConsole bareEnvironment buildLine).console.files := by
  have hmute : (Frame.start .program).isMute buildLine = true := by decide +kernel
  have hadds : Adds .verbose (.start .program) buildLine verboseBuildLine :=
    .more rfl rfl (by decide)
      (.enter (s := .build) (by decide) rfl (.word (by decide) rfl (.word (by decide) rfl
        (.once (by decide) (by decide)))))
  have hsame := run_with_flags bareConsole bareEnvironment (.inr rfl) hmute hadds
  exact ⟨⟨hmute, hadds⟩, by decide +kernel, hsame.2.1⟩

end PluginPack.CommandLine
