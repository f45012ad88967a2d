import PluginPack.CommandLine.Reader

/-!
# Commands with flags for the verbosity

Two options say how much is to be told: one asks to be quiet, the other one, which may be repeated,
asks to be verbose. A command with such flags stands beside the same command without them. The flags
are taken beside all else that is given, and nothing else looks at them, so words that give no flag
are read in step, and both commands ask for the same.
-/

namespace PluginPack.CommandLine

open Text

/-! ## Flags -/

/-- An option that says how much is to be told. -/
def Opt.isVerbosity (o : Opt) : Bool := o == .quiet || o == .verbose

/-- The words that give an option without a value. -/
def Opt.flagWords (o : Opt) : List Text :=
  ("--".toList ++ o.long) :: (o.short?.map fun c ↦ ['-', c]).toList

/-- Whether letters behind one dash give a flag for the verbosity. What stands behind a letter that
takes a value is the value. -/
def Scope.lettersAsk (s : Scope) : Text → Bool
  | [] => false
  | c :: r =>
    match s.shortOption? c with
    | none => false
    | some o => o.isVerbosity || (!o.takesValue && s.lettersAsk r)

/-- Whether a word gives a flag for the verbosity. -/
def Scope.asks (s : Scope) : Text → Bool
  | '-' :: '-' :: body => (s.longOption? body).any Opt.isVerbosity
  | '-' :: c :: r => s.lettersAsk (c :: r)
  | _ => false

/-! ## Reading in step -/

/-- Two readings go on in the same way, or end for the same reason. Faults are not told apart. -/
inductive InStep {α : Type} (R : α → α → Prop) :
    Except Interruption α → Except Interruption α → Prop
  | ok {a a' : α} (h : R a a') : InStep R (.ok a) (.ok a')
  | help (t : Text) : InStep R (.error (.help t)) (.error (.help t))
  | version : InStep R (.error .version) (.error .version)
  | usage (e e' : UsageError) : InStep R (.error (.usage e)) (.error (.usage e'))

variable {o p : Opt} {f f' : Frame} {w : Text} {s : Scope}

theorem InStep.bind {α β : Type} {R : α → α → Prop} {S : β → β → Prop}
    {x x' : Except Interruption α} {k k' : α → Except Interruption β} (h : InStep R x x')
    (hk : ∀ a a', R a a' → InStep S (k a) (k' a')) : InStep S (x >>= k) (x' >>= k') := by
  cases h with
  | ok h => exact hk _ _ h
  | help t => exact .help t
  | version => exact .version
  | usage e e' => exact .usage e e'

theorem InStep.mono {α : Type} {R S : α → α → Prop} {x x' : Except Interruption α}
    (h : InStep R x x') (hRS : ∀ a a', R a a' → S a a') : InStep S x x' := by
  cases h with
  | ok h => exact .ok (hRS _ _ h)
  | help t => exact .help t
  | version => exact .version
  | usage e e' => exact .usage e e'

theorem InStep.exists_of_ok {α : Type} {R : α → α → Prop} {a : α} {x' : Except Interruption α}
    (h : InStep R (.ok a) x') : ∃ a', x' = .ok a' ∧ R a a' := by
  cases h with
  | ok h => exact ⟨_, rfl, h⟩

/-- When only faults can end them, two readings in step both go on or are both faulty. -/
theorem InStep.cases_mapError {α : Type} {R : α → α → Prop} {x x' : Except UsageError α}
    (h : InStep R (x.mapError .usage) (x'.mapError .usage)) :
    (∃ a a', x = .ok a ∧ x' = .ok a' ∧ R a a') ∨ ∃ e e', x = .error e ∧ x' = .error e' := by
  rcases x with e | a
  · rcases x' with e' | a'
    · exact .inr ⟨e, e', rfl, rfl⟩
    · cases h
  · rcases x' with e' | a'
    · cases h
    · cases h with
      | ok h => exact .inl ⟨a, a', rfl, rfl, h⟩

theorem Opt.eq_of_isVerbosity (ho : o.isVerbosity = true) : o = .quiet ∨ o = .verbose := by
  simpa [isVerbosity] using ho

theorem Opt.not_isVerbosity (h : p.takesValue = true) : p.isVerbosity = false := by
  cases p <;> first | rfl | cases h

theorem Scope.subcommands_eq_nil (hp : p ∈ s.options) (h : p.takesValue = true) :
    s.subcommands = [] := by
  have hnone : ∀ s ∈ [program, config], ∀ p ∈ s.options, p.takesValue = false := by decide
  cases s with
  | program | config =>
    rw [hnone _ (by decide) p hp] at h
    cases h
  | build | init | configShow | configPath | help | configHelp => rfl

/-- An option is only left to be looked at when it takes a value, and only commands without
subcommands have such options. -/
def Frame.IsSound (f : Frame) : Prop :=
  ∀ p v, f.pending = some (p, v) → p.takesValue = true ∧ f.scope.subcommands = []

theorem Frame.isSound_of_pending (h : f.pending = none) : f.IsSound := fun p v hp ↦ by
  rw [h] at hp
  cases hp

/-- The frame of a command with flags beside the one without. -/
structure Louder (o : Opt) (s : Scope) (f f' : Frame) : Prop where
  scope : f.scope = s
  scope' : f'.scope = s
  argument : f'.argument = f.argument
  pending : f'.pending = f.pending
  plainOnly : f'.plainOnly = f.plainOnly
  /-- Without the flags the same has been given. -/
  given : f'.given.filter (fun e ↦ !e.1.isVerbosity) = f.given
  /-- All flags are of one kind. -/
  only : ∀ e ∈ f'.given, e.1.isVerbosity = true → e.1 = o
  sound : f.IsSound

namespace Louder

theorem start (o : Opt) (s : Scope) : Louder o s (.start s) (.start s) where
  scope := rfl
  scope' := rfl
  argument := rfl
  pending := rfl
  plainOnly := rfl
  given := rfl
  only _ h := absurd h List.not_mem_nil
  sound := Frame.isSound_of_pending rfl

theorem has_eq (h : Louder o s f f') (hp : p.isVerbosity = false) : f'.has p = f.has p := by
  rw [Frame.has, Frame.has, ← h.given, List.any_filter]
  congr 1
  funext e
  cases he : e.1 == p with
  | false => simp
  | true => simp [beq_iff_eq.mp he, hp]

/-- What is not a flag is given in the same way. -/
theorem give (h : Louder o s f f') (hp : p.isVerbosity = false) (v : Text) :
    InStep (Louder o s) ((f.give p v).mapError .usage) ((f'.give p v).mapError .usage) := by
  rw [Frame.give, Frame.give, h.has_eq hp]
  split
  · exact .usage _ _
  · cases Frame.checkValue p v with
    | error e => exact .usage e e
    | ok u =>
      refine .ok { h with given := ?_, only := ?_, sound := h.sound }
      · rw [List.filter_cons_of_pos (by simpa using hp), h.given]
      · refine List.forall_mem_cons.mpr ⟨fun hv ↦ ?_, h.only⟩
        rw [hp] at hv
        cases hv

theorem withPending (h : Louder o s f f') {x : Option (Opt × Option Text)}
    (hx : ∀ p v, x = some (p, v) → p.takesValue = true ∧ s.subcommands = []) :
    Louder o s { f with pending := x } { f' with pending := x } :=
  { h with pending := rfl, sound := h.scope ▸ hx }

theorem withPlainOnly (h : Louder o s f f') :
    Louder o s { f with plainOnly := true } { f' with plainOnly := true } :=
  { h with plainOnly := rfl, sound := h.sound }

/-- Looking at an option takes it in both commands or refuses it in both. -/
theorem settle (h : Louder o s f f') :
    InStep (Louder o s) (f.settle.mapError .usage) (f'.settle.mapError .usage) := by
  unfold Frame.settle
  rw [h.pending]
  cases hpending : f.pending with
  | none => exact .ok h
  | some x =>
    obtain ⟨p, v⟩ := x
    cases v with
    | none => exact .usage _ _
    | some v =>
      have hp := Opt.not_isVerbosity (h.sound p _ hpending).1
      exact (h.withPending (x := none) nofun).give hp v

/-- A flag is taken when it is counted, or when none has been given yet. -/
theorem give_flag (h : Louder o s f f') (ho : o.isVerbosity = true)
    (hroom : o.isCounted = true ∨ f' = f) :
    f'.give o [] = .ok { f' with given := (o, []) :: f'.given } := by
  have hcheck : Frame.checkValue o [] = .ok () := by
    rcases Opt.eq_of_isVerbosity ho with rfl | rfl <;> rfl
  have hfree : (f'.has o && !o.isCounted) = false := by
    rcases hroom with hcounted | rfl
    · rw [hcounted, Bool.not_true, Bool.and_false]
    · have hnone : f'.has o = false := by
        refine Bool.eq_false_iff.mpr fun hhas ↦ ?_
        obtain ⟨e, he, heo⟩ := List.any_eq_true.mp hhas
        rw [← h.given] at he
        have hflag := (List.mem_filter.mp he).2
        rw [beq_iff_eq.mp heo, ho] at hflag
        cases hflag
      rw [hnone, Bool.false_and]
  rw [Frame.give, if_neg (by rw [hfree]; exact Bool.false_ne_true), hcheck]
  rfl

theorem withFlag (h : Louder o s f f') (ho : o.isVerbosity = true) :
    Louder o s f { f' with given := (o, []) :: f'.given } :=
  { h with
    given := by rw [List.filter_cons_of_neg (by simp [ho]), h.given]
    only := List.forall_mem_cons.mpr ⟨fun _ ↦ rfl, h.only⟩ }

theorem giveFlag (h : Louder o s f f') (hp : p.isVerbosity = false) (t : Text) :
    InStep (Louder o s) (f.giveFlag p t) (f'.giveFlag p t) := by
  refine h.settle.bind fun g g' hg ↦ ?_
  cases p with
  | help => exact .help t
  | version => exact .version
  | quiet | verbose => cases hp
  | project | output | name | directory | packageId | description | language => exact hg.give hp []

theorem giveAttached (h : Louder o s f f') (hp : p.isVerbosity = false) (v : Text) :
    InStep (Louder o s) (f.giveAttached p v) (f'.giveAttached p v) :=
  h.settle.bind fun _ _ hg ↦ hg.give hp v

theorem await (h : Louder o s f f') (hp : p.takesValue = true) (hmem : p ∈ s.options) :
    InStep (Louder o s) (f.await p) (f'.await p) := by
  refine h.settle.bind fun g g' hg ↦ .ok (hg.withPending ?_)
  rintro q v ⟨⟩
  exact ⟨hp, Scope.subcommands_eq_nil hmem hp⟩

theorem readLong (h : Louder o s f f') {body : Text}
    (hmute : (s.longOption? body).any Opt.isVerbosity = false) :
    InStep (Louder o s) (f.readLong body) (f'.readLong body) := by
  unfold Frame.readLong
  rw [h.scope, h.scope']
  cases hcut : cutAt? ['='] body with
  | none =>
    simp only
    cases hopt : s.longOption? body with
    | none => exact .usage _ _
    | some p =>
      rw [hopt] at hmute
      have hmem := List.mem_of_find?_eq_some hopt
      cases hp : p.takesValue with
      | true =>
        simp only [hp]
        exact h.await hp hmem
      | false =>
        simp only [hp]
        exact h.giveFlag hmute _
  | some x =>
    obtain ⟨name, v⟩ := x
    simp only
    cases s.longOption? name with
    | none => exact .usage _ _
    | some p =>
      cases hp : p.takesValue with
      | true =>
        simp only [hp]
        exact h.giveAttached (Opt.not_isVerbosity hp) v
      | false =>
        simp only [hp]
        exact .usage _ _

theorem readShort (h : Louder o s f f') {r : Text} (hmute : s.lettersAsk r = false) :
    InStep (Louder o s) (f.readShort r) (f'.readShort r) := by
  induction r generalizing f f' with
  | nil => exact .ok h
  | cons c r ih =>
    rw [Scope.lettersAsk] at hmute
    rw [Frame.readShort, Frame.readShort, h.scope, h.scope']
    cases hopt : s.shortOption? c with
    | none => exact .usage _ _
    | some p =>
      rw [hopt] at hmute
      obtain ⟨hflag, hrest⟩ := Bool.or_eq_false_iff.mp hmute
      have hmem := List.mem_of_find?_eq_some hopt
      cases hp : p.takesValue with
      | true =>
        simp only [hp, if_true]
        split
        · exact h.await hp hmem
        · exact h.giveAttached hflag _
        · exact h.giveAttached hflag _
      | false =>
        have hstep := h.giveFlag hflag s.shortHelp
        rw [hp] at hrest
        simp only [hp, Bool.false_eq_true, if_false]
        generalize f.giveFlag p s.shortHelp = x at hstep ⊢
        generalize f'.giveFlag p s.shortHelp = x' at hstep ⊢
        cases hstep with
        | ok hg => exact ih hg hrest
        | help t => exact .help t
        | version => exact .version
        | usage e e' => exact .usage e e'

theorem readPlain (h : Louder o s f f') (w : Text) :
    InStep (Louder o s) (f.readPlain w) (f'.readPlain w) := by
  unfold Frame.readPlain
  rw [h.scope, h.scope', h.argument, h.plainOnly]
  split
  · exact h.settle.bind fun g g' hg ↦ .ok { hg with argument := rfl, sound := hg.sound }
  · split
    · exact .usage _ _
    · exact .usage _ _

/-- A word that gives no flag is read in step. -/
theorem read (h : Louder o s f f') (hmute : f.plainOnly = false → s.asks w = false) :
    InStep (Louder o s) (f.read w) (f'.read w) := by
  unfold Frame.read
  by_cases hplain : f.plainOnly = true
  · rw [if_pos hplain, if_pos (h.plainOnly.trans hplain)]
    exact h.readPlain w
  · have hw := hmute (Bool.eq_false_iff.mpr hplain)
    rw [if_neg hplain, if_neg (by rwa [h.plainOnly])]
    split
    · exact .ok h.withPlainOnly
    · exact h.readLong hw
    · next hdash =>
      rw [Scope.asks] at hw
      · exact h.readShort hw
      · exact hdash
    · have hpending' := h.pending
      cases hpending : f.pending with
      | none =>
        rw [hpending'.trans hpending]
        exact h.readPlain w
      | some x =>
        rw [hpending'.trans hpending]
        obtain ⟨p, v⟩ := x
        cases v with
        | none =>
          refine .ok (h.withPending ?_)
          rintro q v ⟨⟩
          exact h.scope ▸ h.sound p _ hpending
        | some v => exact h.readPlain w

end Louder

/-! ## What is asked for -/

/-- A command is not asked to be quiet and verbose at once when all its flags are of one kind. -/
theorem Frame.check_eq_ok (h : ∀ e ∈ f.given, e.1.isVerbosity = true → e.1 = o) :
    f.check = .ok () := by
  have hall : ∀ p ∈ (f.given.map (·.1)).filter fun p ↦ p = .quiet ∨ p = .verbose, p = o := by
    intro p hp
    obtain ⟨hmem, hflag⟩ := List.mem_filter.mp hp
    obtain ⟨e, he, rfl⟩ := List.mem_map.mp hmem
    exact h e he (by simpa [Opt.isVerbosity] using hflag)
  unfold check
  split
  · rfl
  · next p ps hflags =>
    rw [hflags] at hall
    obtain ⟨hp, hps⟩ := List.forall_mem_cons.mp hall
    have hsame : ps.find? (· ≠ p) = none :=
      List.find?_eq_none.mpr fun q hq ↦ by simp [hps q hq, hp]
    rw [hsame]

theorem lookup_filter {l : List (Opt × Text)} {q : Opt → Bool} (hp : q p = true) :
    (l.filter fun e ↦ q e.1).lookup p = l.lookup p := by
  induction l with
  | nil => rfl
  | cons e l ih =>
    obtain ⟨r, v⟩ := e
    by_cases hr : p = r
    · subst hr
      rw [List.filter_cons_of_pos (by exact hp), List.lookup_cons_self, List.lookup_cons_self]
    · rw [List.lookup_cons, beq_false_of_ne hr, ← ih]
      rw [List.filter_cons]
      split
      · rw [List.lookup_cons, beq_false_of_ne hr]
      · rfl

namespace Louder

theorem check_eq (h : Louder o s f f') : f.check = .ok () ∧ f'.check = .ok () := by
  refine ⟨Frame.check_eq_ok (o := o) fun e he hflag ↦ ?_, Frame.check_eq_ok h.only⟩
  rw [← h.given] at he
  simp [hflag] at he

theorem value?_eq (h : Louder o s f f') (hp : p.isVerbosity = false) :
    f'.value? p = f.value? p := by
  rw [Frame.value?, Frame.value?, ← h.given]
  exact (lookup_filter (q := fun p ↦ !p.isVerbosity) (by rw [hp, Bool.not_false])).symm

theorem command?_eq (h : Louder o s f f') : f'.command? = f.command? := by
  have hvalue : ∀ p : Opt, p.isVerbosity = false → f'.value? p = f.value? p := fun _ ↦ h.value?_eq
  unfold Frame.command?
  rw [h.scope, h.scope', h.argument, hvalue .project rfl, hvalue .output rfl, hvalue .name rfl,
    hvalue .directory rfl, hvalue .packageId rfl, hvalue .description rfl, hvalue .language rfl]

end Louder

end PluginPack.CommandLine
