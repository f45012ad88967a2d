import PluginPack.CommandLine.Reader

/-!
# Looking at an option sooner

The value of an option is looked at when the next thing is given. Looked at before that, it is taken
all the same, and the words behind it are read as they were: only two dashes leave an option as it
is. Where the value is refused, the whole line is refused, whatever stands behind it.
-/

namespace PluginPack.CommandLine.Frame

open Text

variable {f g : Frame}

theorem settle_of_pending (h : f.pending = none) : f.settle = .ok f := by
  rw [settle, h]

/-- What looking at an option leaves as it is. -/
theorem of_settle (h : f.settle = .ok g) :
    g.pending = none ∧ g.scope = f.scope ∧ g.argument = f.argument ∧
      g.plainOnly = f.plainOnly := by
  unfold settle at h
  split at h
  · next hpending =>
    obtain rfl := Except.ok.inj h
    exact ⟨hpending, rfl, rfl, rfl⟩
  · cases h
  · next p v _ =>
    unfold give at h
    split at h
    · cases h
    · cases hcheck : checkValue p v with
      | error e =>
        rw [hcheck] at h
        cases h
      | ok u =>
        rw [hcheck] at h
        obtain rfl := Except.ok.inj h
        exact ⟨rfl, rfl, rfl, rfl⟩

theorem give_withPlainOnly (f : Frame) (p : Opt) (v : Text) :
    { f with plainOnly := true }.give p v =
      (f.give p v).map fun g ↦ { g with plainOnly := true } := by
  have hhas : ({ f with plainOnly := true } : Frame).has p = f.has p := rfl
  unfold give
  rw [hhas]
  split
  · rfl
  · cases checkValue p v with
    | error e => rfl
    | ok u => rfl

theorem settle_withPlainOnly (f : Frame) :
    { f with plainOnly := true }.settle = f.settle.map fun g ↦ { g with plainOnly := true } := by
  unfold settle
  simp only
  split
  · rfl
  · rfl
  · exact give_withPlainOnly { f with pending := none } _ _

section Settled

variable (h : f.settle = .ok g)
include h

theorem giveFlag_of_settle (p : Opt) (t : Text) : f.giveFlag p t = g.giveFlag p t := by
  rw [giveFlag, giveFlag, h, settle_of_pending (of_settle h).1]

theorem giveAttached_of_settle (p : Opt) (v : Text) : f.giveAttached p v = g.giveAttached p v := by
  rw [giveAttached, giveAttached, h, settle_of_pending (of_settle h).1]

theorem await_of_settle (p : Opt) : f.await p = g.await p := by
  rw [await, await, h, settle_of_pending (of_settle h).1]

theorem readLong_of_settle (body : Text) : f.readLong body = g.readLong body := by
  unfold readLong
  simp only [giveFlag_of_settle h, giveAttached_of_settle h, await_of_settle h, (of_settle h).2.1]

theorem readShort_of_settle (c : Char) (r : Text) :
    f.readShort (c :: r) = g.readShort (c :: r) := by
  rw [readShort, readShort]
  simp only [giveFlag_of_settle h, giveAttached_of_settle h, await_of_settle h, (of_settle h).2.1]

theorem readPlain_of_settle (w : Text) : f.readPlain w = g.readPlain w := by
  obtain ⟨hpending, hscope, hargument, hplain⟩ := of_settle h
  rw [readPlain, readPlain, h, settle_of_pending hpending, hscope, hargument, hplain]

/-- When an option is looked at before a word and not behind it, the word is read all the same, but
for two dashes, with which nothing is looked at. -/
theorem read_of_settle (w : Text) :
    f.read w = g.read w ∨
      f.read w = .ok { f with plainOnly := true } ∧
        g.read w = .ok { g with plainOnly := true } := by
  obtain ⟨hpending, -, -, hplain⟩ := of_settle h
  unfold read
  rw [hplain]
  split
  · exact .inl (readPlain_of_settle h w)
  · split
    · exact .inr ⟨rfl, rfl⟩
    · exact .inl (readLong_of_settle h _)
    · exact .inl (readShort_of_settle h _ _)
    · left
      rw [hpending]
      split
      · next p hawait =>
        rw [settle, hawait] at h
        cases h
      · exact readPlain_of_settle h _

end Settled

section Refused

variable {e : UsageError} (h : f.settle = .error e)
include h

/-- An option that is refused has a value, where the next word may be something else. -/
theorem exists_pending_of_refused (hawaits : f.awaitsValue = false) (hplain : f.plainOnly = false) :
    ∃ p v, f.pending = some (p, some v) := by
  cases hpending : f.pending with
  | none =>
    rw [settle_of_pending hpending] at h
    cases h
  | some x =>
    obtain ⟨p, v⟩ := x
    cases v with
    | none =>
      rw [awaitsValue, hpending, hplain] at hawaits
      cases hawaits
    | some v => exact ⟨p, v, rfl⟩

theorem giveFlag_of_refused (p : Opt) (t : Text) : f.giveFlag p t = .error (.usage e) := by
  rw [giveFlag, h]
  rfl

theorem giveAttached_of_refused (p : Opt) (v : Text) :
    f.giveAttached p v = .error (.usage e) := by
  rw [giveAttached, h]
  rfl

theorem await_of_refused (p : Opt) : f.await p = .error (.usage e) := by
  rw [await, h]
  rfl

theorem readLong_of_refused (body : Text) : ∃ e, f.readLong body = .error (.usage e) := by
  unfold readLong
  simp only [giveFlag_of_refused h, giveAttached_of_refused h, await_of_refused h]
  split
  · exact ⟨_, rfl⟩
  · split <;> exact ⟨_, rfl⟩

theorem readShort_of_refused (c : Char) (r : Text) :
    ∃ e, f.readShort (c :: r) = .error (.usage e) := by
  rw [readShort]
  simp only [giveFlag_of_refused h, giveAttached_of_refused h, await_of_refused h]
  split
  · exact ⟨_, rfl⟩
  · split
    · split <;> exact ⟨_, rfl⟩
    · exact ⟨_, rfl⟩

theorem readPlain_of_refused (w : Text) : ∃ e, f.readPlain w = .error (.usage e) := by
  unfold readPlain
  rw [h]
  split
  · exact ⟨e, rfl⟩
  · split <;> exact ⟨_, rfl⟩

end Refused

/-- An option whose value is refused when it is looked at. -/
structure IsDoomed (f : Frame) : Prop where
  pending : ∃ p v, f.pending = some (p, some v)
  refused : ∃ e, f.settle = .error e
  subcommands : f.scope.subcommands = []

namespace IsDoomed

/-- The value is refused by the next word, unless this is two dashes and leaves it for later. -/
theorem read_cases (h : f.IsDoomed) (w : Text) :
    (∃ e, f.read w = .error (.usage e)) ∨
      f.read w = .ok { f with plainOnly := true } ∧ IsDoomed { f with plainOnly := true } := by
  obtain ⟨p, v, hpending⟩ := h.pending
  obtain ⟨e, hrefused⟩ := h.refused
  unfold read
  split
  · exact .inl (readPlain_of_refused hrefused w)
  · split
    · refine .inr ⟨rfl, ⟨p, v, hpending⟩, ⟨e, ?_⟩, h.subcommands⟩
      rw [settle_withPlainOnly, hrefused]
      rfl
    · exact .inl (readLong_of_refused hrefused _)
    · exact .inl (readShort_of_refused hrefused _ _)
    · rw [hpending]
      exact .inl (readPlain_of_refused hrefused _)

theorem readWords (h : f.IsDoomed) (outer : List Frame) (ws : List Text) :
    ∃ e, readWords outer f ws = .error (.usage e) := by
  induction ws generalizing f with
  | nil =>
    obtain ⟨e, hrefused⟩ := h.refused
    rw [CommandLine.readWords, hrefused]
    exact ⟨e, rfl⟩
  | cons w ws ih =>
    have hsub : f.subcommand? w = none := by
      rw [subcommand?, Scope.subcommand?, h.subcommands]
      split
      · rfl
      · rfl
    rw [CommandLine.readWords, hsub]
    rcases h.read_cases w with ⟨e, hread⟩ | ⟨hread, hdoomed⟩
    · rw [hread]
      exact ⟨e, rfl⟩
    · rw [hread]
      exact ih hdoomed

end IsDoomed

end PluginPack.CommandLine.Frame
