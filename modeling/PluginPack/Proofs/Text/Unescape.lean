import Mathlib.Algebra.Ring.Parity
import PluginPack.Proofs.Registry.Literal
import PluginPack.Proofs.Text.Escape

/-!
# Taking escapes back

An escaped text can be read again: from left to right, every backslash takes the character behind it
along, and nothing else is changed. That no quote ends an escaped text early is a matter of parity.
A run of backslashes is read in pairs, so the character behind it belongs to an escape exactly when
the run is odd. An escape leaves an even run behind, so the parity of a run can be counted from any
place at which an escape ends.
-/

namespace PluginPack.Text

open Registry (escaped?)

variable {a b t u : Text} {c : Char}

/-- Takes the escapes of a text back. A backslash that begins no escape is refused. -/
def unescape? : Text → Option Text
  | [] => some []
  | ['\\'] => none
  | '\\' :: c :: r => (escaped? c).bind fun d ↦ (unescape? r).map (d :: ·)
  | c :: r => (unescape? r).map (c :: ·)

/-- The number of backslashes that a text ends in. -/
def backslashes (t : Text) : Nat := (t.reverse.takeWhile (· == '\\')).length

/-! ## Reading back -/

/-- A character is written as a backslash and a letter that stands for it, or as itself. -/
theorem escapeChar_eq_or (c : Char) :
    (∃ e, escapeChar c = ['\\', e] ∧ escaped? e = some c) ∨
      escapeChar c = [c] ∧ c ≠ '\\' ∧ c ≠ '"' := by
  cases h : needsEscape c with
  | true =>
    simp only [needsEscape, Bool.or_eq_true, beq_iff_eq] at h
    rcases h with (((rfl | rfl) | rfl) | rfl) | rfl <;> exact .inl ⟨_, rfl, rfl⟩
  | false =>
    refine .inr ⟨escapeChar_of_not_needsEscape h, ?_, ?_⟩
    · rintro rfl
      cases h
    · rintro rfl
      cases h

theorem unescape?_cons (hc : c ≠ '\\') (r : Text) :
    unescape? (c :: r) = (unescape? r).map (c :: ·) := by
  rw [unescape?]
  · exact fun h _ ↦ hc h
  · exact fun _ _ h ↦ absurd h hc

theorem unescape?_escapeChar (c : Char) (r : Text) :
    unescape? (escapeChar c ++ r) = (unescape? r).map (c :: ·) := by
  obtain ⟨e, heq, he⟩ | ⟨heq, hc, -⟩ := escapeChar_eq_or c
  · rw [heq, List.cons_append, List.singleton_append, unescape?, he]
    rfl
  · rw [heq, List.singleton_append, unescape?_cons hc]

theorem unescape?_escape (t : Text) : unescape? (escape t) = some t := by
  induction t with
  | nil => rfl
  | cons c t ih =>
    rw [escape, List.flatMap_cons, ← escape, unescape?_escapeChar, ih]
    rfl

/-! ## Runs of backslashes -/

/-- A run goes on into the text before it only when there is nothing else behind that text. -/
theorem backslashes_append (a b : Text) :
    backslashes (a ++ b) = backslashes b ∨
      backslashes (a ++ b) = backslashes a + backslashes b := by
  unfold backslashes
  rw [List.reverse_append, List.takeWhile_append]
  split_ifs with h
  · right
    rw [List.length_append, h, Nat.add_comm]
  · exact .inl rfl

/-- Behind an even run the parity is that of the rest. -/
theorem odd_backslashes_append (h : Even (backslashes a)) (b : Text) :
    Odd (backslashes (a ++ b)) ↔ Odd (backslashes b) := by
  obtain heq | heq := backslashes_append a b
  · rw [heq]
  · rw [heq, Nat.odd_add']
    exact iff_true_right h

theorem backslashes_concat (hc : c ≠ '\\') (t : Text) : backslashes (t ++ [c]) = 0 := by
  simp [backslashes, hc]

/-- An escape ends in no backslash or in a pair of them. -/
theorem even_backslashes_escapeChar (c : Char) : Even (backslashes (escapeChar c)) := by
  cases h : needsEscape c with
  | true =>
    simp only [needsEscape, Bool.or_eq_true, beq_iff_eq] at h
    rcases h with (((rfl | rfl) | rfl) | rfl) | rfl <;> decide
  | false =>
    have hc : c ≠ '\\' := by
      rintro rfl
      cases h
    rw [escapeChar_of_not_needsEscape h, ← List.nil_append [c], backslashes_concat hc]
    exact Even.zero

theorem not_odd_backslashes_escape (t : Text) : ¬Odd (backslashes (escape t)) := by
  induction t with
  | nil => decide
  | cons c t ih =>
    rwa [escape, List.flatMap_cons, ← escape,
      odd_backslashes_append (even_backslashes_escapeChar c)]

theorem eq_of_escapeChar_eq (h : escapeChar c = a ++ '"' :: b) : a = ['\\'] := by
  obtain ⟨e, heq, -⟩ | ⟨heq, -, hc⟩ := escapeChar_eq_or c
  · rw [heq, List.cons_eq_append_iff] at h
    obtain ⟨-, hquote⟩ | ⟨a', rfl, h⟩ := h
    · cases hquote
    · obtain ⟨rfl, -⟩ | ⟨_, -, h⟩ := List.cons_eq_append_iff.mp h
      · rfl
      · simp at h
  · rw [heq, List.cons_eq_append_iff] at h
    obtain ⟨-, hquote⟩ | ⟨_, -, h⟩ := h
    · exact absurd (List.cons.inj hquote).1.symm hc
    · simp at h

/-- **A quote in an escaped text belongs to an escape**: the run of backslashes before it is odd. -/
theorem odd_backslashes_of_escape_eq (h : escape t = a ++ '"' :: b) : Odd (backslashes a) := by
  induction t generalizing a with
  | nil => exact absurd h (by simp [escape])
  | cons c t ih =>
    rw [escape, List.flatMap_cons, ← escape] at h
    rcases List.append_eq_append_iff.mp h with ⟨a', rfl, h'⟩ | ⟨r, hr, h'⟩
    · rw [odd_backslashes_append (even_backslashes_escapeChar c)]
      exact ih h'
    · cases r with
      | nil =>
        -- The quote begins the rest, which no escaped text does.
        exact absurd (ih (a := []) h'.symm) (by decide)
      | cons d r =>
        obtain ⟨rfl, -⟩ := List.cons.inj h'
        rw [eq_of_escapeChar_eq hr]
        decide

/-- **Escaped texts.** -/
theorem escape_invertible (t : Text) :
    escapeBySteps t = escape t ∧
      ('\n' ∉ escape t ∧ '\r' ∉ escape t ∧ '\t' ∉ escape t) ∧
      (∀ a b, escape t = a ++ '"' :: b → Odd (backslashes a)) ∧
      ¬Odd (backslashes (escape t)) ∧
      unescape? (escape t) = some t :=
  ⟨escapeBySteps_eq_escape t,
    ⟨not_mem_escape (.inl rfl) t, not_mem_escape (.inr (.inl rfl)) t,
      not_mem_escape (.inr (.inr rfl)) t⟩,
    fun _ _ ↦ odd_backslashes_of_escape_eq, not_odd_backslashes_escape t, unescape?_escape t⟩

end PluginPack.Text
