import PluginPack.Text.Escape

/-!
# Escaped texts

The two ways of escaping a text agree. What they write holds no line break and no tab, and a text
that needs no escape is written as it is.
-/

namespace PluginPack.Text

variable {c : Char} {w t u : Text}

/-! ## Character by character -/

/-- A character that is not written as itself inside double quotes. -/
def needsEscape (c : Char) : Bool :=
  c == '\\' || c == '"' || c == '\n' || c == '\r' || c == '\t'

theorem escapeChar_of_not_needsEscape (h : needsEscape c = false) : escapeChar c = [c] := by
  simp only [needsEscape, Bool.or_eq_false_iff, beq_eq_false_iff_ne] at h
  obtain ⟨⟨⟨⟨h₁, h₂⟩, h₃⟩, h₄⟩, h₅⟩ := h
  rw [escapeChar] <;> assumption

theorem length_escapeChar (c : Char) :
    (escapeChar c).length = if needsEscape c then 2 else 1 := by
  cases h : needsEscape c with
  | false => rw [escapeChar_of_not_needsEscape h]; rfl
  | true =>
    simp only [needsEscape, Bool.or_eq_true, beq_iff_eq] at h
    rcases h with (((rfl | rfl) | rfl) | rfl) | rfl <;> rfl

theorem replaceChar_append (c : Char) (w t u : Text) :
    replaceChar c w (t ++ u) = replaceChar c w t ++ replaceChar c w u := List.flatMap_append

theorem escapeBySteps_append (t u : Text) :
    escapeBySteps (t ++ u) = escapeBySteps t ++ escapeBySteps u := by
  simp only [escapeBySteps, replaceChar_append]

theorem escapeBySteps_singleton (c : Char) : escapeBySteps [c] = escapeChar c := by
  cases h : needsEscape c with
  | false =>
    rw [escapeChar_of_not_needsEscape h]
    simp only [needsEscape, Bool.or_eq_false_iff, beq_eq_false_iff_ne] at h
    simp [escapeBySteps, replaceChar, h]
  | true =>
    simp only [needsEscape, Bool.or_eq_true, beq_iff_eq] at h
    rcases h with (((rfl | rfl) | rfl) | rfl) | rfl <;> rfl

/-- Five replacements in the whole text escape it character by character. -/
theorem escapeBySteps_eq_escape (t : Text) : escapeBySteps t = escape t := by
  induction t with
  | nil => rfl
  | cons c t ih =>
    have happ := escapeBySteps_append [c] t
    rw [List.singleton_append, escapeBySteps_singleton, ih] at happ
    rw [happ, escape, escape, List.flatMap_cons]

/-! ## What an escaped text holds -/

/-- Line breaks and tabs do not stand in an escaped text. -/
theorem not_mem_escape (h : c = '\n' ∨ c = '\r' ∨ c = '\t') (t : Text) : c ∉ escape t := by
  rw [escape, List.mem_flatMap]
  rintro ⟨d, -, hd⟩
  cases hn : needsEscape d with
  | false =>
    rw [escapeChar_of_not_needsEscape hn, List.mem_singleton] at hd
    subst hd
    rcases h with rfl | rfl | rfl <;> cases hn
  | true =>
    simp only [needsEscape, Bool.or_eq_true, beq_iff_eq] at hn
    rcases hn with (((rfl | rfl) | rfl) | rfl) | rfl <;> rcases h with rfl | rfl | rfl <;>
      exact absurd hd (by decide)

theorem length_escape (t : Text) : (escape t).length = t.length + t.countP needsEscape := by
  induction t with
  | nil => rfl
  | cons c t ih =>
    rw [escape, List.flatMap_cons, ← escape, List.length_append, ih, length_escapeChar,
      List.length_cons, List.countP_cons]
    split <;> omega

theorem escape_eq_nil_iff : escape t = [] ↔ t = [] := by
  rw [← List.length_eq_zero_iff, length_escape, ← List.length_eq_zero_iff]
  have h := List.countP_le_length (p := needsEscape) (l := t)
  omega

/-- A text without a character that needs an escape. -/
def IsPlain (t : Text) : Prop := ∀ c ∈ t, needsEscape c = false

/-- Exactly the plain texts are written as they are. -/
theorem escape_eq_self_iff : escape t = t ↔ IsPlain t := by
  constructor
  · intro h
    have hlength := length_escape t
    rw [h, Nat.left_eq_add, List.countP_eq_zero] at hlength
    simpa [IsPlain] using hlength
  · intro h
    induction t with
    | nil => rfl
    | cons c t ih =>
      rw [escape, List.flatMap_cons, ← escape, ih fun d hd ↦ h d (List.mem_cons_of_mem c hd),
        escapeChar_of_not_needsEscape (h c List.mem_cons_self), List.singleton_append]

end PluginPack.Text
