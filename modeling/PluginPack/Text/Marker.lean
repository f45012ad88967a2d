import PluginPack.Text.Basic

/-!
# Marked parts of a text

A marker recognises one kind of part wherever it may begin: a statement at the beginning of a line,
a literal, a type annotation. Going through a text from left to right, the earliest part is taken
first and the search goes on behind it, so the parts never overlap. The outcome is a `Cut`: the
plain stretches of the text with the parts between them, from which nothing is lost.
-/

namespace PluginPack

/-- A text cut into plain stretches with parts between them. -/
structure Cut (α : Type) where
  first : Text
  rest : List (α × Text)

namespace Cut

variable {α : Type}

/-- The cut of the empty text. -/
def empty : Cut α := ⟨[], []⟩

/-- Puts a plain character in front. -/
def push (c : Char) (k : Cut α) : Cut α := ⟨c :: k.first, k.rest⟩

/-- Puts a part in front. -/
def mark (a : α) (k : Cut α) : Cut α := ⟨[], (a, k.first) :: k.rest⟩

/-- The parts in order. -/
def parts (k : Cut α) : List α := k.rest.map (·.1)

/-- Writes every plain stretch and every part, in order. -/
def render (plain : Text → Text) (part : α → Text) (k : Cut α) : Text :=
  plain k.first ++ k.rest.flatMap fun p ↦ part p.1 ++ plain p.2

/-- Writes the parts differently and leaves the plain stretches as they are. -/
def substitute (part : α → Text) (k : Cut α) : Text := k.render id part

@[simp] theorem substitute_empty (part : α → Text) : (empty : Cut α).substitute part = [] := rfl

@[simp] theorem substitute_push (part : α → Text) (c : Char) (k : Cut α) :
    (k.push c).substitute part = c :: k.substitute part := rfl

@[simp] theorem substitute_mark (part : α → Text) (a : α) (k : Cut α) :
    (k.mark a).substitute part = part a ++ k.substitute part := by
  simp [substitute, render, mark]

end Cut

/-- A part found in a text: the text it covers and what it means. -/
structure Part (α : Type) where
  lexeme : Text
  value : α

/-- A kind of part. At a place in a text, given the character before it, the marker answers with the
meaning of the part that begins there and the rest of the text. -/
structure Marker (α : Type) where
  find? : Option Char → Text → Option (α × Text)
  suffix : ∀ {before t a r}, find? before t = some (a, r) → r <:+ t
  shorter : ∀ {before t a r}, find? before t = some (a, r) → r.length < t.length

namespace Marker

variable {α : Type}

/-- What was read of `t` when `r` is left. -/
def consumed (t r : Text) : Text := t.take (t.length - r.length)

theorem consumed_append {t r : Text} (h : r <:+ t) : consumed t r ++ r = t := by
  obtain ⟨w, rfl⟩ := h
  simp [consumed]

/-- Cuts a text that stands behind the character `before`. -/
def cutFrom (m : Marker α) (before : Option Char) (t : Text) : Cut (Part α) :=
  match t with
  | [] => .empty
  | c :: s =>
    match h : m.find? before (c :: s) with
    | some (a, r) =>
      have := m.shorter h
      (m.cutFrom (consumed (c :: s) r).getLast? r).mark ⟨consumed (c :: s) r, a⟩
    | none => (m.cutFrom (some c) s).push c
termination_by t.length
decreasing_by all_goals (simp only [List.length_cons] at *; omega)

/-- Cuts a text from its beginning. -/
def cut (m : Marker α) (t : Text) : Cut (Part α) := m.cutFrom none t

/-- The parts found in a text, in order. -/
def findAll (m : Marker α) (t : Text) : List (Part α) := (m.cut t).parts

/-- Replaces every part by the text that its meaning gives. -/
def replace (m : Marker α) (f : α → Text) (t : Text) : Text :=
  (m.cut t).substitute fun p ↦ f p.value

/-- Removes every part. -/
def erase (m : Marker α) (t : Text) : Text := m.replace (fun _ ↦ []) t

theorem cutFrom_nil (m : Marker α) (before : Option Char) : m.cutFrom before [] = .empty := by
  rw [cutFrom]

theorem cutFrom_of_some (m : Marker α) {before : Option Char} {t r : Text} {a : α}
    (h : m.find? before t = some (a, r)) :
    m.cutFrom before t = (m.cutFrom (consumed t r).getLast? r).mark ⟨consumed t r, a⟩ := by
  cases t with
  | nil => exact absurd (m.shorter h) (by simp)
  | cons c s =>
    rw [cutFrom]
    split
    · rename_i h'
      rw [h] at h'
      cases h'
      rfl
    · rename_i h'
      rw [h] at h'
      cases h'

theorem cutFrom_of_none (m : Marker α) {before : Option Char} {c : Char} {s : Text}
    (h : m.find? before (c :: s) = none) :
    m.cutFrom before (c :: s) = (m.cutFrom (some c) s).push c := by
  rw [cutFrom]
  split
  · rename_i h'
    rw [h] at h'
    cases h'
  · rfl

/-- Nothing is lost: the stretches and the parts make up the text again. -/
theorem substitute_lexeme_cutFrom (m : Marker α) (before : Option Char) (t : Text) :
    (m.cutFrom before t).substitute Part.lexeme = t := by
  induction hn : t.length using Nat.strongRecOn generalizing before t with
  | ind n ih =>
    subst hn
    cases t with
    | nil => rw [cutFrom_nil]; rfl
    | cons c s =>
      cases h : m.find? before (c :: s) with
      | none =>
        rw [cutFrom_of_none m h, Cut.substitute_push, ih s.length (by simp) (some c) s rfl]
      | some p =>
        obtain ⟨a, r⟩ := p
        rw [cutFrom_of_some m h, Cut.substitute_mark, ih r.length (m.shorter h) _ r rfl]
        exact consumed_append (m.suffix h)

/-! ## Parts at the beginnings of lines -/

/-- Whether a line begins behind the given character. -/
def beginsLine (before : Option Char) : Bool := before.all (· == '\n')

/-- The marker of the parts that a step finds at the beginnings of lines. -/
def ofLine (step : Text → Option (α × Text))
    (h : ∀ {t a r}, step t = some (a, r) → r <:+ t ∧ r.length < t.length) : Marker α where
  find? before t := if beginsLine before then step t else none
  suffix hs := by
    split at hs
    · exact (h hs).1
    · cases hs
  shorter hs := by
    split at hs
    · exact (h hs).2
    · cases hs

end Marker

end PluginPack
