import PluginPack.Proofs.Text.Reading

/-!
# Where the parts of a text lie

A span is a part together with its place in the text. The spans that a marker finds follow one
another, and spans that keep apart from everything that is taken out of a text are still there
afterwards, in the same order.
-/

namespace PluginPack

open Text

variable {α β : Type}

/-- A part of a text and the number of characters in front of it. -/
structure Span (α : Type) where
  offset : Nat
  part : Part α

namespace Span

def text (s : Span α) : Text := s.part.lexeme

/-- The number of characters up to the end of the part. -/
def ends (s : Span α) : Nat := s.offset + s.text.length

/-- One of two spans ends before the other begins. -/
def Apart (s : Span α) (s' : Span β) : Prop := s.ends ≤ s'.offset ∨ s'.ends ≤ s.offset

instance (s : Span α) (s' : Span β) : Decidable (s.Apart s') :=
  inferInstanceAs (Decidable (_ ∨ _))

end Span

/-! ## Plain text in a cut -/

namespace Cut

/-- Puts plain text in front. -/
def prepend (w : Text) (k : Cut α) : Cut α := ⟨w ++ k.first, k.rest⟩

theorem push_prepend (c : Char) (w : Text) (k : Cut α) :
    (k.prepend w).push c = k.prepend (c :: w) := rfl

@[simp] theorem parts_prepend (w : Text) (k : Cut α) : (k.prepend w).parts = k.parts := rfl

@[simp] theorem substitute_prepend (part : α → Text) (w : Text) (k : Cut α) :
    (k.prepend w).substitute part = w ++ k.substitute part := by
  simp [substitute, render, prepend]

theorem prepend_nil (k : Cut α) : k.prepend [] = k := rfl

theorem prepend_prepend (v w : Text) (k : Cut α) :
    (k.prepend v).prepend w = k.prepend (w ++ v) := by
  simp [prepend]

theorem render_prepend_empty (plain : Text → Text) (part : α → Text) (w : Text) :
    ((empty : Cut α).prepend w).render plain part = plain w := by
  simp [render, prepend, empty]

theorem render_prepend_mark (plain : Text → Text) (part : α → Text) (w : Text) (a : α)
    (k : Cut α) :
    ((k.mark a).prepend w).render plain part = plain w ++ (part a ++ k.render plain part) := by
  simp [render, prepend, mark]

end Cut

/-! ## One cut behind another -/

namespace Cut

/-- Puts a cut behind a stretch of plain text and parts with plain stretches behind them. -/
def appendFrom (w : Text) (k : Cut α) : List (α × Text) → Cut α
  | [] => k.prepend w
  | (a, w') :: rest => ((appendFrom w' k rest).mark a).prepend w

/-- Puts a cut behind another one. The last stretch of the one and the first stretch of the other
become one. -/
def append (k k' : Cut α) : Cut α := appendFrom k.first k' k.rest

theorem append_empty_prepend (w : Text) (k : Cut α) : append ⟨w, []⟩ k = k.prepend w := rfl

theorem push_append (c : Char) (k k' : Cut α) : (k.push c).append k' = (k.append k').push c := by
  obtain ⟨w, rest⟩ := k
  cases rest <;> rfl

theorem mark_append (a : α) (k k' : Cut α) : (k.mark a).append k' = (k.append k').mark a := rfl

theorem parts_append (k k' : Cut α) : (k.append k').parts = k.parts ++ k'.parts := by
  obtain ⟨w, rest⟩ := k
  induction rest generalizing w with
  | nil => rfl
  | cons q rest ih => exact congrArg (q.1 :: ·) (ih q.2)

theorem substitute_append (part : α → Text) (k k' : Cut α) :
    (k.append k').substitute part = k.substitute part ++ k'.substitute part := by
  obtain ⟨w, rest⟩ := k
  induction rest generalizing w with
  | nil =>
    rw [append_empty_prepend, substitute_prepend]
    simp [substitute, render]
  | cons q rest ih =>
    have hrest : (append ⟨q.2, rest⟩ k').substitute part =
        substitute part ⟨q.2, rest⟩ ++ k'.substitute part := ih q.2
    have happend : append ⟨w, q :: rest⟩ k' = ((append ⟨q.2, rest⟩ k').mark q.1).prepend w := rfl
    have hsplit : substitute part ⟨w, q :: rest⟩ =
        w ++ (part q.1 ++ substitute part ⟨q.2, rest⟩) := by simp [substitute, render]
    rw [happend, substitute_prepend, substitute_mark, hrest, hsplit]
    simp only [List.append_assoc]

end Cut

/-! ## The spans of a cut -/

namespace Cut

/-- The spans of a cut: `o` characters come before the stretch `w`, and what is listed follows. -/
def spansFrom (o : Nat) (w : Text) : List (Part α × Text) → List (Span α)
  | [] => []
  | (p, w') :: rest => ⟨o + w.length, p⟩ :: spansFrom (o + w.length + p.lexeme.length) w' rest

/-- The parts of a cut with their places. -/
def spans (k : Cut (Part α)) : List (Span α) := spansFrom 0 k.first k.rest

theorem spansFrom_append (o : Nat) (a w : Text) (rest : List (Part α × Text)) :
    spansFrom o (a ++ w) rest = spansFrom (o + a.length) w rest := by
  cases rest with
  | nil => rfl
  | cons q rest => simp only [spansFrom, List.length_append, Nat.add_assoc]

theorem spansFrom_push (o : Nat) (c : Char) (k : Cut (Part α)) :
    spansFrom o (k.push c).first (k.push c).rest = spansFrom (o + 1) k.first k.rest :=
  spansFrom_append o [c] k.first k.rest

theorem spansFrom_mark (o : Nat) (p : Part α) (k : Cut (Part α)) :
    spansFrom o (k.mark p).first (k.mark p).rest =
      ⟨o, p⟩ :: spansFrom (o + p.lexeme.length) k.first k.rest := rfl

theorem map_part_spansFrom (o : Nat) (w : Text) (rest : List (Part α × Text)) :
    (spansFrom o w rest).map Span.part = rest.map Prod.fst := by
  induction rest generalizing o w with
  | nil => rfl
  | cons q rest ih => simp only [spansFrom, List.map_cons, ih]

theorem substitute_cons (f : α → Text) (w w' : Text) (a : α) (rest : List (α × Text)) :
    Cut.substitute f ⟨w, (a, w') :: rest⟩ = w ++ (f a ++ Cut.substitute f ⟨w', rest⟩) := by
  simp [substitute, render]

end Cut

namespace Marker

variable {m : Marker α} {s : Span α} {t : Text}

/-- The parts that a marker finds in a text, with their places. -/
def spans (m : Marker α) (t : Text) : List (Span α) := (m.cut t).spans

theorem map_part_spans (m : Marker α) (t : Text) : (m.spans t).map Span.part = m.findAll t :=
  Cut.map_part_spansFrom ..

theorem exists_find?_of_mem_spansFrom {before : Option Char} {o : Nat}
    (h : s ∈ Cut.spansFrom o (m.cutFrom before t).first (m.cutFrom before t).rest) :
    ∃ a r, t = a ++ (s.text ++ r) ∧ s.offset = o + a.length ∧
      m.find? (a.getLast?.or before) (s.text ++ r) = some (s.part.value, r) := by
  induction hn : t.length using Nat.strongRecOn generalizing before o t with
  | ind n ih =>
    subst hn
    cases t with
    | nil =>
      rw [cutFrom_nil] at h
      exact absurd h List.not_mem_nil
    | cons c t =>
      cases hfind : m.find? before (c :: t) with
      | none =>
        rw [cutFrom_of_none m hfind, Cut.spansFrom_push] at h
        obtain ⟨a, r, rfl, ho, hs⟩ := ih t.length (by simp) h rfl
        refine ⟨c :: a, r, rfl, ?_, ?_⟩
        · rw [ho, List.length_cons]
          omega
        · rw [← List.singleton_append, List.getLast?_append, Option.or_assoc]
          exact hs
      | some q =>
        obtain ⟨v, r⟩ := q
        have hsplit := consumed_append (m.suffix hfind)
        rw [cutFrom_of_some m hfind, Cut.spansFrom_mark] at h
        rcases List.mem_cons.mp h with rfl | h
        · refine ⟨[], r, hsplit.symm, rfl, ?_⟩
          rw [← hsplit] at hfind
          exact hfind
        · obtain ⟨a, r', hr, ho, hs⟩ := ih r.length (m.shorter hfind) h rfl
          -- A match is never empty, so its last character stands in front of the rest.
          have hne : consumed (c :: t) r ≠ [] := by
            intro hnil
            have hlength := m.shorter hfind
            rw [← hsplit, hnil] at hlength
            exact absurd hlength (Nat.lt_irrefl _)
          refine ⟨consumed (c :: t) r ++ a, r', ?_, ?_, ?_⟩
          · rw [List.append_assoc, ← hr, hsplit]
          · rw [ho, List.length_append, Nat.add_assoc]
          · rw [List.getLast?_append, Option.or_assoc]
            rw [List.getLast?_eq_getLast_of_ne_nil hne] at hs ⊢
            exact hs

/-- A span was found at its place in the text, behind the character that stands there. -/
theorem exists_find?_of_mem_spans (h : s ∈ m.spans t) :
    ∃ a r, t = a ++ (s.text ++ r) ∧ s.offset = a.length ∧
      m.find? a.getLast? (s.text ++ r) = some (s.part.value, r) := by
  obtain ⟨a, r, ht, ho, hs⟩ := exists_find?_of_mem_spansFrom h
  rw [Nat.zero_add] at ho
  rw [Option.or_none] at hs
  exact ⟨a, r, ht, ho, hs⟩

end Marker

/-! ## Texts in a text -/

/-- Texts stand in a text in their order, one behind the other. -/
inductive Holds : List Text → Text → Prop where
  | nil (t : Text) : Holds [] t
  | cons {l t : Text} {ls : List Text} (a : Text) (h : Holds ls t) : Holds (l :: ls) (a ++ (l ++ t))

namespace Holds

variable {ls ls' : List Text} {t u : Text}

theorem append_left (h : Holds ls t) (a : Text) : Holds ls (a ++ t) := by
  cases h with
  | nil => exact .nil _
  | cons b h =>
    rw [← List.append_assoc]
    exact .cons (a ++ b) h

theorem append (h : Holds ls t) (h' : Holds ls' u) : Holds (ls ++ ls') (t ++ u) := by
  induction h with
  | nil t => exact h'.append_left t
  | cons a _ ih =>
    rw [List.append_assoc, List.append_assoc]
    exact .cons a ih

theorem isInfix (h : Holds ls t) : ∀ l ∈ ls, l <:+: t := by
  induction h with
  | nil => exact fun l hl ↦ absurd hl List.not_mem_nil
  | @cons l t ls a h ih =>
    intro m hm
    rcases List.mem_cons.mp hm with rfl | hm
    · exact ⟨a, t, by rw [List.append_assoc]⟩
    · refine (ih m hm).trans (List.IsSuffix.isInfix ?_)
      rw [← List.append_assoc]
      exact List.suffix_append _ _

end Holds

/-- Spans lie in a text at their places, which are counted from `o` on. -/
inductive Lies : Nat → List (Span α) → Text → Prop where
  | nil (o : Nat) (t : Text) : Lies o [] t
  | cons {o : Nat} {s : Span α} {ls : List (Span α)} {t : Text} (a : Text)
    (ho : s.offset = o + a.length) (h : Lies s.ends ls t) : Lies o (s :: ls) (a ++ (s.text ++ t))

namespace Lies

variable {o : Nat} {ls : List (Span α)} {t u w x : Text}

theorem holds (h : Lies o ls t) : Holds (ls.map Span.text) t := by
  induction h with
  | nil => exact .nil _
  | cons a _ _ ih => exact .cons a ih

theorem le_offset (h : Lies o ls t) : ∀ s ∈ ls, o ≤ s.offset := by
  induction h with
  | nil => exact fun s hs ↦ absurd hs List.not_mem_nil
  | @cons o s ls t a ho _ ih =>
    intro s' hs'
    rcases List.mem_cons.mp hs' with rfl | hs'
    · exact ho ▸ Nat.le_add_right _ _
    · have hends := ih s' hs'
      rw [Span.ends, ho] at hends
      omega

/-- No span reaches over the end of another one. -/
theorem ends_le_or_le_offset (h : Lies o ls t) :
    ∀ s ∈ ls, ∀ s' ∈ ls, s'.ends ≤ s.ends ∨ s.ends ≤ s'.offset := by
  induction h with
  | nil => exact fun s hs ↦ absurd hs List.not_mem_nil
  | cons a ho h ih =>
    intro s hmem s' hmem'
    rcases List.mem_cons.mp hmem with rfl | hs <;> rcases List.mem_cons.mp hmem' with rfl | hs'
    · exact .inl le_rfl
    · exact .inr (h.le_offset s' hs')
    · exact .inl ((h.le_offset s hs).trans (Nat.le_add_right _ _))
    · exact ih s hs s' hs'

theorem append_left {a : Text} (h : Lies (o + a.length) ls t) : Lies o ls (a ++ t) := by
  cases h with
  | nil => exact .nil _ _
  | cons b ho h =>
    rw [← List.append_assoc]
    refine .cons (a ++ b) ?_ h
    rw [ho, List.length_append, Nat.add_assoc]

theorem filter (h : Lies o ls t) (p : Span α → Bool) : Lies o (ls.filter p) t := by
  induction h with
  | nil => exact .nil _ _
  | @cons o s ls t a ho h ih =>
    rw [List.filter_cons]
    split
    · exact .cons a ho ih
    -- A span that is left out becomes text in front of the next one.
    · rw [Span.ends, ho, Nat.add_assoc, ← List.length_append] at ih
      rw [← List.append_assoc]
      exact ih.append_left

/-- The spans of a cut lie in the text that was cut. -/
theorem spansFrom (o : Nat) (w : Text) (rest : List (Part α × Text)) :
    Lies o (Cut.spansFrom o w rest) (Cut.substitute Part.lexeme ⟨w, rest⟩) := by
  induction rest generalizing o w with
  | nil => exact .nil _ _
  | cons q rest ih =>
    obtain ⟨p, w'⟩ := q
    rw [Cut.substitute_cons]
    exact .cons w rfl (ih _ w')

theorem spans (m : Marker α) (t : Text) : Lies 0 (m.spans t) t := by
  have h : Lies 0 (m.spans t) ((m.cut t).substitute Part.lexeme) := spansFrom ..
  rwa [Marker.cut, m.substitute_lexeme_cutFrom] at h

/-- Spans that keep apart from a stretch of the text lie in front of it and behind it. -/
theorem split (h : Lies o ls (w ++ (x ++ u)))
    (hapart : ∀ s ∈ ls, s.ends ≤ o + w.length ∨ o + w.length + x.length ≤ s.offset) :
    ∃ front back, ls = front ++ back ∧ Lies o front w ∧
      Lies (o + w.length + x.length) back u := by
  generalize ht : w ++ (x ++ u) = t at h
  induction h generalizing w with
  | nil => exact ⟨[], [], rfl, .nil _ _, .nil _ _⟩
  | @cons o s ls t a ho h ih =>
    rcases hapart s List.mem_cons_self with hfront | hback
    · rw [Span.ends, ho, Nat.add_assoc, ← List.length_append] at hfront
      have hpre : a ++ s.text <+: w := by
        refine List.prefix_of_prefix_length_le ?_ (List.prefix_append w (x ++ u)) (by omega)
        rw [ht, ← List.append_assoc]
        exact List.prefix_append _ _
      obtain ⟨w', rfl⟩ := hpre
      have hends : s.ends + w'.length = o + (a ++ s.text ++ w').length := by
        rw [Span.ends, ho]
        simp only [List.length_append]
        omega
      have htail : w' ++ (x ++ u) = t := by
        simpa only [List.append_assoc, List.append_cancel_left_eq] using ht
      obtain ⟨front, back, rfl, hf, hb⟩ := ih
        (fun l hl ↦ hends ▸ hapart l (List.mem_cons_of_mem s hl)) htail
      refine ⟨s :: front, back, rfl, ?_, hends ▸ hb⟩
      rw [List.append_assoc]
      exact .cons a ho hf
    -- Once one span lies behind the stretch, so do all that follow it.
    · rw [ho, Nat.add_assoc, ← List.length_append] at hback
      have hpre : w ++ x <+: a := by
        refine List.prefix_of_prefix_length_le ?_ (List.prefix_append a (s.text ++ t)) (by omega)
        rw [← ht, ← List.append_assoc]
        exact List.prefix_append _ _
      obtain ⟨a', rfl⟩ := hpre
      have htail : u = a' ++ (s.text ++ t) := by
        simpa only [List.append_assoc, List.append_cancel_left_eq] using ht
      refine ⟨[], s :: ls, rfl, .nil _ _, ?_⟩
      rw [htail]
      refine .cons a' ?_ h
      rw [ho]
      simp only [List.length_append]
      omega

/-- Spans that keep apart from every part that is taken out of a text are left in what remains. -/
theorem holds_substitute {f : Part β → Text} {rest : List (Part β × Text)}
    (h : Lies o ls (Cut.substitute Part.lexeme ⟨w, rest⟩))
    (hf : ∀ p, f p = p.lexeme ∨ f p = [])
    (hapart : ∀ s ∈ Cut.spansFrom o w rest, f s.part ≠ s.part.lexeme → ∀ l ∈ ls, l.Apart s) :
    Holds (ls.map Span.text) (Cut.substitute f ⟨w, rest⟩) := by
  induction rest generalizing o w ls with
  | nil => exact h.holds
  | cons q rest ih =>
    obtain ⟨p, w'⟩ := q
    rw [Cut.substitute_cons] at h ⊢
    have hbelow : ∀ s ∈ Cut.spansFrom (o + w.length + p.lexeme.length) w' rest,
        f s.part ≠ s.part.lexeme → ∀ l ∈ ls, l.Apart s :=
      fun s hs ↦ hapart s (List.mem_cons_of_mem _ hs)
    by_cases hkept : f p = p.lexeme
    -- A part that is kept is text like that around it.
    · rw [hkept, ← Cut.substitute_prepend, ← Cut.substitute_prepend]
      rw [← Cut.substitute_prepend, ← Cut.substitute_prepend] at h
      have hspans : Cut.spansFrom o (w ++ (p.lexeme ++ w')) rest =
          Cut.spansFrom (o + w.length + p.lexeme.length) w' rest := by
        rw [Cut.spansFrom_append, Cut.spansFrom_append]
      exact ih h (hspans ▸ hbelow)
    · obtain ⟨front, back, rfl, hfront, hback⟩ :=
        h.split fun l hl ↦ hapart ⟨o + w.length, p⟩ List.mem_cons_self hkept l hl
      rw [(hf p).resolve_left hkept, List.nil_append, List.map_append]
      exact hfront.holds.append
        (ih hback fun s hs hgone l hl ↦ hbelow s hs hgone l (List.mem_append_right front hl))

end Lies

end PluginPack
