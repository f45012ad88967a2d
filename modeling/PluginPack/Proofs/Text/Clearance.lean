import PluginPack.Proofs.Script.Passage
import PluginPack.Proofs.TypeSyntax.Shrinking
import PluginPack.Proofs.Untyped.Expression

/-!
# Places that no part reaches over

A text falls into two at a place when every part that a marker finds in it ends in front of the
place or begins behind it. The search then comes to that place and goes on from there as it would
have begun there, so the text behind the place is cut and rewritten as if it stood alone.
-/

namespace PluginPack

open Text

variable {α : Type}

/-! ## Stretches -/

namespace Cut

variable {f : Text → Text} {g : α → Text} {k k' : Cut α}

/-- The plain stretches in order. -/
def stretches (k : Cut α) : List Text := k.first :: k.rest.map (·.2)

/-- What is written of the parts of a cut and the stretches in front of them does not depend on what
is put behind it, and its last stretch goes on there. -/
theorem exists_render_append (f : Text → Text) (g : α → Text) (k : Cut α) :
    ∃ out w, ∀ k' : Cut α, (k.append k').render f g = out ++ (k'.prepend w).render f g ∧
      w ++ k'.first ∈ (k.append k').stretches := by
  obtain ⟨first, rest⟩ := k
  induction rest generalizing first with
  | nil => exact ⟨[], first, fun k' ↦ ⟨rfl, List.mem_cons_self⟩⟩
  | cons q rest ih =>
    obtain ⟨out, w, hk⟩ := ih q.2
    refine ⟨f first ++ (g q.1 ++ out), w, fun k' ↦ ?_⟩
    obtain ⟨hrender, hmem⟩ := hk k'
    have happend : append ⟨first, q :: rest⟩ k' =
        ((append ⟨q.2, rest⟩ k').mark q.1).prepend first := rfl
    refine ⟨?_, ?_⟩
    · rw [happend, render_prepend_mark, hrender]
      simp only [List.append_assoc]
    · rw [happend]
      exact List.mem_cons_of_mem _ hmem

/-- In front of a part a cut is written as it is alone. -/
theorem render_append_mark (f : Text → Text) (g : α → Text) (k k' : Cut α) (a : α) :
    (k.append (k'.mark a)).render f g = k.render f g ++ (g a ++ k'.render f g) := by
  obtain ⟨first, rest⟩ := k
  induction rest generalizing first with
  | nil =>
    rw [append_empty_prepend, render_prepend_mark]
    exact congrArg (· ++ _) (List.append_nil (f first)).symm
  | cons q rest ih =>
    have happend : append ⟨first, q :: rest⟩ (k'.mark a) =
        ((append ⟨q.2, rest⟩ (k'.mark a)).mark q.1).prepend first := rfl
    have hcut : (⟨first, q :: rest⟩ : Cut α) = (mark q.1 ⟨q.2, rest⟩).prepend first := by
      simp [mark, prepend]
    rw [happend, render_prepend_mark, ih, hcut, render_prepend_mark]
    simp only [List.append_assoc]

theorem append_prepend (k k' : Cut α) (w : Text) :
    (k.append k').prepend w = (k.prepend w).append k' := by
  obtain ⟨first, rest⟩ := k
  cases rest <;> exact prepend_prepend first w _

theorem first_append_mark (k k' : Cut α) (a : α) : (k.append (k'.mark a)).first = k.first := by
  obtain ⟨first, rest⟩ := k
  cases rest <;> exact List.append_nil first

/-- What is written of one stretch stands in what is written of the cut. -/
theorem isInfix_render {k : Cut α} {v w : Text} (hv : v ∈ k.stretches) (hw : w <:+: f v) :
    w <:+: k.render f g := by
  obtain ⟨first, rest⟩ := k
  refine hw.trans ?_
  rcases List.mem_cons.mp hv with rfl | hv
  · exact (List.prefix_append _ _).isInfix
  · obtain ⟨q, hq, rfl⟩ := List.mem_map.mp hv
    obtain ⟨rest₁, rest₂, rfl⟩ := List.append_of_mem hq
    rw [render, List.flatMap_append, List.flatMap_cons]
    refine ((List.suffix_append (g q.1) _).isInfix.trans ?_).trans (List.suffix_append _ _).isInfix
    exact (List.prefix_append _ _).isInfix.trans (List.suffix_append _ _).isInfix

/-- A cut that is written as it was has no stretch that is written differently. -/
theorem eq_of_render_eq {k : Cut (Part α)} (hf : Shrinks f)
    (h : k.render f Part.lexeme = k.substitute Part.lexeme) : f k.first = k.first := by
  obtain ⟨first, rest⟩ := k
  have hrest := render_eq_or_lt hf ⟨[], rest⟩
  have hnil : f [] = [] := List.eq_nil_of_length_eq_zero (Nat.le_zero.mp (hf.length_le []))
  have hlength := congrArg List.length h
  refine hf.eq_of_length_le ?_
  simp only [substitute, render, hnil, id, List.nil_append, List.length_append] at hlength hrest ⊢
  rcases hrest with hrest | hrest
  · rw [hrest] at hlength
    omega
  · omega

end Cut

namespace Marker

variable {m : Marker α} {b : Option Char} {n o : Nat} {a r t w : Text}

/-! ## Clear places -/

/-- Every part that is found in `t` ends in front of its suffix `r` or begins behind the first `n`
characters of the suffix. -/
def Clears (m : Marker α) (n : Nat) (t r : Text) : Prop :=
  ∀ s ∈ m.spans t, s.ends + r.length ≤ t.length ∨ t.length + n ≤ s.offset + r.length

instance (m : Marker α) (n : Nat) (t r : Text) : Decidable (m.Clears n t r) :=
  inferInstanceAs (Decidable (∀ s ∈ m.spans t, _))

/-- Going through `a ++ r` behind the character `b`, the search comes to `r` and has cut `a` into
`front`. -/
inductive Reaches (m : Marker α) (r : Text) : Option Char → Text → Cut (Part α) → Prop
  | here (b : Option Char) : Reaches m r b [] .empty
  | plain {b : Option Char} {c : Char} {a : Text} {front : Cut (Part α)} :
      m.find? b (c :: (a ++ r)) = none → Reaches m r (some c) a front →
        Reaches m r b (c :: a) (front.push c)
  | part {b : Option Char} {v : α} {l a : Text} {front : Cut (Part α)} :
      m.find? b (l ++ (a ++ r)) = some (v, a ++ r) → Reaches m r l.getLast? a front →
        Reaches m r b (l ++ a) (front.mark ⟨l, v⟩)

theorem ne_nil_of_find? {l : Text} {v : α} (h : m.find? b (l ++ r) = some (v, r)) : l ≠ [] := by
  rintro rfl
  exact absurd (m.shorter h) (Nat.lt_irrefl _)

theorem getLast?_append_or {l : Text} (hl : l ≠ []) (a : Text) (b : Option Char) :
    (l ++ a).getLast?.or b = a.getLast?.or l.getLast? := by
  rw [List.getLast?_append, Option.or_assoc, List.getLast?_eq_getLast_of_ne_nil hl, Option.some_or]

theorem append_of_length_le {l u : Text} (h : l ++ u = a ++ r) (hle : r.length ≤ u.length) :
    ∃ a', a = l ++ a' ∧ u = a' ++ r := by
  obtain ⟨a', rfl⟩ := List.suffix_of_suffix_length_le ⟨a, h.symm⟩ ⟨l, rfl⟩ hle
  refine ⟨a', ?_, rfl⟩
  rw [← List.append_assoc] at h
  exact (List.append_cancel_right h).symm

/-- The search comes to a place that no part reaches over. -/
theorem exists_reaches (hclear : ∀ s ∈ Cut.spansFrom o (m.cutFrom b (a ++ r)).first
    (m.cutFrom b (a ++ r)).rest, s.ends ≤ o + a.length ∨ o + a.length ≤ s.offset) :
    ∃ front, m.Reaches r b a front := by
  induction hn : a.length using Nat.strongRecOn generalizing a b o with
  | ind n ih =>
    subst hn
    cases a with
    | nil => exact ⟨.empty, .here b⟩
    | cons c a =>
      rw [List.cons_append] at hclear
      cases h : m.find? b (c :: (a ++ r)) with
      | none =>
        rw [cutFrom_of_none m h, Cut.spansFrom_push] at hclear
        have hlength : o + 1 + a.length = o + (c :: a).length := by
          rw [List.length_cons]
          omega
        obtain ⟨front, hfront⟩ := ih a.length (by simp) (hlength ▸ hclear) rfl
        exact ⟨front.push c, .plain h hfront⟩
      | some q =>
        obtain ⟨v, u⟩ := q
        have hsplit := consumed_append (m.suffix h)
        rw [cutFrom_of_some m h, Cut.spansFrom_mark] at hclear
        generalize consumed (c :: (a ++ r)) u = l at hsplit hclear
        -- The part that begins here ends in front of the place.
        have hle : l.length ≤ (c :: a).length := by
          rcases hclear _ List.mem_cons_self with hends | hbegins
          · simpa [Span.ends, Span.text] using hends
          · have hbegins : o + (c :: a).length ≤ o := hbegins
            rw [List.length_cons] at hbegins
            omega
        have hlengths := congrArg List.length hsplit
        rw [← List.cons_append, List.length_append, List.length_append] at hlengths
        obtain ⟨a', ha', rfl⟩ := append_of_length_le (a := c :: a) hsplit (by omega)
        rw [← hsplit] at h
        have hlength : o + l.length + a'.length = o + (c :: a).length := by
          rw [ha', List.length_append, Nat.add_assoc]
        have hlt : a'.length < (c :: a).length := by
          rw [ha', List.length_append]
          exact Nat.lt_add_of_pos_left (List.length_pos_iff.mpr (ne_nil_of_find? h))
        obtain ⟨front, hfront⟩ := ih a'.length hlt (o := o + l.length)
          (fun s hs ↦ by
            rw [hlength]
            exact hclear s (List.mem_cons_of_mem _ hs)) rfl
        exact ⟨front.mark ⟨l, v⟩, ha'.symm ▸ .part h hfront⟩

namespace Reaches

variable {front : Cut (Part α)}

theorem cutFrom_append (h : m.Reaches r b a front) :
    m.cutFrom b (a ++ r) = front.append (m.cutFrom (a.getLast?.or b) r) := by
  induction h with
  | here b => rfl
  | @plain b c a front hfind _ ih =>
    rw [List.cons_append, cutFrom_of_none m hfind, ih, Cut.push_append,
      ← List.singleton_append (l := a), getLast?_append_or (List.cons_ne_nil c [])]
    rfl
  | @part b v l a front hfind _ ih =>
    rw [List.append_assoc, cutFrom_of_some m hfind, consumed_left, ih, Cut.mark_append,
      getLast?_append_or (ne_nil_of_find? hfind)]

/-- The parts behind the place are parts of the whole text. -/
theorem spansFrom_subset (h : m.Reaches r b a front) (o : Nat) :
    Cut.spansFrom (o + a.length) (m.cutFrom (a.getLast?.or b) r).first
        (m.cutFrom (a.getLast?.or b) r).rest ⊆
      Cut.spansFrom o (m.cutFrom b (a ++ r)).first (m.cutFrom b (a ++ r)).rest := by
  induction h generalizing o with
  | here b => exact List.Subset.refl _
  | @plain b c a front hfind _ ih =>
    have hlength : o + (c :: a).length = o + 1 + a.length := by
      rw [List.length_cons]
      omega
    rw [List.cons_append, cutFrom_of_none m hfind, Cut.spansFrom_push, hlength,
      ← List.singleton_append (l := a), getLast?_append_or (List.cons_ne_nil c [])]
    exact ih (o + 1)
  | @part b v l a front hfind _ ih =>
    rw [List.append_assoc, cutFrom_of_some m hfind, consumed_left, Cut.spansFrom_mark,
      getLast?_append_or (ne_nil_of_find? hfind), List.length_append, ← Nat.add_assoc]
    exact List.Subset.trans (ih (o + l.length)) (List.subset_cons_self _ _)

end Reaches

/-- A text in which no part begins is passed over. -/
theorem passes_of_le_offset (h : ∀ s ∈ Cut.spansFrom o (m.cutFrom b (w ++ r)).first
    (m.cutFrom b (w ++ r)).rest, o + w.length ≤ s.offset) : m.Passes b w r := by
  induction w generalizing b o with
  | nil => exact fun x y hxy hy ↦ absurd (List.append_eq_nil_iff.mp hxy.symm).2 hy
  | cons c w ih =>
    rw [List.cons_append] at h
    cases hfind : m.find? b (c :: (w ++ r)) with
    | some q =>
      obtain ⟨v, u⟩ := q
      rw [cutFrom_of_some m hfind, Cut.spansFrom_mark] at h
      have hle : o + (c :: w).length ≤ o := h _ List.mem_cons_self
      rw [List.length_cons] at hle
      omega
    | none =>
      rw [cutFrom_of_none m hfind, Cut.spansFrom_push] at h
      refine .cons hfind (ih (o := o + 1) fun s hs ↦ ?_)
      have hle := h s hs
      rw [List.length_cons] at hle
      omega

/-- **The search comes to a clear place**, and finds nothing in the text that is to stay clear. -/
theorem Clears.exists_reaches (h : m.Clears n (a ++ r) r) :
    ∃ front, m.Reaches r none a front ∧
      ∀ v u, r = v ++ u → v.length ≤ n → m.Passes a.getLast? v u := by
  have hplace : ∀ s ∈ m.spans (a ++ r), s.ends ≤ a.length ∨ a.length + n ≤ s.offset := by
    intro s hs
    have hs := h s hs
    rw [List.length_append] at hs
    omega
  obtain ⟨front, hfront⟩ := Marker.exists_reaches (m := m) (b := none) (o := 0) (a := a)
    (r := r) fun s hs ↦ by
      have hs := hplace s hs
      omega
  refine ⟨front, hfront, fun v u hr hv ↦ passes_of_le_offset (o := a.length) fun s hs ↦ ?_⟩
  have hspans := hfront.spansFrom_subset 0
  rw [Option.or_none, Nat.zero_add] at hspans
  subst hr
  have hoffset := (Lies.spansFrom a.length _ _).le_offset s hs
  obtain ⟨x, y, -, -, hfind⟩ := exists_find?_of_mem_spansFrom hs
  have hne := List.length_pos_iff.mpr (ne_nil_of_find? hfind)
  have hs := hplace s (hspans hs)
  rw [Span.ends] at hs
  omega

/-! ## Texts that no part reaches into -/

/-- Wherever the text `w` stands in `t`, the parts that are found in `t` end in front of it or begin
behind it. -/
def Skirts (m : Marker α) (w t : Text) : Prop :=
  ∀ a r, t = a ++ (w ++ r) → m.Clears w.length t (w ++ r)

instance (m : Marker α) (w t : Text) : Decidable (m.Skirts w t) :=
  decidable_of_iff (∀ a ∈ t.inits, w <+: t.drop a.length →
      m.Clears w.length t (t.drop a.length)) <| by
    constructor
    · rintro h a r rfl
      have hplace := h a ((List.mem_inits _ _).mpr (List.prefix_append a _))
      rw [List.drop_left] at hplace
      exact hplace (List.prefix_append w r)
    · rintro h a ha ⟨r, hr⟩
      obtain ⟨z, rfl⟩ := (List.mem_inits _ _).mp ha
      rw [List.drop_left] at hr ⊢
      exact hr ▸ h a r (by rw [hr])

namespace Skirts

variable {f : Text → Text} {g : Part α → Text}

/-- The text stands in a stretch. -/
theorem exists_cut_eq (h : m.Skirts w (a ++ (w ++ r))) :
    ∃ front back : Cut (Part α), m.cut (a ++ (w ++ r)) = front.append (back.prepend w) := by
  obtain ⟨front, hfront, hpass⟩ := (h a r rfl).exists_reaches
  refine ⟨front, m.cutFrom (w.getLast?.or a.getLast?) r, ?_⟩
  rw [cut, hfront.cutFrom_append, Option.or_none, (hpass w r rfl le_rfl).cutFrom_append]

/-- A text that no part reaches into stays when the parts are replaced. -/
theorem isInfix_replace (h : m.Skirts w t) (hw : w <:+: t) (f : α → Text) :
    w <:+: m.replace f t := by
  obtain ⟨a, r, rfl⟩ := hw
  rw [List.append_assoc] at h ⊢
  obtain ⟨front, back, hcut⟩ := h.exists_cut_eq
  rw [replace, hcut, Cut.substitute_append, Cut.substitute_prepend, ← List.append_assoc]
  exact List.infix_append _ _ _

theorem isInfix_erase (h : m.Skirts w t) (hw : w <:+: t) : w <:+: m.erase t :=
  h.isInfix_replace hw _

/-- A text that no part reaches into stays when it stays in the stretches. -/
theorem isInfix_render (h : m.Skirts w t) (hw : w <:+: t)
    (hf : ∀ v ∈ (m.cut t).stretches, w <:+: v → w <:+: f v) : w <:+: (m.cut t).render f g := by
  obtain ⟨a, r, rfl⟩ := hw
  rw [List.append_assoc] at h hf ⊢
  obtain ⟨front, back, hcut⟩ := h.exists_cut_eq
  obtain ⟨_, x, hstretch⟩ := Cut.exists_render_append f g front
  have hmem := (hstretch (back.prepend w)).2
  rw [← hcut] at hmem
  refine Cut.isInfix_render hmem (hf _ hmem ?_)
  exact (List.prefix_append w back.first).isInfix.trans (List.suffix_append x _).isInfix

end Skirts

/-! ## What is left in front of a clear place -/

/-- What is written of the text in front of a clear place, but for the last stretch there, does not
depend on what stands behind the place. -/
theorem Clears.exists_render_append (h : m.Clears n (a ++ r) r)
    (hr : m.cutFrom a.getLast? r = m.cut r) (f : Text → Text) (g : Part α → Text) :
    ∃ out w, (m.cut (a ++ r)).render f g = out ++ ((m.cut r).prepend w).render f g ∧
      w ++ (m.cut r).first ∈ (m.cut (a ++ r)).stretches := by
  obtain ⟨front, hfront, -⟩ := h.exists_reaches
  have hcut : m.cut (a ++ r) = front.append (m.cut r) := by
    rw [cut, hfront.cutFrom_append, Option.or_none, hr]
  obtain ⟨out, w, hk⟩ := Cut.exists_render_append f g front
  exact ⟨out, w, hcut ▸ hk (m.cut r)⟩

section Lines

variable {step : Text → Option (α × Text)}
  {hstep : ∀ {t a r}, step t = some (a, r) → r <:+ t ∧ r.length < t.length}

/-- Where parts that begin lines are erased, a line begins behind what is left of a text if one
begins behind the text. -/
theorem Reaches.beginsLine_erase {front : Cut (Part α)}
    (h : (ofLine step hstep).Reaches r b a front) {d : Option Char}
    (hd : beginsLine b = true → beginsLine d = true)
    (ha : beginsLine (a.getLast?.or b) = true) :
    beginsLine ((front.substitute fun _ ↦ []).getLast?.or d) = true := by
  induction h generalizing d with
  | here b => exact hd ha
  | @plain b c a front _ _ ih =>
    rw [← List.singleton_append, getLast?_append_or (List.cons_ne_nil c [])] at ha
    rw [Cut.substitute_push, ← List.singleton_append, getLast?_append_or (List.cons_ne_nil c [])]
    exact ih id ha
  | @part b v l a front hfind _ ih =>
    rw [getLast?_append_or (ne_nil_of_find? hfind)] at ha
    rw [Cut.substitute_mark, List.nil_append]
    -- The part began a line, so a line begins where it stood.
    have hb : beginsLine b = true := by
      by_contra hb
      rw [find?_ofLine_eq_none fun hb' ↦ absurd hb' hb] at hfind
      cases hfind
    exact ih (fun _ ↦ hd hb) ha

/-- Where a line begins it does not matter which character stands in front. -/
theorem Passes.none_of_beginsLine (h : (ofLine step hstep).Passes b w r)
    (hb : beginsLine b = true) : (ofLine step hstep).Passes none w r := by
  intro x y hxy hy
  have hfind := h x y hxy hy
  rcases x.eq_nil_or_concat with rfl | ⟨x, c, rfl⟩
  · rw [find?_ofLine rfl]
    rwa [List.getLast?_nil, Option.none_or, find?_ofLine hb] at hfind
  · rwa [List.concat_eq_append, List.getLast?_concat] at hfind ⊢

/-- Nothing is found up to the end of the line behind a character that ends no line. -/
theorem passes_restOfLine (hb : beginsLine b = false) (hw : '\n' ∉ w.dropLast) (r : Text) :
    (ofLine step hstep).Passes b w r := by
  intro x y hxy hy
  refine find?_ofLine_eq_none fun hbegins ↦ ?_
  rcases x.eq_nil_or_concat with rfl | ⟨x, c, rfl⟩
  · rw [List.getLast?_nil, Option.none_or, hb] at hbegins
    cases hbegins
  · have hc : c = '\n' := by simpa [beginsLine] using hbegins
    subst hxy hc
    refine absurd ?_ hw
    rw [List.dropLast_append_of_ne_nil hy]
    simp

/-- **Erased lines.** What is left in front of a clear place at the beginning of a line still ends
a line, and what stands behind the place is treated as if it stood alone. -/
theorem Clears.exists_erase_append (h : (ofLine step hstep).Clears n (a ++ r) r)
    (ha : beginsLine a.getLast? = true) :
    ∃ a', (ofLine step hstep).erase (a ++ r) = a' ++ (ofLine step hstep).erase r ∧
      beginsLine a'.getLast? = true ∧
      ∀ v u, r = v ++ u → v.length ≤ n → (ofLine step hstep).Passes none v u := by
  obtain ⟨front, hfront, hpass⟩ := h.exists_reaches
  refine ⟨front.substitute fun _ ↦ [], ?_, ?_, fun v u hr hv ↦
    (hpass v u hr hv).none_of_beginsLine ha⟩
  · rw [erase, replace, cut, hfront.cutFrom_append, Option.or_none, cutFrom_ofLine_eq_cut ha,
      Cut.substitute_append]
    rfl
  · have hbegins := hfront.beginsLine_erase (d := none) id (by rwa [Option.or_none])
    rwa [Option.or_none] at hbegins

end Lines

/-- The marker finds parts at the beginnings of lines only. -/
def IsLinewise (m : Marker α) : Prop :=
  ∃ (step : Text → Option (α × Text))
    (hstep : ∀ {t a r}, step t = some (a, r) → r <:+ t ∧ r.length < t.length), m = ofLine step hstep

/-- **A line at a clear place** stays, together with what follows it up to the end of the line. -/
theorem Clears.exists_erase_line {u x : Text} (hm : m.IsLinewise)
    (h : m.Clears w.length (a ++ (w ++ (x ++ u))) (w ++ (x ++ u)))
    (ha : beginsLine a.getLast? = true) (hw : beginsLine w.getLast? = false)
    (hx : '\n' ∉ x.dropLast) :
    ∃ a' u', m.erase (a ++ (w ++ (x ++ u))) = a' ++ (w ++ (x ++ u')) ∧
      m.erase (w ++ (x ++ u)) = w ++ (x ++ u') ∧ beginsLine a'.getLast? = true := by
  obtain ⟨step, hstep, rfl⟩ := hm
  obtain ⟨a', herase, ha', hpass⟩ := h.exists_erase_append ha
  have hline : (ofLine step hstep).Passes none (w ++ x) u := by
    refine (hpass w (x ++ u) rfl le_rfl).append (passes_restOfLine ?_ hx u)
    rwa [Option.or_none]
  have hkept : (ofLine step hstep).erase (w ++ (x ++ u)) = w ++ (x ++
      ((ofLine step hstep).cutFrom ((w ++ x).getLast?.or none) u).substitute fun _ ↦ []) := by
    rw [← List.append_assoc, erase, replace, cut, hline.cutFrom_append, Cut.substitute_prepend,
      List.append_assoc]
  exact ⟨a', _, by rw [herase, hkept], hkept, ha'⟩

end Marker

end PluginPack
