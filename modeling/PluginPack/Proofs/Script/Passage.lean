import Mathlib.Data.List.Infix
import PluginPack.Proofs.Text.Span
import PluginPack.Script.Dependency
import PluginPack.Script.Export

/-!
# What a pass over a script leaves as it is

A pass looks for statements at the beginnings of lines. Text in which no line begins with the
keyword of these statements is passed over, and so is a text that begins with another keyword when
no statement that was found in front of it reaches into it.
-/

namespace PluginPack

open Text

variable {α : Type}

/-! ## Beginnings of lines -/

namespace Text

variable {a k l t u v w : Text}

/-- The text begins with a word, perhaps behind blanks. -/
def Opens (k t : Text) : Prop := k <+: t.dropWhile isBlank

instance (k t : Text) : Decidable (Opens k t) := inferInstanceAs (Decidable (_ <+: _))

/-- No line of the text begins with a word. -/
def Lacks (k w : Text) : Prop := ∀ l ∈ splitNewlines w, ¬Opens k l

instance (k w : Text) : Decidable (Lacks k w) := inferInstanceAs (Decidable (∀ l ∈ _, _))

/-- No line of the text but the first begins with a word. -/
def LacksBelow (k w : Text) : Prop := ∀ l ∈ (splitNewlines w).tail, ¬Opens k l

instance (k w : Text) : Decidable (LacksBelow k w) := inferInstanceAs (Decidable (∀ l ∈ _, _))

theorem Lacks.below (h : Lacks k w) : LacksBelow k w := fun l hl ↦ h l (List.mem_of_mem_tail hl)

theorem lacks_append_cons {u v : Text} : Lacks k (u ++ '\n' :: v) ↔ Lacks k u ∧ Lacks k v := by
  rw [Lacks, splitNewlines_append_cons]
  exact List.forall_mem_append

theorem LacksBelow.lacks {u v : Text} (h : LacksBelow k (u ++ '\n' :: v)) : Lacks k v := by
  intro l hl
  refine h l ?_
  rw [splitNewlines_append_cons, List.tail_append_of_ne_nil (splitNewlines_ne_nil u)]
  exact List.mem_append_right _ hl

/-- A text has come to the end of a line when what follows it begins a line or is empty. -/
def EndsLine (w r : Text) : Prop := w.getLast? = some '\n' ∨ r = []

theorem EndsLine.append_left {v r : Text} (h : EndsLine v r) (u : Text) : EndsLine (u ++ v) r := by
  refine h.imp_left fun h ↦ ?_
  rw [List.getLast?_append, h, Option.some_or]

theorem EndsLine.of_suffix {u v r : Text} (h : EndsLine (u ++ v) r) (hv : v ≠ []) :
    EndsLine v r := by
  rcases h with h | h
  · rw [List.getLast?_append_of_ne_nil u hv] at h
    exact .inl h
  · exact .inr h

theorem dropWhile_isBlank_append_cons {c : Char} (hc : isBlank c = false) (t r : Text) :
    (t ++ c :: r).dropWhile isBlank = t.dropWhile isBlank ++ c :: r := by
  rw [List.dropWhile_append]
  split
  · rename_i hempty
    rw [List.isEmpty_iff.mp hempty, List.nil_append]
    exact Stops.dropWhile_eq (stops_cons.mpr hc)
  · rfl

/-- What a text begins with is decided before a character that neither is a blank nor stands in the
word. -/
theorem opens_append_cons {c : Char} {r : Text} (hc : isBlank c = false) (hk : c ∉ k) :
    Opens k (t ++ c :: r) ↔ Opens k t := by
  rw [Opens, dropWhile_isBlank_append_cons hc, Opens]
  refine ⟨fun hpre ↦ ?_, fun hpre ↦ hpre.trans (List.prefix_append _ _)⟩
  rcases List.prefix_or_prefix_of_prefix hpre (List.prefix_append _ _) with h | ⟨u, rfl⟩
  · exact h
  · cases u with
    | nil => exact List.append_nil _ ▸ List.prefix_rfl
    | cons d u =>
      have hu := (List.prefix_append_right_inj _).mp hpre
      rw [(List.cons_prefix_cons.mp hu).1] at hk
      exact absurd (List.mem_append_right _ List.mem_cons_self) hk

/-- What a text begins with is decided before its first newline. -/
theorem opens_append_newline {r : Text} (hk : '\n' ∉ k) : Opens k (t ++ '\n' :: r) ↔ Opens k t :=
  opens_append_cons (by decide) hk

theorem Lacks.not_opens (h : Lacks k w) (hw : '\n' ∉ w) : ¬Opens k w := by
  refine h w ?_
  rw [splitNewlines_eq_singleton hw]
  exact List.mem_singleton_self w

/-- The lines of a text decide what it begins with, also when something follows the last one. -/
theorem Lacks.not_opens_append {r : Text} (h : Lacks k w) (hk : '\n' ∉ k) (hend : EndsLine w r) :
    ¬Opens k (w ++ r) := by
  by_cases hw : '\n' ∈ w
  · obtain ⟨l, v, rfl, hl⟩ := List.eq_append_cons_of_mem hw
    rw [List.append_assoc, List.cons_append, opens_append_newline hk]
    exact (lacks_append_cons.mp h).1.not_opens hl
  · have hr : r = [] := hend.resolve_left fun hlast ↦ hw (List.mem_of_getLast? hlast)
    rw [hr, List.append_nil]
    exact h.not_opens hw

/-- No place below the first line begins with the word, also when something follows the text. -/
theorem LacksBelow.not_opens_append {u v r : Text} (h : LacksBelow k (u ++ '\n' :: v))
    (hk : '\n' ∉ k) (hv : v ≠ []) (hend : EndsLine (u ++ '\n' :: v) r) : ¬Opens k (v ++ r) := by
  rw [← List.singleton_append, ← List.append_assoc] at hend
  exact h.lacks.not_opens_append hk (hend.of_suffix hv)

theorem LacksBelow.lacks_of_not_opens (h : LacksBelow k w) (hk : '\n' ∉ k) (hw : ¬Opens k w) :
    Lacks k w := by
  by_cases hmem : '\n' ∈ w
  · obtain ⟨l, v, rfl, hl⟩ := List.eq_append_cons_of_mem hmem
    refine lacks_append_cons.mpr ⟨?_, h.lacks⟩
    intro l' hl'
    rw [splitNewlines_eq_singleton hl, List.mem_singleton] at hl'
    rwa [hl', ← opens_append_newline hk (r := v)]
  · intro l hl
    rw [splitNewlines_eq_singleton hmem, List.mem_singleton] at hl
    rwa [hl]

theorem not_opens_nil (hk : k ≠ []) : ¬Opens k [] := fun h ↦ hk (List.prefix_nil.mp h)

theorem lacks_nil (hk : k ≠ []) : Lacks k [] := by
  intro l hl
  rw [List.mem_singleton.mp hl]
  exact not_opens_nil hk

theorem lacksBelow_of_not_mem (h : '\n' ∉ w) : LacksBelow k w := by
  intro l hl
  rw [splitNewlines_eq_singleton h] at hl
  exact absurd hl List.not_mem_nil

theorem LacksBelow.append_newline (h : LacksBelow k w) (hk : k ≠ []) :
    LacksBelow k (w ++ ['\n']) := by
  intro l hl
  rw [splitNewlines_append_cons, List.tail_append_of_ne_nil (splitNewlines_ne_nil w)] at hl
  rcases List.mem_append.mp hl with hl | hl
  · exact h l hl
  · exact lacks_nil hk l hl

/-! ## Behind the beginning of a line -/

/-- A line begins behind the text, perhaps after blanks. -/
def BeginsLine (a : Text) : Prop := Marker.beginsLine (a.reverse.dropWhile isBlank).head? = true

theorem beginsLine_nil : BeginsLine [] := rfl

theorem beginsLine_concat_iff {c : Char} :
    BeginsLine (a ++ [c]) ↔ c = '\n' ∨ isBlank c = true ∧ BeginsLine a := by
  rw [BeginsLine, List.reverse_append, List.reverse_singleton, List.singleton_append,
    List.dropWhile_cons]
  by_cases hc : isBlank c = true
  · have hne : c ≠ '\n' := by
      rintro rfl
      cases hc
    simp [hc, hne, BeginsLine]
  · simp [hc, Marker.beginsLine]

theorem BeginsLine.of_append (h : BeginsLine (u ++ v)) : BeginsLine v := by
  induction v using List.reverseRecOn with
  | nil => exact beginsLine_nil
  | append_singleton v c ih =>
    rw [← List.append_assoc, beginsLine_concat_iff] at h
    exact beginsLine_concat_iff.mpr (h.imp_right fun ⟨hc, h⟩ ↦ ⟨hc, ih h⟩)

/-- Whether a line begins behind a text depends on what stands in front of it only as far as a line
begins there. -/
theorem BeginsLine.append (huv : BeginsLine u → BeginsLine v) (h : BeginsLine (u ++ w)) :
    BeginsLine (v ++ w) := by
  induction w using List.reverseRecOn with
  | nil =>
    rw [List.append_nil] at h ⊢
    exact huv h
  | append_singleton w c ih =>
    rw [← List.append_assoc, beginsLine_concat_iff] at h ⊢
    exact h.imp_right fun ⟨hc, h⟩ ↦ ⟨hc, ih h⟩

theorem BeginsLine.trans (h : BeginsLine u) (h' : BeginsLine v) : BeginsLine (u ++ v) :=
  BeginsLine.append (u := []) (fun _ ↦ h) h'

theorem BeginsLine.append_blanks (h : BeginsLine u) (hw : ∀ c ∈ w, isBlank c = true) :
    BeginsLine (u ++ w) := by
  induction w using List.reverseRecOn with
  | nil => rwa [List.append_nil]
  | append_singleton w c ih =>
    rw [← List.append_assoc, beginsLine_concat_iff]
    exact .inr ⟨hw c (by simp), ih fun d hd ↦ hw d (List.mem_append_left _ hd)⟩

theorem beginsLine_of_getLast? (h : Marker.beginsLine a.getLast? = true) : BeginsLine a := by
  rcases List.eq_nil_or_concat a with rfl | ⟨u, c, rfl⟩
  · exact beginsLine_nil
  · rw [List.concat_eq_append] at h ⊢
    rw [List.getLast?_concat] at h
    exact beginsLine_concat_iff.mpr (.inl (by simpa [Marker.beginsLine] using h))

/-- What stands in front of the beginning of a line: nothing or whole lines, and blanks. -/
theorem BeginsLine.exists_eq (h : BeginsLine a) :
    ∃ u v, a = u ++ v ∧ (u = [] ∨ ∃ u', u = u' ++ ['\n']) ∧ ∀ c ∈ v, isBlank c = true := by
  induction a using List.reverseRecOn with
  | nil => exact ⟨[], [], rfl, .inl rfl, by simp⟩
  | append_singleton a c ih =>
    rcases beginsLine_concat_iff.mp h with rfl | ⟨hc, h⟩
    · exact ⟨a ++ ['\n'], [], by simp, .inr ⟨a, rfl⟩, by simp⟩
    · obtain ⟨u, v, rfl, hu, hv⟩ := ih h
      refine ⟨u, v ++ [c], by rw [List.append_assoc], hu, fun d hd ↦ ?_⟩
      rcases List.mem_append.mp hd with hd | hd
      · exact hv d hd
      · rwa [List.mem_singleton.mp hd]

end Text

/-! ## Passing over a text -/

namespace Marker

variable {step : Text → Option (α × Text)}
  {hstep : ∀ {t a r}, step t = some (a, r) → r <:+ t ∧ r.length < t.length}
  {before : Option Char} {k r t w : Text}

theorem find?_ofLine (h : beginsLine before = true) (t : Text) :
    (ofLine step hstep).find? before t = step t := if_pos h

theorem find?_ofLine_eq_none (h : beginsLine before = true → step t = none) :
    (ofLine step hstep).find? before t = none := by
  by_cases hb : beginsLine before = true
  · rw [find?_ofLine hb, h hb]
  · exact if_neg hb

theorem of_find?_ofLine {q : α × Text} (h : (ofLine step hstep).find? before t = some q) :
    step t = some q := by
  by_cases hb : beginsLine before = true
  · rwa [find?_ofLine hb] at h
  · rw [find?_ofLine_eq_none fun hb' ↦ absurd hb' hb] at h
    cases h

/-- At the beginning of a line it does not matter what came before. -/
theorem cutFrom_ofLine_eq_cut (h : beginsLine before = true) (t : Text) :
    (ofLine step hstep).cutFrom before t = (ofLine step hstep).cut t := by
  rw [cut]
  cases t with
  | nil => rw [cutFrom_nil, cutFrom_nil]
  | cons c s =>
    have hfind : (ofLine step hstep).find? before (c :: s) =
        (ofLine step hstep).find? none (c :: s) := by rw [find?_ofLine h, find?_ofLine rfl]
    cases hf : (ofLine step hstep).find? none (c :: s) with
    | some p =>
      obtain ⟨a, r⟩ := p
      rw [cutFrom_of_some _ hf, cutFrom_of_some _ (hfind.trans hf)]
    | none => rw [cutFrom_of_none _ hf, cutFrom_of_none _ (hfind.trans hf)]

/-- A text is passed over when the step finds nothing at any beginning of a line in it. -/
theorem cutFrom_ofLine_append (hw : w ≠ [])
    (hfirst : beginsLine before = true → step (w ++ r) = none)
    (hbelow : ∀ u v, w = u ++ '\n' :: v → v ≠ [] → step (v ++ r) = none) :
    (ofLine step hstep).cutFrom before (w ++ r) =
      ((ofLine step hstep).cutFrom w.getLast? r).prepend w := by
  induction w generalizing before with
  | nil => exact absurd rfl hw
  | cons c w ih =>
    have hnone : (ofLine step hstep).find? before (c :: (w ++ r)) = none :=
      find?_ofLine_eq_none hfirst
    rw [List.cons_append, cutFrom_of_none _ hnone]
    by_cases hnil : w = []
    · rw [hnil]
      rfl
    · have hnext : beginsLine (some c) = true → step (w ++ r) = none := by
        intro hc
        have hc : c = '\n' := by simpa [beginsLine] using hc
        exact hbelow [] w (congrArg (· :: w) hc) hnil
      rw [ih hnil hnext fun u v huv ↦ hbelow (c :: u) v (congrArg (c :: ·) huv), Cut.push_prepend,
        ← List.singleton_append (l := w), List.getLast?_append_of_ne_nil [c] hnil]

/-- A single line has no line below it. -/
theorem eq_nil_of_append_newline {u v : Text} (ht : '\n' ∉ t) (h : t ++ ['\n'] = u ++ '\n' :: v) :
    v = [] := by
  by_contra hv
  have hlast : v.getLast? = some '\n' := by
    have hlasts := congrArg List.getLast? h
    rw [List.getLast?_concat, ← List.singleton_append, ← List.append_assoc,
      List.getLast?_append_of_ne_nil _ hv] at hlasts
    exact hlasts.symm
  have hcount := congrArg (List.count '\n') h
  have hpos := List.count_pos_iff.mpr (List.mem_of_getLast? hlast)
  rw [List.count_append, List.count_append, List.count_singleton_self, List.count_cons_self,
    List.count_eq_zero_of_not_mem ht] at hcount
  omega

/-- A single line is passed over when the step finds nothing where it begins. -/
theorem substitute_cutFrom_line (f : α → Text) (ht : '\n' ∉ t)
    (hfirst : beginsLine before = true → step (t ++ ['\n'] ++ r) = none) :
    ((ofLine step hstep).cutFrom before (t ++ ['\n'] ++ r)).substitute (fun p ↦ f p.value) =
      t ++ ['\n'] ++ (ofLine step hstep).replace f r := by
  rw [cutFrom_ofLine_append (by simp) hfirst fun u v huv hv ↦
    absurd (eq_nil_of_append_newline ht huv) hv, Cut.substitute_prepend, List.getLast?_concat,
    cutFrom_ofLine_eq_cut rfl]
  rfl

/-- The step finds nothing where the text does not begin with a keyword. -/
def NeedsWord (step : Text → Option (α × Text)) (k : Text) : Prop :=
  '\n' ∉ k ∧ ∀ t, ¬Opens k t → step t = none

/-- The step finds nothing where a line does not begin with a keyword and white space. -/
def NeedsKeyword (step : Text → Option (α × Text)) (k : Text) : Prop :=
  ∀ t, keyword? k (t.dropWhile isBlank) = none → step t = none

theorem NeedsKeyword.needsWord (h : NeedsKeyword step k) (hk : '\n' ∉ k) : NeedsWord step k :=
  ⟨hk, fun t hopens ↦ h t (keyword?_eq_none hopens)⟩

/-- Lines that do not begin with the keyword are passed over. -/
theorem NeedsWord.cutFrom_append (hk : NeedsWord step k) (hw : w ≠ [])
    (hfirst : beginsLine before = true → ¬Opens k (w ++ r)) (hbelow : LacksBelow k w)
    (hend : EndsLine w r) :
    (ofLine step hstep).cutFrom before (w ++ r) =
      ((ofLine step hstep).cutFrom w.getLast? r).prepend w := by
  refine cutFrom_ofLine_append hw (fun hb ↦ hk.2 _ (hfirst hb)) fun u v huv hv ↦ hk.2 _ ?_
  subst huv
  exact hbelow.not_opens_append hk.1 hv hend

/-- What such lines hold is kept when the parts found in a text are written differently. -/
theorem NeedsWord.replace_append (hk : NeedsWord step k) (f : α → Text) (h : Lacks k w)
    (hlast : w = [] ∨ w.getLast? = some '\n') (r : Text) :
    (ofLine step hstep).replace f (w ++ r) = w ++ (ofLine step hstep).replace f r := by
  rcases hlast with rfl | hlast
  · rfl
  · have hw : w ≠ [] := fun hnil ↦ by rw [hnil] at hlast; cases hlast
    rw [replace, cut, hk.cutFrom_append hw (fun _ ↦ h.not_opens_append hk.1 (.inl hlast)) h.below
      (.inl hlast), Cut.substitute_prepend, hlast, cutFrom_ofLine_eq_cut rfl, replace]

/-! ## Parts that do not reach into a text -/

/-- A part of a cut was found somewhere in the text. -/
theorem exists_find?_of_mem_parts {m : Marker α} {p : Part α}
    (hp : p ∈ (m.cutFrom before t).parts) :
    ∃ b u r, m.find? b u = some (p.value, r) ∧ u = p.lexeme ++ r := by
  rw [Cut.parts, ← Cut.map_part_spansFrom 0 (m.cutFrom before t).first] at hp
  obtain ⟨s, hs, rfl⟩ := List.mem_map.mp hp
  obtain ⟨a, r, -, -, hfind⟩ := exists_find?_of_mem_spansFrom hs
  exact ⟨_, _, r, hfind, rfl⟩

/-- A part that neither holds a word nor ends in a beginning of it. -/
def Misses (k : Text) (p : Part α) : Prop :=
  ¬k <:+: p.lexeme ∧ ∀ x, x <+: k → x <:+ p.lexeme → x = []

instance (k : Text) (p : Part α) : Decidable (Misses k p) :=
  decidable_of_iff (¬k <:+: p.lexeme ∧ ∀ x ∈ k.inits, x <:+ p.lexeme → x = [])
    (by simp only [Misses, List.mem_inits])

/-- What neither holds a word nor ends in one of its letters misses it. -/
theorem misses_of_getLast? {p : Part α} (h : ¬k <:+: p.lexeme)
    (hlast : ∀ c ∈ p.lexeme.getLast?, c ∉ k) : Misses k p := by
  refine ⟨h, fun x hx hsuffix ↦ ?_⟩
  by_contra hne
  obtain ⟨y, hy⟩ := hsuffix
  refine hlast (x.getLast hne) ?_ (hx.subset (List.getLast_mem hne))
  rw [← hy, List.getLast?_append_of_ne_nil y hne]
  exact List.getLast?_eq_some_getLast hne

theorem misses_of_not_mem {p : Part α} {c : Char} (h : c ∉ p.lexeme) : Misses (c :: k) p := by
  refine ⟨fun hin ↦ h (hin.subset List.mem_cons_self), fun x hx hsuffix ↦ ?_⟩
  cases x with
  | nil => rfl
  | cons d x =>
    obtain ⟨rfl, -⟩ := List.cons_prefix_cons.mp hx
    exact absurd (hsuffix.subset List.mem_cons_self) h

/-- What misses a word ends in front of it. -/
theorem Misses.exists_append {p : Part α} (hp : Misses k p) {a z : Text} (hz : k <+: z)
    (h : p.lexeme ++ r = a ++ z) : ∃ a', a = p.lexeme ++ a' ∧ r = a' ++ z := by
  rcases List.append_eq_append_iff.mp h with ⟨a', ha, hr⟩ | ⟨b, hb, hs⟩
  · exact ⟨a', ha, hr⟩
  · have hb' : b <:+ p.lexeme := ⟨a, hb.symm⟩
    rcases List.prefix_or_prefix_of_prefix hz ⟨r, hs.symm⟩ with hin | hpre
    · exact absurd (hin.isInfix.trans hb'.isInfix) hp.1
    · obtain rfl := hp.2 b hpre hb'
      exact ⟨[], by rw [hb, List.append_nil, List.append_nil], hs.symm⟩

/-- A cut falls into two around a text that begins with a word, if the text is passed over itself
and every part misses the word. -/
theorem exists_cutFrom_append {m : Marker α} (hkl : k <+: w)
    (hpass : ∀ b, m.cutFrom b (w ++ t) = (m.cutFrom w.getLast? t).prepend w) (a : Text)
    (hmiss : ∀ p ∈ (m.cutFrom before (a ++ (w ++ t))).parts, Misses k p) :
    ∃ front : Cut (Part α), front.substitute Part.lexeme = a ∧
      m.cutFrom before (a ++ (w ++ t)) = front.append ((m.cutFrom w.getLast? t).prepend w) := by
  induction hn : a.length using Nat.strongRecOn generalizing before a with
  | ind n ih =>
    subst hn
    cases a with
    | nil => exact ⟨.empty, rfl, hpass before⟩
    | cons c s =>
      cases h : m.find? before (c :: s ++ (w ++ t)) with
      | none =>
        rw [List.cons_append] at hmiss h ⊢
        rw [cutFrom_of_none m h, Cut.parts_push] at hmiss
        obtain ⟨front, hfront, hcut⟩ := ih s.length (by simp) s hmiss rfl
        refine ⟨front.push c, by rw [Cut.substitute_push, hfront], ?_⟩
        rw [cutFrom_of_none m h, hcut, Cut.push_append]
      | some q =>
        obtain ⟨v, r⟩ := q
        rw [cutFrom_of_some m h, Cut.parts_mark] at hmiss
        have hsplit := consumed_append (m.suffix h)
        obtain ⟨a', ha', rfl⟩ := (hmiss _ List.mem_cons_self).exists_append
          (hkl.trans (List.prefix_append w t)) hsplit
        have hlength := m.shorter h
        simp only [List.length_append, Nat.add_lt_add_iff_right] at hlength
        obtain ⟨front, hfront, hcut⟩ := ih a'.length hlength a'
          (fun p hp ↦ hmiss p (List.mem_cons_of_mem _ hp)) rfl
        refine ⟨front.mark ⟨consumed (c :: s ++ (w ++ t)) (a' ++ (w ++ t)), v⟩, ?_, ?_⟩
        · rw [Cut.substitute_mark, hfront]
          exact ha'.symm
        · rw [cutFrom_of_some m h, hcut, Cut.mark_append]

/-- A text that begins with a word stays when the parts found around it are written differently, if
it is passed over itself and every part misses the word. -/
theorem exists_substitute_cutFrom_append {m : Marker α} (f : Part α → Text) (hkl : k <+: w)
    (hpass : ∀ b, m.cutFrom b (w ++ t) = (m.cutFrom w.getLast? t).prepend w) (a : Text)
    (hmiss : ∀ p ∈ (m.cutFrom before (a ++ (w ++ t))).parts, Misses k p) :
    (∃ a', (m.cutFrom before (a ++ (w ++ t))).substitute f =
        a' ++ (w ++ (m.cutFrom w.getLast? t).substitute f)) ∧
      (m.cutFrom w.getLast? t).parts ⊆ (m.cutFrom before (a ++ (w ++ t))).parts := by
  obtain ⟨front, -, hcut⟩ := exists_cutFrom_append hkl hpass a hmiss
  rw [hcut, Cut.substitute_append, Cut.substitute_prepend, Cut.parts_append, Cut.parts_prepend]
  exact ⟨⟨_, rfl⟩, List.subset_append_right _ _⟩

/-! ## Parts that end before a line -/

/-- A part that was read in front of a text ends before every line that begins with a word. -/
def EndsBefore (k l r : Text) : Prop :=
  ∀ a z, BeginsLine a → k <+: z → l ++ r = a ++ z → ∃ a', a = l ++ a' ∧ r = a' ++ z

theorem Misses.endsBefore {p : Part α} (h : Misses k p) (r : Text) : EndsBefore k p.lexeme r :=
  fun _ _ _ hz heq ↦ h.exists_append hz heq

/-- Whole lines that begin with another word end before a line that begins with the word, unless
one of them begins with it below the first. -/
theorem endsBefore_of_lacksBelow {k' : Text} (hk : '\n' ∉ k) (hne : k ≠ [])
    (hblank : ∀ c ∈ k.head?, isBlank c = false) (hkk' : ∀ t, ¬Opens k' (k ++ t))
    (hopens : Opens k' (l ++ r)) (hbelow : LacksBelow k l) (hend : EndsLine l r) :
    EndsBefore k l r := by
  rintro a z hbegins ⟨s, rfl⟩ heq
  rcases List.append_eq_append_iff.mp heq with ⟨a', ha, hr⟩ | ⟨b, rfl, hz⟩
  · exact ⟨a', ha, hr⟩
  · by_cases hb : b = []
    · subst hb
      exact ⟨[], by simp, by simpa using hz.symm⟩
    · exfalso
      obtain ⟨u, v, rfl, hu, hv⟩ := hbegins.exists_eq
      have hdrop : ∀ t, (v ++ t).dropWhile isBlank = t.dropWhile isBlank := fun t ↦ by
        rw [List.dropWhile_append, List.dropWhile_eq_nil_iff.mpr hv]
        rfl
      have hkeep : Opens k (k ++ s) := by
        obtain ⟨c, k, rfl⟩ := List.exists_cons_of_ne_nil hne
        rw [Opens, List.cons_append, Stops.dropWhile_eq (stops_cons.mpr (hblank c rfl))]
        exact List.prefix_append (c :: k) s
      rcases hu with rfl | ⟨u', rfl⟩
      · refine hkk' s ?_
        rw [heq, List.nil_append] at hopens
        rwa [Opens, hdrop] at hopens
      · have hnot := LacksBelow.not_opens_append (u := u') (v := v ++ b) (k := k)
          (by simpa using hbelow) hk (by simp [hb]) (by simpa using hend)
        rw [List.append_assoc, ← hz] at hnot
        exact hnot (by rwa [Opens, hdrop])

/-- A text stays that begins with a word behind the beginning of a line, when the parts found around
it are replaced by blanks, if it is passed over itself and the parts end before such lines. In front
of `a` the text `x` was read and `y` was written for it. -/
theorem exists_substitute_ofLine_append {f : Part α → Text} (hkw : k <+: w)
    (hpass : ∀ b, (ofLine step hstep).cutFrom b (w ++ t) =
      ((ofLine step hstep).cutFrom w.getLast? t).prepend w) (a : Text) {x y : Text}
    (hx : beginsLine before = true → BeginsLine x) (hxy : BeginsLine x → BeginsLine y)
    (ha : BeginsLine (x ++ a))
    (hends : ∀ p ∈ ((ofLine step hstep).cutFrom before (a ++ (w ++ t))).parts, ∀ r,
      step (p.lexeme ++ r) = some (p.value, r) → EndsBefore k p.lexeme r)
    (hf : ∀ p ∈ ((ofLine step hstep).cutFrom before (a ++ (w ++ t))).parts,
      ∀ c ∈ f p, isBlank c = true) :
    (∃ a', BeginsLine (y ++ a') ∧
      ((ofLine step hstep).cutFrom before (a ++ (w ++ t))).substitute f =
        a' ++ (w ++ ((ofLine step hstep).cutFrom w.getLast? t).substitute f)) ∧
      ((ofLine step hstep).cutFrom w.getLast? t).parts ⊆
        ((ofLine step hstep).cutFrom before (a ++ (w ++ t))).parts := by
  induction hn : a.length using Nat.strongRecOn generalizing before a x y with
  | ind n ih =>
    subst hn
    cases a with
    | nil =>
      rw [List.nil_append, hpass, Cut.substitute_prepend, Cut.parts_prepend]
      rw [List.append_nil] at ha
      exact ⟨⟨[], by rw [List.append_nil]; exact hxy ha, rfl⟩, List.Subset.refl _⟩
    | cons c s =>
      cases h : (ofLine step hstep).find? before (c :: s ++ (w ++ t)) with
      | none =>
        rw [List.cons_append] at h hends hf ⊢
        rw [cutFrom_of_none _ h, Cut.parts_push] at hends hf ⊢
        rw [Cut.substitute_push]
        have hnext : beginsLine (some c) = true → BeginsLine (x ++ [c]) := fun hc ↦
          beginsLine_concat_iff.mpr (.inl (by simpa [beginsLine] using hc))
        obtain ⟨⟨a', ha', hcut⟩, hsub⟩ := ih s.length (by simp) s (x := x ++ [c]) (y := y ++ [c])
          hnext (.append hxy) (by rwa [List.append_assoc]) hends hf rfl
        exact ⟨⟨c :: a', by rwa [List.append_assoc] at ha', by rw [hcut]; rfl⟩, hsub⟩
      | some q =>
        obtain ⟨v, r⟩ := q
        have hread := of_find?_ofLine h
        have hsplit := consumed_append ((ofLine step hstep).suffix h)
        have hlength := (ofLine step hstep).shorter h
        have hbegins : beginsLine before = true := by
          by_contra hno
          rw [find?_ofLine_eq_none fun hb ↦ absurd hb hno] at h
          cases h
        rw [cutFrom_of_some _ h, Cut.parts_mark] at hends hf ⊢
        obtain ⟨hend, hends⟩ := List.forall_mem_cons.mp hends
        obtain ⟨hblank, hf⟩ := List.forall_mem_cons.mp hf
        set l := consumed (c :: s ++ (w ++ t)) r with hl
        obtain ⟨a', ha', rfl⟩ := hend r (by rw [hsplit]; exact hread) _ _ ha.of_append
          (hkw.trans (List.prefix_append w t)) hsplit
        have hshort : a'.length < (c :: s).length := by
          simp only [List.length_append] at hlength ⊢
          omega
        rw [ha', ← List.append_assoc] at ha
        have hnext : beginsLine l.getLast? = true → BeginsLine (x ++ l) :=
          fun hlast ↦ (hx hbegins).trans (beginsLine_of_getLast? hlast)
        obtain ⟨⟨a'', ha'', hcut⟩, hsub⟩ := ih a'.length hshort a' (y := y ++ f ⟨l, v⟩) hnext
          (fun _ ↦ (hxy (hx hbegins)).append_blanks hblank) ha hends hf rfl
        refine ⟨⟨f ⟨l, v⟩ ++ a'', ?_, ?_⟩, fun p hp ↦ List.mem_cons_of_mem _ (hsub hp)⟩
        · rwa [List.append_assoc] at ha''
        · rw [Cut.substitute_mark, hcut, List.append_assoc]

end Marker

/-! ## Export syntax -/

namespace Script

theorem needsKeyword_exportDefault? : Marker.NeedsKeyword exportDefault? "export".toList := by
  intro t h
  rw [exportDefault?, h]
  rfl

theorem needsWord_exportDefault? : Marker.NeedsWord exportDefault? "export".toList :=
  needsKeyword_exportDefault?.needsWord (by decide)

theorem needsKeyword_exportList? : Marker.NeedsKeyword exportList? "export".toList := by
  intro t h
  rw [exportList?, h]
  rfl

theorem needsWord_exportList? : Marker.NeedsWord exportList? "export".toList :=
  needsKeyword_exportList?.needsWord (by decide)

theorem needsKeyword_exportKeyword? : Marker.NeedsKeyword exportKeyword? "export".toList := by
  intro t h
  rw [exportKeyword?, h]
  rfl

theorem needsWord_exportKeyword? : Marker.NeedsWord exportKeyword? "export".toList :=
  needsKeyword_exportKeyword?.needsWord (by decide)

/-- Lines that do not begin with `export` are kept when export syntax is removed. -/
theorem eraseExports_append {w : Text} (h : Lacks "export".toList w)
    (hlast : w = [] ∨ w.getLast? = some '\n') (r : Text) :
    eraseExports (w ++ r) = w ++ eraseExports r := by
  rw [eraseExports, exportDefault, needsWord_exportDefault?.replace_append _ h hlast, exportList,
    Marker.erase, needsWord_exportList?.replace_append _ h hlast, exportKeyword,
    needsWord_exportKeyword?.replace_append _ h hlast]
  rfl

end Script

end PluginPack
