import Mathlib.Data.List.DropRight
import PluginPack.Text.Marker

/-!
# Reading what was written

What the steps that read a text make of a text that was put together from known pieces: a class is
read up to where it stops, a word up to its end, a cut is made at the first occurrence of a word,
and white space at the ends is trimmed down to the first and the last other character. Conversely,
what a step has read is given piece by piece.
-/

namespace PluginPack.Text

variable {p : Char → Bool} {c : Char} {k t r w : Text}

/-- What is said of every character of a text is decided by going through the text, and not through
all characters that there are. -/
instance decidableForallMem (p : Char → Prop) [DecidablePred p] (t : Text) :
    Decidable (∀ c ∈ t, p c) := List.decidableBAll p t

/-! ## White space -/

/-- The codes of white space. -/
def whiteCodes : List Nat :=
  [9, 10, 11, 12, 13, 32, 133, 160, 5760, 8192, 8193, 8194, 8195, 8196, 8197, 8198, 8199, 8200,
    8201, 8202, 8232, 8233, 8239, 8287, 12288]

theorem toNat_mem_whiteCodes (h : isWhite c = true) : c.toNat ∈ whiteCodes := by
  have hcontrol : ∀ n ∈ List.range' 9 5, n ∈ whiteCodes := by decide
  have hrange : ∀ r ∈ whiteRanges, ∀ n ∈ List.range' r.first (r.last + 1 - r.first),
      n ∈ whiteCodes := by decide
  rw [isWhite] at h
  split at h
  · simp only [Bool.or_eq_true, beq_iff_eq, Bool.and_eq_true, decide_eq_true_eq] at h
    rcases h with rfl | h
    · decide
    · exact hcontrol _ (List.mem_range'_1.mpr (by omega))
  · obtain ⟨r, hr, hc⟩ := List.any_eq_true.mp h
    simp only [CodeRange.contains, Bool.and_eq_true, decide_eq_true_eq] at hc
    exact hrange r hr _ (List.mem_range'_1.mpr (by omega))

/-- A class that holds of no white space holds of other characters only. -/
theorem isWhite_of_forall (hc : p c = true) (h : ∀ n ∈ whiteCodes, p (Char.ofNat n) = false) :
    isWhite c = false := by
  by_contra hwhite
  have hn := h c.toNat (toNat_mem_whiteCodes (by simpa using hwhite))
  rw [Char.ofNat_toNat, hc] at hn
  cases hn

/-- The letters, digits, numbers and marks beyond ASCII. -/
def wordRanges : List CodeRange :=
  alphabeticRanges ++ decimalDigitRanges ++ otherNumberRanges ++ wordMarkRanges

theorem isApart_wordRanges : (whiteRanges.all fun r ↦ wordRanges.all r.isApart) = true := by
  decide +kernel

/-- A class that holds of no white space in ASCII, and beyond it of parts of words only. -/
theorem isWhite_of_wordRanges (hc : p c = true)
    (hascii : ∀ n ∈ whiteCodes, n < 128 → p (Char.ofNat n) = false)
    (hbeyond : ¬c.toNat < 128 → inRanges wordRanges c = true) : isWhite c = false := by
  by_contra hwhite
  rw [Bool.not_eq_false] at hwhite
  by_cases hcode : c.toNat < 128
  · have hn := hascii c.toNat (toNat_mem_whiteCodes hwhite) hcode
    rw [Char.ofNat_toNat, hc] at hn
    cases hn
  · rw [isWhite, if_neg hcode] at hwhite
    have hword := inRanges_of_isApart hwhite isApart_wordRanges
    rw [hbeyond hcode] at hword
    cases hword

/-- White space does not stand in names. -/
theorem isWhite_of_isNameChar (h : isNameChar c = true) : isWhite c = false := by
  refine isWhite_of_wordRanges h (by decide) fun hcode ↦ ?_
  rw [isNameChar, isWordChar, if_neg hcode] at h
  simp only [Bool.or_eq_true, beq_iff_eq] at h
  simp only [wordRanges, inRanges, List.any_append, Bool.or_eq_true]
  rcases h with ((h | h) | h) | rfl
  · exact .inl (.inl (.inl h))
  · exact .inl (.inl (.inr h))
  · exact .inr h
  · exact absurd (by decide) hcode

/-! ## Where a class stops -/

/-- A text that does not begin with a character of a class. -/
def Stops (p : Char → Bool) (t : Text) : Prop := ∀ c ∈ t.head?, p c = false

theorem stops_nil : Stops p [] := fun _ h ↦ by cases h

@[simp] theorem stops_cons : Stops p (c :: t) ↔ p c = false := by simp [Stops]

theorem Stops.append (h : Stops p t) (hne : t ≠ []) : Stops p (t ++ r) := by
  obtain ⟨c, t, rfl⟩ := List.exists_cons_of_ne_nil hne
  exact stops_cons.mpr (stops_cons.mp h)

theorem Stops.dropWhile_eq (h : Stops p t) : t.dropWhile p = t := by
  cases t with
  | nil => rfl
  | cons c t => exact List.dropWhile_cons_of_neg (by simpa using h)

theorem Stops.takeWhile_eq (h : Stops p t) : t.takeWhile p = [] := by
  cases t with
  | nil => rfl
  | cons c t => exact List.takeWhile_cons_of_neg (by simpa using h)

theorem stops_dropWhile (p : Char → Bool) (t : Text) : Stops p (t.dropWhile p) := by
  have h := List.head?_dropWhile_not p t
  intro c hc
  rw [Option.mem_def] at hc
  rwa [hc] at h

theorem dropWhile_append_eq (hw : ∀ c ∈ w, p c = true) (hr : Stops p r) :
    (w ++ r).dropWhile p = r := by
  rw [List.dropWhile_append_of_pos hw, hr.dropWhile_eq]

/-- A text without a character is of the class of all others. -/
theorem bne_of_not_mem (h : c ∉ t) : ∀ d ∈ t, (d != c) = true := by
  intro d hd
  rw [bne_iff_ne]
  rintro rfl
  exact h hd

theorem takeWhile_append_eq (hw : ∀ c ∈ w, p c = true) (hr : Stops p r) :
    (w ++ r).takeWhile p = w := by
  rw [List.takeWhile_append_of_pos hw, hr.takeWhile_eq, List.append_nil]

theorem not_mem_takeWhile_bne (c : Char) (t : Text) : c ∉ t.takeWhile (· != c) := by
  intro hmem
  have hne := List.all_eq_true.mp List.all_takeWhile c hmem
  simp at hne

/-- A text with a character in it is what stands in front of the first one, and what follows. -/
theorem eq_append_of_dropWhile_bne {d : Char} (h : t.dropWhile (· != c) = d :: r) :
    t = t.takeWhile (· != c) ++ c :: r := by
  obtain rfl : d = c := by
    have hstop := stops_dropWhile (· != c) t
    rw [h, stops_cons] at hstop
    simpa using hstop
  rw [← h, List.takeWhile_append_dropWhile]

/-! ## Steps on what was written for them -/

theorem word?_append (w t : Text) : word? w (w ++ t) = some t := word?_eq_some_iff.mpr rfl

theorem word?_eq_none_iff : word? w t = none ↔ ¬w <+: t := by
  rw [Option.eq_none_iff_forall_ne_some]
  constructor
  · rintro h ⟨r, rfl⟩
    exact h r (word?_append w r)
  · intro h r hr
    exact h ⟨r, (word?_eq_some_iff.mp hr).symm⟩

theorem some?_append (hne : w ≠ []) (hw : ∀ c ∈ w, p c = true) (hr : Stops p r) :
    some? p (w ++ r) = some r := by
  obtain ⟨c, w, rfl⟩ := List.exists_cons_of_ne_nil hne
  rw [List.cons_append, some?, if_pos (hw c List.mem_cons_self),
    dropWhile_append_eq (fun d hd ↦ hw d (List.mem_cons_of_mem c hd)) hr]

theorem some?_eq_none (h : Stops p t) : some? p t = none := by
  cases t with
  | nil => rfl
  | cons c t => rw [some?, if_neg (by simpa using h)]

theorem keyword?_append (hne : w ≠ []) (hw : ∀ c ∈ w, isWhite c = true) (hr : Stops isWhite r) :
    keyword? k (k ++ (w ++ r)) = some r := by
  rw [keyword?, word?_append, Option.bind_some, white?, some?_append hne hw hr]

theorem white?_blank (h : Stops isWhite r) : white? (' ' :: r) = some r :=
  some?_append (List.cons_ne_nil ' ' []) (by decide) h

theorem keyword?_blank (k : Text) (h : Stops isWhite r) : keyword? k (k ++ ' ' :: r) = some r :=
  keyword?_append (List.cons_ne_nil ' ' []) (by decide) h

/-- The word must not be the beginning of a longer one. -/
theorem keyword?_append_eq_none (hr : Stops isWhite r) : keyword? k (k ++ r) = none := by
  rw [keyword?, word?_append, Option.bind_some, white?, some?_eq_none hr]

theorem keyword?_eq_none (h : ¬k <+: t) : keyword? k t = none := by
  rw [keyword?, word?_eq_none_iff.mpr h, Option.bind_none]

theorem braces?_append (hw : '}' ∉ w) (r : Text) : braces? ('{' :: (w ++ '}' :: r)) = some r := by
  rw [braces?, dropWhile_append_eq (bne_of_not_mem hw) (by simp)]

theorem braces?_eq_none (h : c ≠ '{') : braces? (c :: t) = none := by
  unfold braces?
  split
  · rename_i heq
    exact absurd (List.cons.inj heq).1 h
  · rfl

/-! ## What steps have read -/

theorem exists_of_some?_eq_some (h : some? p t = some r) :
    ∃ w, w ≠ [] ∧ (∀ c ∈ w, p c = true) ∧ Stops p r ∧ t = w ++ r := by
  cases t with
  | nil => cases h
  | cons c t =>
    by_cases hc : p c = true
    · rw [some?, if_pos hc, Option.some_inj] at h
      subst h
      refine ⟨c :: t.takeWhile p, List.cons_ne_nil _ _, ?_, stops_dropWhile p t, ?_⟩
      · intro d hd
        rcases List.mem_cons.mp hd with rfl | hd
        · exact hc
        · exact List.all_eq_true.mp List.all_takeWhile d hd
      · rw [List.cons_append, List.takeWhile_append_dropWhile]
    · rw [some?, if_neg hc] at h
      cases h

theorem exists_of_keyword?_eq_some (h : keyword? k t = some r) :
    ∃ w, w ≠ [] ∧ (∀ c ∈ w, isWhite c = true) ∧ Stops isWhite r ∧ t = k ++ (w ++ r) := by
  obtain ⟨s, hs, h⟩ := Option.bind_eq_some_iff.mp h
  obtain ⟨w, hne, hw, hr, rfl⟩ := exists_of_some?_eq_some h
  exact ⟨w, hne, hw, hr, word?_eq_some_iff.mp hs⟩

theorem exists_of_braces?_eq_some (h : braces? t = some r) :
    ∃ w, '}' ∉ w ∧ t = '{' :: (w ++ '}' :: r) := by
  unfold braces? at h
  split at h
  · rename_i s
    split at h
    · rename_i c r' hd
      cases h
      exact ⟨s.takeWhile (· != '}'), not_mem_takeWhile_bne '}' s,
        congrArg _ (eq_append_of_dropWhile_bne hd)⟩
    · cases h
  · cases h

/-! ## Words in front of a character -/

/-- A word does not reach up to a character that it does not have. -/
theorem isPrefix_append_cons_iff (hc : c ∉ w) (u v : Text) : w <+: u ++ c :: v ↔ w <+: u := by
  refine ⟨fun h ↦ ?_, fun h ↦ h.trans (List.prefix_append u (c :: v))⟩
  rcases List.prefix_or_prefix_of_prefix h (List.prefix_append u (c :: v)) with hw | ⟨x, hx⟩
  · exact hw
  -- A longer word has the character behind the shorter text.
  · rw [← hx, List.prefix_append_right_inj] at h
    cases x with
    | nil => exact ⟨[], by rw [List.append_nil, ← hx, List.append_nil]⟩
    | cons d x =>
      rw [(List.cons_prefix_cons.mp h).1] at hx
      exact absurd (hx ▸ List.mem_append_right u List.mem_cons_self) hc

theorem isInfix_append_cons_iff (hc : c ∉ w) (u v : Text) :
    w <:+: u ++ c :: v ↔ w <:+: u ∨ w <:+: v := by
  induction u with
  | nil =>
    have hpre := isPrefix_append_cons_iff hc [] v
    rw [List.nil_append] at hpre ⊢
    rw [List.infix_cons_iff, hpre, List.prefix_nil, List.infix_nil]
  | cons e u ih =>
    rw [List.cons_append, List.infix_cons_iff, ih, List.infix_cons_iff, or_assoc,
      ← List.cons_append, isPrefix_append_cons_iff hc]

/-! ## Cutting at a word -/

/-- A word whose first character does not come again in it can not overlap with itself, so a text
without the word may stand in front of it. -/
theorem cutAt?_append (hc : c ∉ w) (ht : ¬c :: w <:+: t) (r : Text) :
    cutAt? (c :: w) (t ++ c :: (w ++ r)) = some (t, r) := by
  induction t with
  | nil => rw [List.nil_append, cutAt?, ← List.cons_append, word?_append]
  | cons d t ih =>
    have hnone : word? (c :: w) (d :: (t ++ c :: (w ++ r))) = none := by
      refine word?_eq_none_iff.mpr fun hpre ↦ ?_
      obtain ⟨rfl, hrest⟩ := List.cons_prefix_cons.mp hpre
      exact ht (List.cons_prefix_cons.mpr ⟨rfl, (isPrefix_append_cons_iff hc _ _).mp hrest⟩).isInfix
    rw [List.cons_append, cutAt?, hnone]
    simp only [ih fun h ↦ ht (h.trans (List.suffix_cons d t).isInfix), Option.map_some]

theorem cutAt?_eq_none (hw : w ≠ []) (ht : ¬w <:+: t) : cutAt? w t = none := by
  induction t with
  | nil => rw [cutAt?, if_neg (by simpa using hw)]
  | cons d t ih =>
    have hnone : word? w (d :: t) = none :=
      word?_eq_none_iff.mpr fun h ↦ ht h.isInfix
    rw [cutAt?, hnone]
    simp only [ih fun h ↦ ht (h.trans (List.suffix_cons d t).isInfix), Option.map_none]

theorem not_isInfix_of_cutAt?_eq_none (h : cutAt? w t = none) : ¬w <:+: t := by
  induction t with
  | nil =>
    intro hw
    obtain rfl := List.infix_nil.mp hw
    cases h
  | cons d t ih =>
    rw [cutAt?] at h
    split at h
    · cases h
    · next hnone =>
      rw [List.infix_cons_iff, not_or]
      exact ⟨word?_eq_none_iff.mp hnone, ih (Option.map_eq_none_iff.mp h)⟩

theorem not_isInfix_of_cutAt?_eq_some (hw : w ≠ []) (h : cutAt? w t = some (k, r)) : ¬w <:+: k := by
  induction t generalizing k with
  | nil =>
    rw [cutAt?, if_neg (by simpa using hw)] at h
    cases h
  | cons d t ih =>
    rw [cutAt?] at h
    split at h
    · cases h
      exact fun hin ↦ hw (List.infix_nil.mp hin)
    · next hnone =>
      obtain ⟨⟨k', r'⟩, hcut, he⟩ := Option.map_eq_some_iff.mp h
      cases he
      -- The word would begin with the text or be found behind its first character.
      rw [List.infix_cons_iff, not_or]
      refine ⟨fun hpre ↦ word?_eq_none_iff.mp hnone (hpre.trans ?_), ih hcut⟩
      rw [eq_append_of_cutAt? hcut, List.append_assoc, ← List.cons_append]
      exact List.prefix_append _ _

theorem cutAt?_eq_some_iff (hc : c ∉ w) :
    cutAt? (c :: w) t = some (k, r) ↔ t = k ++ c :: (w ++ r) ∧ ¬c :: w <:+: k := by
  constructor
  · intro h
    refine ⟨?_, not_isInfix_of_cutAt?_eq_some (List.cons_ne_nil c w) h⟩
    rw [eq_append_of_cutAt? h, List.append_assoc, List.cons_append]
  · rintro ⟨rfl, hk⟩
    exact cutAt?_append hc hk r

/-! ## Trimming -/

theorem trimEnd_append (hw : ∀ c ∈ w, isWhite c = true) (t : Text) :
    trimEnd (t ++ w) = trimEnd t := by
  rw [trimEnd, List.reverse_append,
    List.dropWhile_append_of_pos fun c hc ↦ hw c (List.mem_reverse.mp hc), trimEnd]

/-- Nothing is trimmed behind a character that is not white. -/
theorem trimEnd_append_cons (hc : isWhite c = false) (w t : Text) :
    trimEnd (w ++ c :: t) = w ++ c :: trimEnd t := by
  have hstop : Stops isWhite (c :: w.reverse) := stops_cons.mpr hc
  rw [trimEnd, List.reverse_append, List.reverse_cons, List.append_assoc, List.singleton_append,
    List.dropWhile_append, hstop.dropWhile_eq, trimEnd]
  split
  · rename_i hempty
    rw [List.isEmpty_iff.mp hempty]
    simp
  · simp

theorem trimStart_append (hw : ∀ c ∈ w, isWhite c = true) (t : Text) :
    trimStart (w ++ t) = trimStart t := List.dropWhile_append_of_pos hw

/-- White space is trimmed only up to a text that does not begin with it. -/
theorem trimStart_append_of_stops (h : Stops isWhite t) (x : Text) :
    trimStart (x ++ t) = trimStart x ++ t := by
  rw [trimStart, List.dropWhile_append]
  split
  · rename_i hempty
    rw [trimStart, List.isEmpty_iff.mp hempty, h.dropWhile_eq, List.nil_append]
  · rfl

theorem trim_append_left (hw : ∀ c ∈ w, isWhite c = true) (t : Text) : trim (w ++ t) = trim t := by
  rw [trim, trimStart_append hw, trim]

theorem trimStart_cons (hc : isWhite c = false) (t : Text) : trimStart (c :: t) = c :: t :=
  Stops.dropWhile_eq (stops_cons.mpr hc)

theorem trim_cons (hc : isWhite c = false) (t : Text) : trim (c :: t) = c :: trimEnd t := by
  rw [trim, trimStart_cons hc]
  exact trimEnd_append_cons hc [] t

/-- Nothing is trimmed between two characters that are not white. -/
theorem trim_append_cons (hw : Stops isWhite (w ++ [c])) (hc : isWhite c = false) (t : Text) :
    trim (w ++ c :: t) = w ++ c :: trimEnd t := by
  have hstop := hw.append (r := t) (List.concat_ne_nil c w)
  rw [List.append_assoc, List.singleton_append] at hstop
  rw [trim, trimStart, hstop.dropWhile_eq, trimEnd_append_cons hc]

theorem trimEnd_append_trailingWhite (t : Text) : trimEnd t ++ trailingWhite t = t := by
  rw [trimEnd, trailingWhite, ← List.reverse_append, List.takeWhile_append_dropWhile,
    List.reverse_reverse]

@[simp] theorem trimEnd_nil : trimEnd [] = [] := rfl

theorem trim_append_right (hw : ∀ c ∈ w, isWhite c = true) (ht : ∀ c ∈ t, isWhite c = false) :
    trim (t ++ w) = t := by
  rcases List.eq_nil_or_concat t with rfl | ⟨l, b, rfl⟩
  · have hend := trim_append_left hw []
    rwa [List.append_nil] at hend
  · rw [List.concat_eq_append] at ht ⊢
    have hstop : Stops isWhite (l ++ [b] ++ w) := by
      refine Stops.append (fun c hc ↦ ht c ?_) (List.concat_ne_nil b l)
      exact List.mem_of_mem_head? hc
    rw [trim, trimStart, hstop.dropWhile_eq, trimEnd_append hw,
      trimEnd_append_cons (ht b (List.mem_append_right l List.mem_cons_self)), trimEnd_nil]

/-- The ends may be trimmed in either order. -/
theorem trimStart_trimEnd (t : Text) : trimStart (trimEnd t) = trim t := by
  have hwhite : ∀ c ∈ t.takeWhile isWhite, isWhite c = true :=
    List.all_eq_true.mp List.all_takeWhile
  rw [← List.takeWhile_append_dropWhile (p := isWhite) (l := t), trim_append_left hwhite]
  have hstop := stops_dropWhile isWhite t
  cases hd : t.dropWhile isWhite with
  | nil =>
    have hend := trimEnd_append hwhite []
    rw [List.nil_append] at hend
    rw [List.append_nil, hend]
    rfl
  | cons c r =>
    rw [hd, stops_cons] at hstop
    rw [trimEnd_append_cons hstop, trimStart_append hwhite, trimStart_cons hstop, trim_cons hstop]

theorem trim_trimEnd (t : Text) : trim (trimEnd t) = trim t := by
  rw [trim, trimStart_trimEnd, trim]
  exact List.rdropWhile_idempotent isWhite (trimStart t)

theorem trim_trim (t : Text) : trim (trim t) = trim t := by
  have hstart : trimStart (trimStart t) = trimStart t := List.dropWhile_idempotent isWhite t
  calc trim (trim t) = trim (trimStart t) := trim_trimEnd (trimStart t)
    _ = trim t := by rw [trim, hstart, trim]

theorem trim_isInfix (t : Text) : trim t <:+: t :=
  (List.rdropWhile_prefix isWhite (trimStart t)).isInfix.trans
    (List.dropWhile_suffix isWhite).isInfix

/-! ## Lines -/

theorem splitNewlines_ne_nil (t : Text) : splitNewlines t ≠ [] := by
  cases t with
  | nil => exact List.cons_ne_nil _ _
  | cons c r =>
    rw [splitNewlines]
    split
    · exact List.cons_ne_nil _ _
    · split <;> exact List.cons_ne_nil _ _

theorem splitNewlines_eq_singleton (h : '\n' ∉ t) : splitNewlines t = [t] := by
  induction t with
  | nil => rfl
  | cons c t ih =>
    have hc : c ≠ '\n' := fun hc ↦ h (hc ▸ List.mem_cons_self)
    rw [splitNewlines, if_neg hc, ih fun ht ↦ h (List.mem_cons_of_mem c ht)]

theorem splitNewlines_append_cons (u v : Text) :
    splitNewlines (u ++ '\n' :: v) = splitNewlines u ++ splitNewlines v := by
  induction u with
  | nil => rfl
  | cons c u ih =>
    by_cases hc : c = '\n'
    · rw [List.cons_append, splitNewlines, if_pos hc, ih, splitNewlines, if_pos hc]
      rfl
    · obtain ⟨l, ls, hls⟩ := List.exists_cons_of_ne_nil (splitNewlines_ne_nil u)
      rw [List.cons_append, splitNewlines, if_neg hc, ih, splitNewlines, if_neg hc, hls]
      rfl

theorem splitNewlines_append (ht : '\n' ∉ t) (r : Text) :
    splitNewlines (t ++ '\n' :: r) = t :: splitNewlines r := by
  rw [splitNewlines_append_cons, splitNewlines_eq_singleton ht, List.singleton_append]

/-- The first line ends at the first newline. -/
theorem lines_append (ht : '\n' ∉ t) (r : Text) :
    lines (t ++ '\n' :: r) = dropReturn t :: lines r := by
  obtain ⟨l, ls, h⟩ := List.exists_cons_of_ne_nil (splitNewlines_ne_nil r)
  rw [lines, splitNewlines_append ht, lines, h]
  simp

/-- Lines that are written one after the other are read back. -/
theorem lines_flatMap {ls : List Text} (hls : ∀ l ∈ ls, '\n' ∉ l) (r : Text) :
    lines (ls.flatMap (· ++ ['\n']) ++ r) = ls.map dropReturn ++ lines r := by
  induction ls with
  | nil => rfl
  | cons l ls ih =>
    rw [List.flatMap_cons, List.append_assoc, List.append_assoc, List.singleton_append,
      lines_append (hls l List.mem_cons_self), ih fun m hm ↦ hls m (List.mem_cons_of_mem l hm),
      List.map_cons, List.cons_append]

theorem intercalate_append_newline {ls : List Text} (h : ls ≠ []) :
    List.intercalate ['\n'] ls ++ ['\n'] = ls.flatMap (· ++ ['\n']) := by
  induction ls with
  | nil => exact absurd rfl h
  | cons l ls ih =>
    cases ls with
    | nil => simp
    | cons m ls =>
      rw [List.intercalate_cons_cons, List.append_assoc, ih (List.cons_ne_nil m ls)]
      conv_rhs => rw [List.flatMap_cons]

theorem dropReturn_eq_self (h : t.getLast? ≠ some '\r') : dropReturn t = t := if_neg h

end PluginPack.Text

namespace PluginPack.Cut

variable {α : Type}

/-! ## The parts of a cut -/

@[simp] theorem parts_empty : (empty : Cut α).parts = [] := rfl

@[simp] theorem parts_push (c : Char) (k : Cut α) : (k.push c).parts = k.parts := rfl

@[simp] theorem parts_mark (a : α) (k : Cut α) : (k.mark a).parts = a :: k.parts := rfl

end PluginPack.Cut

namespace PluginPack.Marker

theorem consumed_left (t r : Text) : consumed (t ++ r) r = t := by
  simp [consumed]

theorem consumed_ne_nil {t r : Text} (h : r.length < t.length) : consumed t r ≠ [] := by
  rw [consumed, Ne, List.take_eq_nil_iff]
  rintro (hlength | rfl)
  · omega
  · cases h

end PluginPack.Marker
