import PluginPack.Proofs.Script.Passage
import PluginPack.TypeSyntax.Erasure

/-!
# Texts by byte offsets

A text is stored as its UTF-8 bytes, and a scan may move over these by their offsets without looking
at characters. That is sound because the marks a scan looks for are ASCII: a byte below 128 is a
character of its own, and all bytes of any other character are 128 or more. So a scan that stops at
a mark stops between two characters, and steps over the bytes of other characters one by one
wherever it enters them.

A computation on offsets is checked: it has no answer when it looks outside of the bytes or cuts a
text inside of a character. Its loops are recursions on the number of bytes that are left, so they
come to an end in any bytes, with characters cut in pieces or not.
-/

namespace PluginPack.Offset

open Text Script TypeSyntax

/-- What a computation on offsets answers, if it stays within the text. -/
abbrev Checked (α : Type) := Option α

abbrev Bytes := List UInt8

/-- The bytes of a text in UTF-8. -/
def bytes (t : Text) : Bytes := t.flatMap String.utf8EncodeChar

/-- The byte at an offset, as the character with its number. -/
def byteAt? (b : Bytes) (i : Nat) : Checked Char := b[i]?.map Char.ofUInt8

/-- The bytes from an offset on. -/
def bytesFrom? (b : Bytes) (i : Nat) : Checked Bytes :=
  if i ≤ b.length then some (b.drop i) else none

/-- The two parts of a text at an offset. -/
def splitAt? (i : Nat) (t : Text) : Checked (Text × Text) :=
  match i, t with
  | 0, t => some ([], t)
  | _ + 1, [] => none
  | i + 1, c :: t =>
    if c.utf8Size ≤ i + 1 then
      (splitAt? (i + 1 - c.utf8Size) t).map fun p ↦ (c :: p.1, p.2)
    else none

/-- The part of a text between two offsets, of which the second one must not come first. -/
def slice? (t : Text) (i j : Nat) : Checked Text :=
  (splitAt? j t).bind fun p ↦ (splitAt? i p.1).map Prod.snd

/-- An offset between two characters, or at an end of the text. -/
def IsBoundary (t : Text) (i : Nat) : Prop := ∃ a b, t = a ++ b ∧ i = utf8Length a

variable {a b s t u code : Text} {c d : Char} {i j : Nat} {bs : Bytes}

/-! ## Bytes -/

theorem bytes_cons (c : Char) (t : Text) : bytes (c :: t) = String.utf8EncodeChar c ++ bytes t :=
  List.flatMap_cons

@[simp] theorem bytes_append (t u : Text) : bytes (t ++ u) = bytes t ++ bytes u :=
  List.flatMap_append

@[simp] theorem length_bytes (t : Text) : (bytes t).length = utf8Length t := by
  induction t with
  | nil => rfl
  | cons c t ih =>
    rw [bytes_cons, List.length_append, String.length_utf8EncodeChar, utf8Length_cons, ih]

/-- A character that takes more than one byte. -/
def IsWide (c : Char) : Prop := 128 ≤ c.toNat

instance (c : Char) : Decidable (IsWide c) := inferInstanceAs (Decidable (_ ≤ _))

theorem IsWide.ne (h : IsWide c) (hd : ¬IsWide d) : c ≠ d := by
  rintro rfl
  exact hd h

theorem toNat_ofUInt8 (u : UInt8) : (Char.ofUInt8 u).toNat = u.toNat := rfl

theorem utf8EncodeChar_of_not_isWide (h : ¬IsWide c) :
    ∃ u, String.utf8EncodeChar c = [u] ∧ Char.ofUInt8 u = c := by
  have hc : c.toNat ≤ 127 := Nat.le_of_lt_succ (Nat.not_le.mp h)
  refine ⟨UInt8.ofNat c.toNat, by simp [String.utf8EncodeChar, hc], Char.toNat_inj.mp ?_⟩
  rw [toNat_ofUInt8, UInt8.toNat_ofNat']
  omega

theorem utf8Size_of_not_isWide (h : ¬IsWide c) : c.utf8Size = 1 := by
  obtain ⟨u, hu, -⟩ := utf8EncodeChar_of_not_isWide h
  rw [← String.length_utf8EncodeChar, hu, List.length_singleton]

theorem isWide_of_mem_utf8EncodeChar (h : IsWide c) {u : UInt8}
    (hu : u ∈ String.utf8EncodeChar c) : IsWide (Char.ofUInt8 u) := by
  have hc : ¬c.val.toNat ≤ 127 := Nat.not_le.mpr h
  rw [IsWide, toNat_ofUInt8]
  simp only [String.utf8EncodeChar, if_neg hc] at hu
  split_ifs at hu
  all_goals
    simp only [List.mem_cons, List.not_mem_nil, or_false] at hu
    rcases hu with rfl | rfl | rfl | rfl <;> rw [UInt8.toNat_ofNat'] <;> omega

theorem utf8Length_concat (hc : ¬IsWide c) (a : Text) :
    utf8Length (a ++ [c]) = utf8Length a + 1 := by
  simp [utf8Size_of_not_isWide hc]

theorem utf8Length_lt (a : Text) (c : Char) (s : Text) :
    utf8Length a < (bytes (a ++ c :: s)).length := by
  have := c.utf8Size_pos
  rw [length_bytes, utf8Length_append, utf8Length_cons]
  omega

/-- No byte of a character is mistaken for another character. -/
theorem ofUInt8_ne (hd : ¬IsWide d) (hne : c ≠ d) {u : UInt8} (hu : u ∈ String.utf8EncodeChar c) :
    Char.ofUInt8 u ≠ d := by
  by_cases hc : IsWide c
  · rintro rfl
    exact hd (isWide_of_mem_utf8EncodeChar hc hu)
  · obtain ⟨v, hv, rfl⟩ := utf8EncodeChar_of_not_isWide hc
    rw [hv, List.mem_singleton] at hu
    rwa [hu]

theorem bytesFrom?_of_le (h : i ≤ bs.length) : bytesFrom? bs i = some (bs.drop i) := if_pos h

theorem bytesFrom?_append (a t : Text) :
    bytesFrom? (bytes (a ++ t)) (utf8Length a) = some (bytes t) := by
  rw [bytesFrom?_of_le (by simp), bytes_append, ← length_bytes, List.drop_left]

theorem byteAt?_eq_none_iff : byteAt? bs i = none ↔ bs.length ≤ i := by
  rw [byteAt?, Option.map_eq_none_iff, List.getElem?_eq_none_iff]

theorem lt_of_byteAt? (h : byteAt? bs i = some c) : i < bs.length := by
  refine Nat.lt_of_not_le fun hle ↦ ?_
  rw [byteAt?_eq_none_iff.mpr hle] at h
  cases h

theorem exists_byteAt? (h : i < bs.length) : ∃ c, byteAt? bs i = some c :=
  ⟨Char.ofUInt8 bs[i], by rw [byteAt?, List.getElem?_eq_getElem h, Option.map_some]⟩

theorem byteAt?_append (t u : Text) (i : Nat) :
    byteAt? (bytes (t ++ u)) (utf8Length t + i) = byteAt? (bytes u) i := by
  rw [byteAt?, bytes_append, List.getElem?_append_right (by simp), length_bytes,
    Nat.add_sub_cancel_left, byteAt?]

/-- A character of one byte is found at its offset. -/
theorem byteAt?_of_not_isWide (h : ¬IsWide c) (a s : Text) :
    byteAt? (bytes (a ++ c :: s)) (utf8Length a) = some c := by
  obtain ⟨u, hu, rfl⟩ := utf8EncodeChar_of_not_isWide h
  have hbytes := byteAt?_append a (Char.ofUInt8 u :: s) 0
  rw [Nat.add_zero] at hbytes
  rw [hbytes, byteAt?, bytes_cons, hu]
  rfl

/-- At all offsets in a wide character there are wide bytes. -/
theorem byteAt?_of_isWide (h : IsWide c) (a s : Text) (hi : i < c.utf8Size) :
    ∃ d, byteAt? (bytes (a ++ c :: s)) (utf8Length a + i) = some d ∧ IsWide d := by
  rw [← String.length_utf8EncodeChar] at hi
  refine ⟨Char.ofUInt8 (String.utf8EncodeChar c)[i], ?_,
    isWide_of_mem_utf8EncodeChar h (List.getElem_mem hi)⟩
  rw [byteAt?_append, byteAt?, bytes_cons, List.getElem?_append_left hi,
    List.getElem?_eq_getElem hi]
  rfl

theorem byteAt?_head_of_isWide (h : IsWide c) (a s : Text) :
    ∃ d, byteAt? (bytes (a ++ c :: s)) (utf8Length a) = some d ∧ IsWide d := by
  simpa using byteAt?_of_isWide h a s c.utf8Size_pos

theorem exists_byteAt?_within (hd : ¬IsWide d) (hne : c ≠ d) (a s : Text) (hi : i < c.utf8Size) :
    ∃ e, byteAt? (bytes (a ++ c :: s)) (utf8Length a + i) = some e ∧ e ≠ d := by
  by_cases hc : IsWide c
  · obtain ⟨e, he, hwide⟩ := byteAt?_of_isWide hc a s hi
    exact ⟨e, he, hwide.ne hd⟩
  · obtain rfl : i = 0 := by
      have := utf8Size_of_not_isWide hc
      omega
    exact ⟨c, byteAt?_of_not_isWide hc a s, hne⟩

/-- **A byte that is not wide is a character of the text.** -/
theorem exists_of_byteAt? (h : byteAt? (bytes t) i = some d) (hd : ¬IsWide d) :
    ∃ a s, t = a ++ d :: s ∧ i = utf8Length a := by
  induction t generalizing i with
  | nil => cases h
  | cons c t ih =>
    rcases Nat.lt_or_ge i c.utf8Size with hi | hi
    · by_cases hc : IsWide c
      · obtain ⟨e, he, hwide⟩ := byteAt?_of_isWide hc [] t hi
        rw [utf8Length_nil, Nat.zero_add, List.nil_append, h] at he
        exact absurd (Option.some.inj he ▸ hwide) hd
      · have hzero : i = 0 := by
          have := utf8Size_of_not_isWide hc
          omega
        have hc' := byteAt?_of_not_isWide hc [] t
        rw [utf8Length_nil, List.nil_append, ← hzero, h] at hc'
        exact ⟨[], t, by rw [Option.some.inj hc']; rfl, hzero⟩
    · have hstep := byteAt?_append [c] t (i - c.utf8Size)
      simp only [utf8Length_cons, utf8Length_nil, Nat.add_zero, List.singleton_append] at hstep
      rw [Nat.add_sub_cancel' hi, h] at hstep
      obtain ⟨a, s, rfl, ha⟩ := ih hstep.symm
      exact ⟨c :: a, s, rfl, by rw [utf8Length_cons]; omega⟩

theorem byteAt?_zero_eq_some_iff (hd : ¬IsWide d) :
    byteAt? (bytes t) 0 = some d ↔ t.head? = some d := by
  cases t with
  | nil => exact iff_of_false (by rintro ⟨⟩) (by rintro ⟨⟩)
  | cons c t =>
    rw [List.head?_cons, Option.some_inj]
    by_cases hc : IsWide c
    · obtain ⟨e, he, hwide⟩ := byteAt?_head_of_isWide hc [] t
      refine iff_of_false (fun h ↦ ?_) (hc.ne hd)
      exact hwide.ne hd (Option.some.inj (he.symm.trans h))
    · rw [show byteAt? (bytes (c :: t)) 0 = some c from byteAt?_of_not_isWide hc [] t,
        Option.some_inj]

/-- What stands behind a character of one byte. -/
theorem byteAt?_second (hc : ¬IsWide c) (a t : Text) :
    byteAt? (bytes (a ++ c :: t)) (utf8Length a + 1) = byteAt? (bytes t) 0 := by
  rw [← byteAt?_append (a ++ [c]) t 0, utf8Length_concat hc]
  simp

theorem byteAt?_second_eq_some_iff (hc : ¬IsWide c) (hd : ¬IsWide d) (a t : Text) :
    byteAt? (bytes (a ++ c :: t)) (utf8Length a + 1) = some d ↔ t.head? = some d := by
  rw [byteAt?_second hc, byteAt?_zero_eq_some_iff hd]

theorem byteAt?_end (t : Text) : byteAt? (bytes t) (utf8Length t) = none :=
  byteAt?_eq_none_iff.mpr (length_bytes t).le

/-! ## Boundaries -/

/-- At the offset stands a byte that is not wide. -/
def IsMark (b : Bytes) (i : Nat) : Prop := ∃ c, byteAt? b i = some c ∧ ¬IsWide c

theorem IsMark.lt (h : IsMark bs i) : i < bs.length := by
  obtain ⟨c, hbyte, -⟩ := h
  exact lt_of_byteAt? hbyte

theorem isBoundary_append (a b : Text) : IsBoundary (a ++ b) (utf8Length a) := ⟨a, b, rfl, rfl⟩

/-- Before and behind a byte that is not wide there are boundaries. -/
theorem isBoundary_of_byteAt? (h : byteAt? (bytes t) i = some d) (hd : ¬IsWide d) :
    IsBoundary t i ∧ IsBoundary t (i + 1) := by
  obtain ⟨a, s, rfl, rfl⟩ := exists_of_byteAt? h hd
  refine ⟨isBoundary_append a (d :: s), a ++ [d], s, by simp, ?_⟩
  simp [utf8Size_of_not_isWide hd]

theorem IsMark.isBoundary (h : IsMark (bytes t) i) : IsBoundary t i := by
  obtain ⟨c, hbyte, hc⟩ := h
  exact (isBoundary_of_byteAt? hbyte hc).1

/-! ## Slices -/

@[simp] theorem splitAt?_append (a b : Text) : splitAt? (utf8Length a) (a ++ b) = some (a, b) := by
  induction a with
  | nil => rw [utf8Length_nil, splitAt?, List.nil_append]
  | cons c a ih =>
    have hpos := c.utf8Size_pos
    obtain ⟨n, hn⟩ : ∃ n, utf8Length (c :: a) = n + 1 :=
      Nat.exists_eq_succ_of_ne_zero (by rw [utf8Length_cons]; omega)
    rw [utf8Length_cons] at hn
    rw [utf8Length_cons, hn, List.cons_append, splitAt?, if_pos (by omega),
      show n + 1 - c.utf8Size = utf8Length a by omega, ih]
    rfl

theorem splitAt?_eq_some_iff : splitAt? i t = some (a, b) ↔ t = a ++ b ∧ i = utf8Length a := by
  refine ⟨fun h ↦ ?_, fun ⟨ht, hi⟩ ↦ ht ▸ hi ▸ splitAt?_append a b⟩
  fun_induction splitAt? i t generalizing a b with
  | case1 t =>
    cases h
    exact ⟨rfl, rfl⟩
  | case2 => cases h
  | case3 i c t hle ih =>
    obtain ⟨p, hp, he⟩ := Option.map_eq_some_iff.mp h
    cases he
    obtain ⟨rfl, hi⟩ := ih hp
    exact ⟨rfl, by rw [utf8Length_cons]; omega⟩
  | case4 => cases h

theorem slice?_append (a b s : Text) :
    slice? (a ++ b ++ s) (utf8Length a) (utf8Length (a ++ b)) = some b := by
  rw [slice?, splitAt?_append, Option.bind_some, splitAt?_append]
  rfl

/-- **A slice exists** exactly when both of its ends lie between characters and come in order. -/
theorem isSome_slice? : (slice? t i j).isSome ↔ i ≤ j ∧ IsBoundary t i ∧ IsBoundary t j := by
  rw [Option.isSome_iff_exists]
  constructor
  · rintro ⟨w, h⟩
    obtain ⟨⟨u, s⟩, hu, h⟩ := Option.bind_eq_some_iff.mp h
    obtain ⟨⟨a, w⟩, ha, -⟩ := Option.map_eq_some_iff.mp h
    obtain ⟨rfl, rfl⟩ := splitAt?_eq_some_iff.mp hu
    obtain ⟨rfl, rfl⟩ := splitAt?_eq_some_iff.mp ha
    exact ⟨by simp, List.append_assoc a w s ▸ isBoundary_append a (w ++ s), isBoundary_append _ s⟩
  · rintro ⟨hle, ⟨a, x, rfl, rfl⟩, u, y, hsplit, rfl⟩
    rcases List.append_eq_append_iff.mp hsplit with ⟨m, rfl, rfl⟩ | ⟨m, rfl, rfl⟩
    · exact ⟨m, List.append_assoc a m y ▸ slice?_append a m y⟩
    · obtain rfl : m = [] := by
        refine List.eq_nil_iff_length_eq_zero.mpr (Nat.le_zero.mp ?_)
        have := length_le_utf8Length m
        rw [utf8Length_append] at hle
        omega
      have hslice := slice?_append u [] x
      exact ⟨[], by simpa using hslice⟩

theorem slice?_start (a s : Text) : slice? (a ++ s) 0 (utf8Length a) = some a :=
  slice?_append [] a s

theorem slice?_end (a s : Text) :
    slice? (a ++ s) (utf8Length a) (utf8Length (a ++ s)) = some s := by
  have hslice := slice?_append a s []
  rwa [List.append_nil] at hslice

/-! ## Scans over one character -/

/-- A scan that steps over each byte of a character steps over the character, wherever in it the
scan begins. -/
theorem scan_from {β : Type} {scan : Nat → β}
    (hscan : ∀ k < c.utf8Size, scan (utf8Length a + k) = scan (utf8Length a + k + 1))
    (hi : i ≤ c.utf8Size) : scan (utf8Length a + i) = scan (utf8Length (a ++ [c])) := by
  obtain ⟨k, hk⟩ := Nat.exists_eq_add_of_le hi
  induction k generalizing i with
  | zero => simp [hk]
  | succ k ih =>
    rw [hscan i (by omega)]
    exact ih (i := i + 1) (by omega) (by omega)

/-- A scan that passes over wide bytes passes over wide characters. -/
theorem scan_wide_from {β : Type} {scan : Nat → β} (hc : IsWide c) (hcode : code = a ++ c :: s)
    (hscan : ∀ i d, byteAt? (bytes code) i = some d → IsWide d → scan i = scan (i + 1))
    (hi : i ≤ c.utf8Size) : scan (utf8Length a + i) = scan (utf8Length (a ++ [c])) := by
  refine scan_from (fun k hk ↦ ?_) hi
  obtain ⟨d, hd, hwide⟩ := byteAt?_of_isWide hc a s hk
  exact hscan _ d (hcode ▸ hd) hwide

theorem scan_wide {β : Type} {scan : Nat → β} (hc : IsWide c) (hcode : code = a ++ c :: s)
    (hscan : ∀ i d, byteAt? (bytes code) i = some d → IsWide d → scan i = scan (i + 1)) :
    scan (utf8Length a) = scan (utf8Length (a ++ [c])) :=
  scan_wide_from hc hcode hscan (Nat.zero_le _)

/-! ## Classes of marks -/

namespace IsWide

variable (h : IsWide c)
include h

theorem isQuote : isQuote c = false := by
  simp [Script.isQuote, h.ne (d := '"') (by decide), h.ne (d := '\'') (by decide),
    h.ne (d := '\x60') (by decide)]

theorem isOpening : isOpening c = false := by
  simp [Script.isOpening, h.ne (d := '(') (by decide), h.ne (d := '[') (by decide),
    h.ne (d := '{') (by decide)]

theorem isClosing : isClosing c = false := by
  simp [Script.isClosing, h.ne (d := ')') (by decide), h.ne (d := ']') (by decide),
    h.ne (d := '}') (by decide)]

theorem opensNesting : opensNesting c = false := by
  simp [TypeSyntax.opensNesting, h.isOpening, h.ne (d := '<') (by decide)]

theorem closesNesting : closesNesting c = false := by
  simp [TypeSyntax.closesNesting, h.isClosing, h.ne (d := '>') (by decide)]

theorem isAsciiWhite : isAsciiWhite c = false := by
  simp [PluginPack.isAsciiWhite, h.ne (d := ' ') (by decide), h.ne (d := '\t') (by decide),
    h.ne (d := '\n') (by decide), h.ne (d := '\r') (by decide), h.ne (d := '\x0c') (by decide)]

end IsWide

end PluginPack.Offset
