import PluginPack.Proofs.Offset.Basic

/-!
# Literals and comments by byte offsets

The scan that steps over the literal or comment at an offset. In a literal it goes two bytes on
from a backslash, which may lead it into a wide character; no byte in there is a mark, so it comes
out behind that character. It steps over a literal or comment exactly when one begins at the offset,
and then goes on behind it.
-/

namespace PluginPack.Offset

open Text Script TypeSyntax

/-- Where a literal ends, from an offset behind its opening quote. -/
def quotedEnd (b : Bytes) (quote : Char) (i : Nat) : Checked Nat :=
  match hbyte : byteAt? b i with
  | none => some b.length
  | some c =>
    have := lt_of_byteAt? hbyte
    if c = '\\' then quotedEnd b quote (i + 2)
    else if c = '\n' ∧ quote ≠ '\x60' then some i
    else if c = quote then some (i + 1)
    else quotedEnd b quote (i + 1)
termination_by b.length - i
decreasing_by all_goals omega

/-- How many bytes stand before the first newline. -/
def findNewline? (b : Bytes) : Option Nat := b.findIdx? fun u ↦ Char.ofUInt8 u == '\n'

/-- How many bytes stand before the first star with a slash behind it. -/
def findClosing? (b : Bytes) : Option Nat :=
  (b.zip b.tail).findIdx? fun w ↦ Char.ofUInt8 w.1 == '*' && Char.ofUInt8 w.2 == '/'

/-- Where the literal or comment ends that begins at an offset, if one begins there. -/
def inertEnd (b : Bytes) (i : Nat) : Checked (Option Nat) :=
  match byteAt? b i with
  | none => some none
  | some c =>
    if isQuote c then (quotedEnd b c (i + 1)).map some
    else if c = '/' then
      match byteAt? b (i + 1) with
      | none => some none
      | some d =>
        if d = '/' then
          (bytesFrom? b (i + 2)).map fun s ↦
            some <| (findNewline? s).elim b.length (i + 2 + ·)
        else if d = '*' then
          (bytesFrom? b (i + 2)).map fun s ↦
            some <| (findClosing? s).elim b.length (i + 2 + · + 2)
        else some none
    else some none

variable {a lit r s t code : Text} {c d quote : Char} {i j : Nat} {bs : Bytes} {u : UInt8}

/-! ## All bytes -/

theorem quotedEnd_end (h : byteAt? bs i = none) : quotedEnd bs quote i = some bs.length := by
  rw [quotedEnd]
  split <;> simp_all

theorem quotedEnd_byte (h : byteAt? bs i = some c) :
    quotedEnd bs quote i =
      if c = '\\' then quotedEnd bs quote (i + 2)
      else if c = '\n' ∧ quote ≠ '\x60' then some i
      else if c = quote then some (i + 1)
      else quotedEnd bs quote (i + 1) := by
  rw [quotedEnd]
  split <;> simp_all

/-- **The end of a literal** is found in any bytes, also when it is never closed or ends in a
backslash. -/
theorem exists_quotedEnd (bs : Bytes) (quote : Char) (i : Nat) :
    ∃ j, quotedEnd bs quote i = some j ∧ j ≤ bs.length ∧ (i ≤ bs.length → i ≤ j) := by
  fun_induction quotedEnd bs quote i with
  | case1 i hbyte => exact ⟨bs.length, rfl, le_rfl, id⟩
  | case2 i hbyte hlt ih =>
    obtain ⟨j, hj, hle, hij⟩ := ih
    refine ⟨j, hj, hle, fun _ ↦ ?_⟩
    rcases Nat.lt_or_ge bs.length (i + 2) with h | h
    · rw [quotedEnd_end (byteAt?_eq_none_iff.mpr h.le)] at hj
      cases hj
      exact hlt.le
    · exact (Nat.le_add_right i 2).trans (hij h)
  | case3 i c hbyte hlt hescape hline => exact ⟨i, rfl, hlt.le, fun _ ↦ le_rfl⟩
  | case4 i hbyte hlt hescape hline => exact ⟨i + 1, rfl, hlt, fun _ ↦ Nat.le_succ i⟩
  | case5 i c hbyte hlt hescape hline hquote ih =>
    obtain ⟨j, hj, hle, hij⟩ := ih
    exact ⟨j, hj, hle, fun _ ↦ (Nat.le_succ i).trans (hij hlt)⟩

theorem lt_of_findClosing? {k : Nat} (h : findClosing? bs = some k) : k + 1 < bs.length := by
  obtain ⟨hk, -⟩ := List.findIdx?_eq_some_iff_getElem.mp h
  rw [List.length_zip, List.length_tail] at hk
  omega

theorem lt_of_findNewline? {k : Nat} (h : findNewline? bs = some k) : k < bs.length :=
  (List.findIdx?_eq_some_iff_getElem.mp h).1

/-- **The scan steps forward** over literals and comments and stays within the bytes, wherever in
them it begins. -/
theorem exists_inertEnd (bs : Bytes) (i : Nat) :
    ∃ r, inertEnd bs i = some r ∧ ∀ j ∈ r, i < j ∧ j ≤ bs.length := by
  rw [inertEnd]
  cases hbyte : byteAt? bs i with
  | none => exact ⟨none, rfl, by simp⟩
  | some c =>
    have hlt := lt_of_byteAt? hbyte
    dsimp only
    split
    · obtain ⟨j, hj, hle, hij⟩ := exists_quotedEnd bs c (i + 1)
      refine ⟨some j, by rw [hj]; rfl, fun k hk ↦ ?_⟩
      cases hk
      exact ⟨hij hlt, hle⟩
    · split
      · cases hnext : byteAt? bs (i + 1) with
        | none => exact ⟨none, rfl, by simp⟩
        | some d =>
          have hlt' := lt_of_byteAt? hnext
          dsimp only
          rw [bytesFrom?_of_le hlt']
          have hdrop : (bs.drop (i + 2)).length = bs.length - (i + 2) := List.length_drop
          split
          · refine ⟨_, rfl, fun j hj ↦ ?_⟩
            cases hj
            cases hline : findNewline? (bs.drop (i + 2)) with
            | none => exact ⟨hlt, le_rfl⟩
            | some k =>
              have := lt_of_findNewline? hline
              simp only [Option.elim_some]
              omega
          · split
            · refine ⟨_, rfl, fun j hj ↦ ?_⟩
              cases hj
              cases hclose : findClosing? (bs.drop (i + 2)) with
              | none => exact ⟨hlt, le_rfl⟩
              | some k =>
                have := lt_of_findClosing? hclose
                simp only [Option.elim_some]
                omega
            · exact ⟨none, rfl, by simp⟩
      · exact ⟨none, rfl, by simp⟩

theorem lt_of_inertEnd (h : inertEnd bs i = some (some j)) : i < j := by
  obtain ⟨r, hr, hforward⟩ := exists_inertEnd bs i
  cases hr.symm.trans h
  exact (hforward j rfl).1

/-! ## Literals of a text -/

theorem quotedEnd_wide (hquote : ¬IsWide quote) (i : Nat) (d : Char)
    (hbyte : byteAt? bs i = some d) (hd : IsWide d) :
    quotedEnd bs quote i = quotedEnd bs quote (i + 1) := by
  rw [quotedEnd_byte hbyte, if_neg (hd.ne (by decide)), if_neg fun h ↦ hd.ne (by decide) h.1,
    if_neg (hd.ne hquote)]

/-- Behind a backslash the scan comes to the end of the next character, also when it entered that
character in the middle. -/
theorem quotedEnd_behind (hquote : ¬IsWide quote) (a : Text) (c : Char) (s : Text) :
    quotedEnd (bytes (a ++ c :: s)) quote (utf8Length a + 1) =
      quotedEnd (bytes (a ++ c :: s)) quote (utf8Length (a ++ [c])) := by
  by_cases hc : IsWide c
  · exact scan_wide_from hc rfl (quotedEnd_wide hquote) c.utf8Size_pos
  · simp [utf8Size_of_not_isWide hc]

/-- A literal ends where it ends as a text. -/
theorem quotedEnd_eq (hquote : ¬IsWide quote) (a t : Text) :
    quotedEnd (bytes (a ++ t)) quote (utf8Length a) =
      some (utf8Length (a ++ (splitQuoted quote t).1)) := by
  fun_induction splitQuoted quote t generalizing a with
  | case1 => rw [List.append_nil, quotedEnd_end (byteAt?_end a), length_bytes]
  | case2 =>
    have hpast : byteAt? (bytes (a ++ ['\\'])) (utf8Length a + 2) = none := by
      rw [byteAt?_eq_none_iff, length_bytes, utf8Length_concat (by decide)]
      omega
    rw [quotedEnd_byte (byteAt?_of_not_isWide (by decide) a []), if_pos rfl, quotedEnd_end hpast,
      length_bytes]
  | case3 c r p ih =>
    have hstep := quotedEnd_behind hquote (a ++ ['\\']) c r
    have hih := ih ((a ++ ['\\']) ++ [c])
    rw [utf8Length_concat (by decide)] at hstep
    rw [List.append_assoc, List.singleton_append] at hih
    rw [List.append_assoc, List.singleton_append] at hstep
    rw [quotedEnd_byte (byteAt?_of_not_isWide (by decide) a (c :: r)), if_pos rfl, hstep]
    simpa using hih
  | case4 c r _ _ hc =>
    obtain ⟨rfl, hq⟩ := hc
    rw [quotedEnd_byte (byteAt?_of_not_isWide (by decide) a r), if_neg (by decide),
      if_pos ⟨rfl, hq⟩, List.append_nil]
  | case5 r hesc hesc' hc =>
    have hne : quote ≠ '\\' := by
      rintro rfl
      cases r with
      | nil => exact hesc rfl rfl
      | cons d r => exact hesc' d r rfl rfl
    rw [quotedEnd_byte (byteAt?_of_not_isWide hquote a r), if_neg hne, if_neg hc, if_pos rfl,
      utf8Length_concat hquote]
  | case6 c r hesc hesc' hnl hq p ih =>
    have hne : c ≠ '\\' := by
      rintro rfl
      cases r with
      | nil => exact hesc rfl rfl
      | cons d r => exact hesc' d r rfl rfl
    have hih := ih (a ++ [c])
    simp only [List.append_assoc, List.singleton_append] at hih
    by_cases hc : IsWide c
    · rw [scan_wide hc rfl (quotedEnd_wide hquote), hih]
    · rw [quotedEnd_byte (byteAt?_of_not_isWide hc a r), if_neg hne, if_neg hnl, if_neg hq,
        ← utf8Length_concat hc, hih]

/-! ## Comments of a text -/

theorem findNewline?_bytes (t : Text) :
    (findNewline? (bytes t)).getD (utf8Length t) = utf8Length (t.takeWhile (· != '\n')) := by
  induction t with
  | nil => rfl
  | cons c t ih =>
    by_cases hc : c = '\n'
    · subst hc
      rfl
    · have hnone : findNewline? (String.utf8EncodeChar c) = none := by
        refine List.findIdx?_eq_none_iff.mpr fun u hu ↦ ?_
        exact beq_eq_false_iff_ne.mpr (ofUInt8_ne (by decide) hc hu)
      rw [findNewline?] at hnone
      rw [List.takeWhile_cons_of_pos (by simpa using hc), utf8Length_cons, utf8Length_cons, ← ih,
        findNewline?, bytes_cons, List.findIdx?_append, hnone, Option.none_or,
        String.length_utf8EncodeChar, findNewline?]
      cases List.findIdx? _ (bytes t) with
      | none => rfl
      | some k => exact Nat.add_comm _ _

theorem findClosing?_cons (h : Char.ofUInt8 u = '*' → ∀ v ∈ bs.head?, Char.ofUInt8 v ≠ '/') :
    findClosing? (u :: bs) = (findClosing? bs).map (· + 1) := by
  cases bs with
  | nil => rfl
  | cons v bs =>
    have huv : (Char.ofUInt8 u == '*' && Char.ofUInt8 v == '/') = false := by
      by_cases hu : Char.ofUInt8 u = '*'
      · simp [h hu v rfl]
      · simp [hu]
    rw [findClosing?, List.tail_cons, List.zip_cons_cons, List.findIdx?_cons, huv, findClosing?,
      List.tail_cons]
    rfl

theorem findClosing?_append {us : Bytes} (hu : ∀ u ∈ us, Char.ofUInt8 u ≠ '*') (bs : Bytes) :
    findClosing? (us ++ bs) = (findClosing? bs).map (· + us.length) := by
  induction us with
  | nil => simp
  | cons u us ih =>
    rw [List.cons_append, findClosing?_cons fun h ↦ absurd h (hu u List.mem_cons_self),
      ih fun v hv ↦ hu v (List.mem_cons_of_mem u hv), Option.map_map]
    rfl

/-- What begins with one character begins with no byte of another. -/
theorem ofUInt8_ne_of_mem_head? (hd : ¬IsWide d) (hne : c ≠ d) (t : Text) :
    ∀ v ∈ (bytes (c :: t)).head?, Char.ofUInt8 v ≠ d := by
  intro v hv
  obtain ⟨w, ws, hw⟩ := List.exists_cons_of_ne_nil (l := String.utf8EncodeChar c) fun hnil ↦ by
    have := congrArg List.length hnil
    rw [String.length_utf8EncodeChar] at this
    exact c.utf8Size_pos.ne' this
  rw [bytes_cons, hw, List.cons_append, List.head?_cons] at hv
  cases hv
  exact ofUInt8_ne hd hne (hw ▸ List.mem_cons_self)

theorem findClosing?_bytes (t : Text) :
    findClosing? (bytes t) = (cutAt? ['*', '/'] t).map fun p ↦ utf8Length p.1 := by
  induction t with
  | nil => rfl
  | cons c t ih =>
    have hskip (hword : word? ['*', '/'] (c :: t) = none) :
        (findClosing? (bytes t)).map (· + (String.utf8EncodeChar c).length) =
          (cutAt? ['*', '/'] (c :: t)).map fun p ↦ utf8Length p.1 := by
      rw [ih, cutAt?, hword, Option.map_map, Option.map_map, String.length_utf8EncodeChar]
      exact congrFun (congrArg Option.map (funext fun p ↦ Nat.add_comm _ _)) _
    by_cases hc : c = '*'
    · subst hc
      cases t with
      | nil => rfl
      | cons d t =>
        by_cases hd : d = '/'
        · subst hd
          rfl
        · rw [← hskip (by simp [word?, Ne.symm hd])]
          exact findClosing?_cons fun _ ↦ ofUInt8_ne_of_mem_head? (by decide) hd t
    · rw [bytes_cons, findClosing?_append fun u hu ↦ ofUInt8_ne (by decide) hc hu]
      exact hskip (by simp [word?, Ne.symm hc])

/-! ## Where literals and comments end -/

theorem inertEnd_wide (hc : IsWide c) (hbyte : byteAt? bs i = some c) :
    inertEnd bs i = some none := by
  rw [inertEnd, hbyte]
  dsimp only
  rw [hc.isQuote, if_neg Bool.false_ne_true, if_neg (hc.ne (by decide))]

theorem not_isWide_of_isQuote (hc : isQuote c = true) : ¬IsWide c := by
  intro hwide
  rw [hwide.isQuote] at hc
  cases hc

theorem inertEnd_quote (hc : isQuote c = true) (a t : Text) :
    inertEnd (bytes (a ++ c :: t)) (utf8Length a) =
      some (some (utf8Length (a ++ c :: (splitQuoted c t).1))) := by
  have hwide := not_isWide_of_isQuote hc
  have hend := quotedEnd_eq hwide (a ++ [c]) t
  rw [utf8Length_concat hwide] at hend
  simp only [List.append_assoc, List.singleton_append] at hend
  rw [inertEnd, byteAt?_of_not_isWide hwide]
  dsimp only
  rw [if_pos hc, hend]
  rfl

theorem inert?_slash (hline : d ≠ '/') (hblock : d ≠ '*') (t : Text) :
    inert? ('/' :: d :: t) = none := by
  unfold inert?
  split
  · rename_i heq
    exact absurd (List.cons.inj (List.cons.inj heq).2).1 hline
  · rename_i heq
    exact absurd (List.cons.inj (List.cons.inj heq).2).1 hblock
  · rename_i heq
    rw [← (List.cons.inj heq).1, if_neg (by decide)]
  · rfl

theorem bytesFrom?_second (hc : ¬IsWide c) (hd : ¬IsWide d) (a t : Text) :
    bytesFrom? (bytes (a ++ c :: d :: t)) (utf8Length a + 2) = some (bytes t) := by
  have hfrom := bytesFrom?_append (a ++ [c] ++ [d]) t
  rw [utf8Length_concat hd, utf8Length_concat hc] at hfrom
  rwa [List.append_assoc, List.append_assoc, List.singleton_append, List.singleton_append] at hfrom

/-- What a slash begins is told by the byte behind it. -/
theorem inertEnd_of_second (h : byteAt? (bytes (a ++ '/' :: t)) (utf8Length a + 1) = some d) :
    inertEnd (bytes (a ++ '/' :: t)) (utf8Length a) =
      if d = '/' then
        (bytesFrom? (bytes (a ++ '/' :: t)) (utf8Length a + 2)).map fun s ↦
          some <| (findNewline? s).elim (bytes (a ++ '/' :: t)).length (utf8Length a + 2 + ·)
      else if d = '*' then
        (bytesFrom? (bytes (a ++ '/' :: t)) (utf8Length a + 2)).map fun s ↦
          some <| (findClosing? s).elim (bytes (a ++ '/' :: t)).length (utf8Length a + 2 + · + 2)
      else some none := by
  rw [inertEnd, byteAt?_of_not_isWide (by decide)]
  dsimp only
  rw [if_neg (by decide), if_pos rfl, h]

theorem inertEnd_line (a t : Text) :
    inertEnd (bytes (a ++ '/' :: '/' :: t)) (utf8Length a) =
      some (some (utf8Length (a ++ '/' :: '/' :: t.takeWhile (· != '\n')))) := by
  have hsecond := (byteAt?_second_eq_some_iff (c := '/') (by decide) (by decide) a _).mpr
    (List.head?_cons (a := '/') (l := t))
  have hsize : '/'.utf8Size = 1 := rfl
  rw [inertEnd_of_second hsecond, if_pos rfl, bytesFrom?_second (by decide) (by decide),
    Option.map_some, length_bytes]
  refine congrArg (some ∘ some) ?_
  simp only [utf8Length_append, utf8Length_cons, ← findNewline?_bytes, hsize]
  cases findNewline? (bytes t) with
  | none => rfl
  | some k =>
    rw [Option.elim_some, Option.getD_some]
    omega

theorem inertEnd_block (a t : Text) :
    inertEnd (bytes (a ++ '/' :: '*' :: t)) (utf8Length a) =
      some (some (utf8Length (a ++ '/' :: '*' :: (splitBlockComment t).1))) := by
  have hsecond := (byteAt?_second_eq_some_iff (c := '/') (by decide) (by decide) a _).mpr
    (List.head?_cons (a := '*') (l := t))
  have hsize : '/'.utf8Size = 1 ∧ '*'.utf8Size = 1 := ⟨rfl, rfl⟩
  rw [inertEnd_of_second hsecond, if_neg (by decide), if_pos rfl,
    bytesFrom?_second (by decide) (by decide), Option.map_some, findClosing?_bytes,
    splitBlockComment, length_bytes]
  refine congrArg (some ∘ some) ?_
  simp only [utf8Length_append, utf8Length_cons, hsize]
  cases cutAt? ['*', '/'] t with
  | none => rfl
  | some p =>
    have hmarks : utf8Length ['*', '/'] = 2 := rfl
    rw [Option.map_some, Option.elim_some, utf8Length_append, hmarks]
    omega

theorem inertEnd_slash (a t : Text) :
    inertEnd (bytes (a ++ '/' :: t)) (utf8Length a) =
      some ((inert? ('/' :: t)).map fun p ↦ utf8Length (a ++ p.1)) := by
  cases t with
  | nil =>
    rw [inertEnd, byteAt?_of_not_isWide (by decide)]
    dsimp only
    rw [if_neg (by decide), if_pos rfl, byteAt?_second (by decide)]
    rfl
  | cons d t =>
    by_cases hline : d = '/'
    · subst hline
      rw [inertEnd_line, inert?, Option.map_some]
    by_cases hblock : d = '*'
    · subst hblock
      rw [inertEnd_block, inert?, Option.map_some]
    obtain ⟨e, hbyte, heline, heblock⟩ :
        ∃ e, byteAt? (bytes (d :: t)) 0 = some e ∧ e ≠ '/' ∧ e ≠ '*' := by
      by_cases hd : IsWide d
      · obtain ⟨e, he, hwide⟩ := byteAt?_head_of_isWide hd [] t
        exact ⟨e, he, hwide.ne (by decide), hwide.ne (by decide)⟩
      · exact ⟨d, byteAt?_of_not_isWide hd [] t, hline, hblock⟩
    rw [inert?_slash hline hblock,
      inertEnd_of_second ((byteAt?_second (by decide) a _).trans hbyte), if_neg heline,
      if_neg heblock, Option.map_none]

/-- **The scan and the text agree**: a literal or comment begins at an offset when the rest of the
text begins with one, and it ends where that one ends. -/
theorem inertEnd_eq (a t : Text) :
    inertEnd (bytes (a ++ t)) (utf8Length a) =
      some ((inert? t).map fun p ↦ utf8Length (a ++ p.1)) := by
  cases t with
  | nil => rw [inertEnd, List.append_nil, byteAt?_end]; rfl
  | cons c t =>
    by_cases hquote : isQuote c = true
    · rw [inertEnd_quote hquote, inert?_of_isQuote hquote]
      rfl
    by_cases hslash : c = '/'
    · exact hslash ▸ inertEnd_slash a t
    rw [Script.inert?_eq_none (by simpa using hquote) hslash, Option.map_none]
    by_cases hwide : IsWide c
    · obtain ⟨d, hd, hdwide⟩ := byteAt?_head_of_isWide hwide a t
      exact inertEnd_wide hdwide hd
    · rw [inertEnd, byteAt?_of_not_isWide hwide]
      dsimp only
      rw [if_neg hquote, if_neg hslash]

theorem inertEnd_of_some (h : inert? t = some (lit, r)) (a : Text) :
    inertEnd (bytes (a ++ t)) (utf8Length a) = some (some (utf8Length (a ++ lit))) := by
  rw [inertEnd_eq, h, Option.map_some]

theorem inertEnd_of_none (h : inert? t = none) (a : Text) :
    inertEnd (bytes (a ++ t)) (utf8Length a) = some none := by
  rw [inertEnd_eq, h, Option.map_none]

/-- Where no literal and no comment begins, none begins in the middle of the character either. -/
theorem inertEnd_within (h : inert? (c :: s) = none) (a : Text) (hi : i < c.utf8Size) :
    inertEnd (bytes (a ++ c :: s)) (utf8Length a + i) = some none := by
  by_cases hc : IsWide c
  · obtain ⟨d, hd, hwide⟩ := byteAt?_of_isWide hc a s hi
    exact inertEnd_wide hwide hd
  · obtain rfl : i = 0 := by
      have := utf8Size_of_not_isWide hc
      omega
    exact inertEnd_of_none h a

/-- What the scan steps over is a literal or comment of the text. -/
theorem exists_of_inertEnd (h : inertEnd (bytes code) i = some (some j)) :
    ∃ a lit r, code = a ++ (lit ++ r) ∧ inert? (lit ++ r) = some (lit, r) ∧ i = utf8Length a ∧
      j = utf8Length (a ++ lit) := by
  obtain ⟨c, hbyte, hc⟩ : ∃ c, byteAt? (bytes code) i = some c ∧ ¬IsWide c := by
    cases hbyte : byteAt? (bytes code) i with
    | none => rw [inertEnd, hbyte] at h; cases h
    | some c =>
      refine ⟨c, rfl, fun hc ↦ ?_⟩
      rw [inertEnd_wide hc hbyte] at h
      cases h
  obtain ⟨a, s, rfl, rfl⟩ := exists_of_byteAt? hbyte hc
  rw [inertEnd_eq, Option.some_inj, Option.map_eq_some_iff] at h
  obtain ⟨⟨lit, r⟩, hinert, rfl⟩ := h
  have hsplit := inert?_append hinert
  exact ⟨a, lit, r, by rw [hsplit], hsplit.symm ▸ hinert, rfl, rfl⟩

/-- **A literal or comment begins and ends at boundaries.** -/
theorem isBoundary_of_inertEnd (h : inertEnd (bytes code) i = some (some j)) :
    IsBoundary code i ∧ IsBoundary code j := by
  obtain ⟨a, lit, r, rfl, -, rfl, rfl⟩ := exists_of_inertEnd h
  exact ⟨isBoundary_append a _, List.append_assoc a lit r ▸ isBoundary_append (a ++ lit) r⟩

end PluginPack.Offset
