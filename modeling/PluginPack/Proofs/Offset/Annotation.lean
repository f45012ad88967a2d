import PluginPack.Proofs.Offset.Literal
import PluginPack.Proofs.Text.Reading
import PluginPack.TypeSyntax.Annotation

/-!
# Annotations of variables by byte offsets

The loop that looks for the end of the annotation of a variable, and the one that goes back from
there over white space. The bytes before which they stop are ASCII, so the annotation ends between
two characters.
-/

namespace PluginPack.Offset

open Text Script TypeSyntax

/-- The bytes between two offsets. -/
def bytesBetween? (b : Bytes) (i j : Nat) : Checked Bytes :=
  if i ≤ j ∧ j ≤ b.length then some ((b.drop i).take (j - i)) else none

/-- Where the byte stands that ends an annotation. -/
def annotationStop (b : Bytes) (depth i : Nat) : Checked (Option Nat) :=
  match hbyte : byteAt? b i with
  | none => some none
  | some c =>
    have := lt_of_byteAt? hbyte
    if c = '=' ∧ byteAt? b (i + 1) = some '>' then annotationStop b depth (i + 2)
    else if opensNesting c then annotationStop b (depth + 1) (i + 1)
    else if closesNesting c then
      if depth = 0 then some none else annotationStop b (depth - 1) (i + 1)
    else if endsAnnotation c && depth == 0 then some (some i)
    else annotationStop b depth (i + 1)
termination_by b.length - i
decreasing_by all_goals omega

/-- Goes back over white space, at most to the offset `start`. -/
def trimBack (b : Bytes) (start stop : Nat) : Checked Nat := do
  if start < stop then
    let c ← byteAt? b (stop - 1)
    if isAsciiWhite c then trimBack b start (stop - 1) else return stop
  else return stop
termination_by stop
decreasing_by omega

/-- Where the annotation ends that begins at an offset. -/
def annotationEnd (b : Bytes) (start : Nat) : Checked (Option Nat) := do
  match ← annotationStop b 0 start with
  | none => return none
  | some stop =>
    let trimmed ← trimBack b start stop
    let type ← bytesBetween? b start trimmed
    return if type.any fun u ↦ !isAsciiWhite (Char.ofUInt8 u) then some trimmed else none

variable {a s t w code : Text} {c d : Char} {i j k depth start stop : Nat} {bs : Bytes}

namespace IsWide

variable (h : IsWide c)
include h

theorem endsAnnotation : endsAnnotation c = false := by
  simp [TypeSyntax.endsAnnotation, h.ne (d := '=') (by decide), h.ne (d := ';') (by decide),
    h.ne (d := ',') (by decide), h.ne (d := '\n') (by decide)]

end IsWide

/-! ## All bytes -/

theorem annotationStop_end (h : byteAt? bs i = none) : annotationStop bs depth i = some none := by
  rw [annotationStop]
  split <;> simp_all

theorem annotationStop_byte (h : byteAt? bs i = some c) :
    annotationStop bs depth i =
      if c = '=' ∧ byteAt? bs (i + 1) = some '>' then annotationStop bs depth (i + 2)
      else if opensNesting c then annotationStop bs (depth + 1) (i + 1)
      else if closesNesting c then
        if depth = 0 then some none else annotationStop bs (depth - 1) (i + 1)
      else if endsAnnotation c && depth == 0 then some (some i)
      else annotationStop bs depth (i + 1) := by
  rw [annotationStop]
  split <;> simp_all

theorem exists_annotationStop (bs : Bytes) (depth i : Nat) :
    ∃ r, annotationStop bs depth i = some r ∧ ∀ j ∈ r, i ≤ j ∧ IsMark bs j := by
  induction hn : bs.length - i using Nat.strongRecOn generalizing depth i with
  | ind n ih =>
    subst hn
    cases hbyte : byteAt? bs i with
    | none => exact ⟨none, annotationStop_end hbyte, by simp⟩
    | some c =>
      have hi := lt_of_byteAt? hbyte
      have hlater {j : Nat} (depth : Nat) (hij : i < j) : ∃ r,
          annotationStop bs depth j = some r ∧ ∀ k ∈ r, i ≤ k ∧ IsMark bs k := by
        obtain ⟨r, hr, hmark⟩ := ih (bs.length - j) (by omega) depth j rfl
        exact ⟨r, hr, fun k hk ↦ ⟨hij.le.trans (hmark k hk).1, (hmark k hk).2⟩⟩
      rw [annotationStop_byte hbyte]
      split_ifs with harrow hopens hcloses hzero hends
      · exact hlater _ (by omega)
      · exact hlater _ (Nat.lt_succ_self i)
      · exact ⟨none, rfl, by simp⟩
      · exact hlater _ (Nat.lt_succ_self i)
      · refine ⟨some i, rfl, fun j hj ↦ ?_⟩
        cases hj
        exact ⟨le_rfl, c, hbyte, fun hc ↦ by simp [hc.endsAnnotation] at hends⟩
      · exact hlater _ (Nat.lt_succ_self i)

theorem exists_trimBack (hle : start ≤ stop) (hstop : IsMark bs stop) :
    ∃ j, trimBack bs start stop = some j ∧ start ≤ j ∧ IsMark bs j := by
  induction stop with
  | zero => exact ⟨0, by rw [trimBack, if_neg (Nat.not_lt_zero start)]; rfl, hle, hstop⟩
  | succ stop ih =>
    rw [trimBack]
    split
    · rename_i hlt
      obtain ⟨c, hbyte⟩ := exists_byteAt? (Nat.lt_of_succ_lt hstop.lt)
      simp only [Nat.add_sub_cancel, hbyte, Option.bind_eq_bind, Option.bind_some]
      split
      · rename_i hwhite
        exact ih (Nat.le_of_lt_succ hlt) ⟨c, hbyte, fun hc ↦ by simp [hc.isAsciiWhite] at hwhite⟩
      · exact ⟨_, rfl, hle, hstop⟩
    · exact ⟨_, rfl, hle, hstop⟩

/-- **The end of an annotation** is found in any bytes, behind the beginning of the annotation. -/
theorem exists_annotationEnd (bs : Bytes) (i : Nat) :
    ∃ r, annotationEnd bs i = some r ∧ ∀ j ∈ r, i < j ∧ IsMark bs j := by
  obtain ⟨r, hr, hmark⟩ := exists_annotationStop bs 0 i
  rw [annotationEnd, hr]
  cases r with
  | none => exact ⟨none, rfl, by simp⟩
  | some stop =>
    obtain ⟨hle, hstop⟩ := hmark stop rfl
    obtain ⟨j, hj, hij, hjmark⟩ := exists_trimBack hle hstop
    simp only [hj, Option.bind_eq_bind, Option.bind_some, bytesBetween?,
      if_pos (And.intro hij hjmark.lt.le)]
    refine ⟨_, rfl, fun k hk ↦ ?_⟩
    split at hk
    · rename_i hany
      cases hk
      refine ⟨Nat.lt_of_le_of_ne hij fun heq ↦ ?_, hjmark⟩
      subst heq
      simp at hany
    · cases hk

/-! ## Annotations of a text -/

theorem annotationStop_wide (h : byteAt? bs i = some c) (hc : IsWide c) :
    annotationStop bs depth i = annotationStop bs depth (i + 1) := by
  rw [annotationStop_byte h, if_neg fun heq ↦ hc.ne (by decide) heq.1, hc.opensNesting,
    hc.closesNesting, hc.endsAnnotation]
  rfl

theorem annotationStop_arrow (depth : Nat) (a t : Text) :
    annotationStop (bytes (a ++ '=' :: '>' :: t)) depth (utf8Length a) =
      annotationStop (bytes (a ++ ['=', '>'] ++ t)) depth (utf8Length (a ++ ['=', '>'])) := by
  have harrow := (byteAt?_second_eq_some_iff (c := '=') (d := '>') (by decide) (by decide) a
    ('>' :: t)).mpr rfl
  rw [annotationStop_byte (byteAt?_of_not_isWide (by decide) a _), if_pos ⟨rfl, harrow⟩]
  simp [show '='.utf8Size = 1 from rfl, show '>'.utf8Size = 1 from rfl]

/-- The loop at a character that is not wide. -/
theorem annotationStop_char (hc : ¬IsWide c) (harrow : ¬(c = '=' ∧ t.head? = some '>'))
    (depth : Nat) (a : Text) :
    annotationStop (bytes (a ++ c :: t)) depth (utf8Length a) =
      if opensNesting c then
        annotationStop (bytes (a ++ [c] ++ t)) (depth + 1) (utf8Length (a ++ [c]))
      else if closesNesting c then
        if depth = 0 then some none
        else annotationStop (bytes (a ++ [c] ++ t)) (depth - 1) (utf8Length (a ++ [c]))
      else if endsAnnotation c && depth == 0 then some (some (utf8Length a))
      else annotationStop (bytes (a ++ [c] ++ t)) depth (utf8Length (a ++ [c])) := by
  rw [← byteAt?_second_eq_some_iff hc (by decide) a] at harrow
  rw [annotationStop_byte (byteAt?_of_not_isWide hc a t), if_neg harrow, utf8Length_concat hc,
    ← List.append_cons]

/-- **The loop and the text agree** on what ends the annotation. -/
theorem annotationStop_eq (depth : Nat) (a t : Text) :
    annotationStop (bytes (a ++ t)) depth (utf8Length a) =
      some ((annotation? depth t).map fun type ↦ utf8Length (a ++ type)) := by
  have hmap (a w : Text) (x : Option Text) : ((x.map (w ++ ·)).map fun type ↦
      utf8Length (a ++ type)) = x.map fun type ↦ utf8Length (a ++ w ++ type) := by
    simp [Function.comp_def]
  fun_induction annotation? depth t generalizing a with
  | case1 => rw [annotationStop_end (by rw [List.append_nil, byteAt?_end]), Option.map_none]
  | case2 depth r ih =>
    rw [annotationStop_arrow, ih, ← hmap]
    rfl
  | case3 depth c r hne hopens ih =>
    rw [annotationStop_char (fun hc ↦ by simp [hc.opensNesting] at hopens)
      (not_arrow_of_forall hne), if_pos hopens, ih, ← hmap]
    rfl
  | case4 c r hne hopens hcloses =>
    rw [annotationStop_char (fun hc ↦ by simp [hc.closesNesting] at hcloses)
      (not_arrow_of_forall hne), if_neg hopens, if_pos hcloses, if_pos rfl, Option.map_none]
  | case5 depth c r hne hopens hcloses hzero ih =>
    rw [annotationStop_char (fun hc ↦ by simp [hc.closesNesting] at hcloses)
      (not_arrow_of_forall hne), if_neg hopens, if_pos hcloses, if_neg hzero, ih, ← hmap]
    rfl
  | case6 depth c r hne hopens hcloses hends =>
    rw [annotationStop_char (fun hc ↦ by simp [hc.endsAnnotation] at hends)
      (not_arrow_of_forall hne), if_neg hopens, if_neg hcloses, if_pos hends, Option.map_some,
      List.append_nil]
  | case7 depth c r hne hopens hcloses hends ih =>
    have hnext := ih (a ++ [c])
    rw [← hmap, ← List.append_cons] at hnext
    refine Eq.trans ?_ hnext
    by_cases hc : IsWide c
    · exact scan_wide hc rfl fun i d ↦ annotationStop_wide
    · rw [annotationStop_char hc (not_arrow_of_forall hne), if_neg hopens, if_neg hcloses,
        if_neg hends, ← List.append_cons]

/-- The last byte of a character is white space when the character is. -/
theorem exists_byteAt?_last (a : Text) (c : Char) (s : Text) :
    ∃ d, byteAt? (bytes (a ++ c :: s)) (utf8Length (a ++ [c]) - 1) = some d ∧
      isAsciiWhite d = isAsciiWhite c := by
  by_cases hc : IsWide c
  · have hpos := c.utf8Size_pos
    obtain ⟨d, hd, hwide⟩ := byteAt?_of_isWide hc a s (i := c.utf8Size - 1) (by omega)
    refine ⟨d, ?_, hwide.isAsciiWhite.trans hc.isAsciiWhite.symm⟩
    rwa [utf8Length_append, utf8Length_cons, utf8Length_nil, Nat.add_zero, Nat.add_sub_assoc hpos]
  · exact ⟨c, by rw [utf8Length_concat hc, Nat.add_sub_cancel, byteAt?_of_not_isWide hc], rfl⟩

/-- The text without the white space it ends in. -/
def trimAsciiEnd (t : Text) : Text := (t.reverse.dropWhile isAsciiWhite).reverse

theorem trimAsciiEnd_concat (t : Text) (c : Char) :
    trimAsciiEnd (t ++ [c]) = if isAsciiWhite c then trimAsciiEnd t else t ++ [c] := by
  rw [trimAsciiEnd, List.reverse_append, List.reverse_singleton, List.singleton_append,
    List.dropWhile_cons]
  split
  · rfl
  · simp

theorem trimBack_eq (a t s : Text) :
    trimBack (bytes (a ++ t ++ s)) (utf8Length a) (utf8Length (a ++ t)) =
      some (utf8Length (a ++ trimAsciiEnd t)) := by
  induction t using List.reverseRecOn generalizing s with
  | nil =>
    rw [trimBack, List.append_nil, if_neg (Nat.lt_irrefl _)]
    exact congrArg (fun t ↦ some (utf8Length t)) (List.append_nil a).symm
  | append_singleton t c ih =>
    obtain ⟨d, hbyte, hwhite⟩ := exists_byteAt?_last (a ++ t) c s
    have hlt : utf8Length a < utf8Length (a ++ t ++ [c]) := by
      have := c.utf8Size_pos
      simp only [utf8Length_append, utf8Length_cons]
      omega
    rw [List.append_cons] at hbyte
    rw [trimAsciiEnd_concat, ← List.append_assoc, trimBack, if_pos hlt, hbyte]
    simp only [Option.bind_eq_bind, Option.bind_some, hwhite]
    split
    · rename_i hc
      have hnarrow : ¬IsWide c := fun hwide ↦ by simp [hwide.isAsciiWhite] at hc
      rw [utf8Length_concat hnarrow, Nat.add_sub_cancel, ← List.append_cons]
      exact ih (c :: s)
    · exact congrArg (fun t ↦ some (utf8Length t)) (List.append_assoc a t [c])

theorem trimAsciiEnd_isPrefix (t : Text) : trimAsciiEnd t <+: t := by
  rw [← List.reverse_suffix, trimAsciiEnd, List.reverse_reverse]
  exact List.dropWhile_suffix _

theorem bytesBetween?_append (a w s : Text) :
    bytesBetween? (bytes (a ++ w ++ s)) (utf8Length a) (utf8Length (a ++ w)) = some (bytes w) := by
  rw [bytesBetween?, if_pos (by simp), bytes_append, bytes_append, List.append_assoc,
    ← length_bytes a, List.drop_left, ← length_bytes, bytes_append, List.length_append,
    Nat.add_sub_cancel_left, List.take_left]

/-- Something but white space is left of a text exactly when something is left. -/
theorem any_bytes_trimAsciiEnd (t : Text) :
    ((bytes (trimAsciiEnd t)).any fun u ↦ !isAsciiWhite (Char.ofUInt8 u)) =
      !(trimAsciiEnd t).isEmpty := by
  induction t using List.reverseRecOn with
  | nil => rfl
  | append_singleton t c ih =>
    rw [trimAsciiEnd_concat]
    split
    · exact ih
    · rename_i hc
      obtain ⟨d, hbyte, hwhite⟩ := exists_byteAt?_last t c []
      obtain ⟨u, hu, rfl⟩ := Option.map_eq_some_iff.mp hbyte
      rw [List.any_eq_true.mpr ⟨u, List.mem_of_getElem? hu, by simp [hwhite, hc]⟩]
      simp

/-- **The end of the annotation** is where it ends in the text. -/
theorem annotationEnd_eq (a t : Text) :
    annotationEnd (bytes (a ++ t)) (utf8Length a) =
      some ((afterAnnotation? t).map fun r ↦ utf8Length (a ++ Marker.consumed t r)) := by
  rw [annotationEnd, annotationStop_eq, afterAnnotation?]
  cases htype : annotation? 0 t with
  | none => rfl
  | some type =>
    obtain ⟨s, rfl⟩ := annotation?_isPrefix htype
    obtain ⟨white, hkept⟩ := trimAsciiEnd_isPrefix type
    have htrim := trimBack_eq a type s
    have htype := bytesBetween?_append a (trimAsciiEnd type) (white ++ s)
    rw [List.append_assoc, ← List.append_assoc _ white, hkept] at htype
    rw [List.append_assoc] at htrim
    simp only [Option.map_some, Option.bind_some, Option.bind_eq_bind, htrim, htype,
      any_bytes_trimAsciiEnd]
    cases hback : type.reverse.dropWhile isAsciiWhite with
    | nil =>
      rw [trimAsciiEnd, hback]
      rfl
    | cons c k =>
      have htrimmed : trimAsciiEnd type = (c :: k).reverse := congrArg List.reverse hback
      have hsplit : type ++ s = trimAsciiEnd type ++ (white ++ s) := by
        rw [← List.append_assoc, hkept]
      have hdrop : (type ++ s).drop (c :: k).length = white ++ s := by
        rw [hsplit, htrimmed, ← List.length_reverse, List.drop_left]
      dsimp only
      rw [hdrop, hsplit, Option.map_some, Marker.consumed_left, if_pos (by simp [htrimmed])]
      rfl

end PluginPack.Offset
