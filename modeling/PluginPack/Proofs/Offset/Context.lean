import PluginPack.Proofs.Offset.Literal
import PluginPack.Proofs.TypeSyntax.Arrival

/-!
# The surroundings of a parameter list by byte offsets

What is read behind the closing parenthesis of a list, up to the body or arrow, and what is read
back from its opening parenthesis: a list of type parameters, byte by byte, and the words in front
of it. All offsets that are handed on lie between two characters.
-/

namespace PluginPack.Offset

open Text Script TypeSyntax

/-! ## Behind the parameters -/

/-- Where a return type ends, from an offset on, and what stands there. -/
def returnTypeFrom (b : Bytes) (depth i : Nat) : Checked (Option (Nat × Follow)) :=
  match hbyte : byteAt? b i with
  | none => some none
  | some c =>
    have := lt_of_byteAt? hbyte
    if c = '=' ∧ byteAt? b (i + 1) = some '>' then
      if depth = 0 then some (some (i, .arrow)) else returnTypeFrom b depth (i + 2)
    else if c = '"' ∨ c = '\'' then
      match hinert : inertEnd b i with
      | none => none
      | some none => some none
      | some (some next) =>
        have := lt_of_inertEnd hinert
        returnTypeFrom b depth next
    else if c = '{' ∧ depth = 0 then some (some (i, .body))
    else if opensNesting c then returnTypeFrom b (depth + 1) (i + 1)
    else if closesNesting c then
      if depth = 0 then some none else returnTypeFrom b (depth - 1) (i + 1)
    else if depth = 0 ∧ ¬isReturnTypeChar c then some none
    else returnTypeFrom b depth (i + 1)
termination_by b.length - i
decreasing_by all_goals omega

/-- What follows the closing parenthesis at an offset, and from where to where a return type is to
be removed. -/
def tail (code : Text) (close : Nat) : Checked (Option (Follow × Option (Nat × Nat))) := do
  let rest ← slice? code (close + 1) (utf8Length code)
  let trimmed := trimStart rest
  let colon := close + 1 + (utf8Length rest - utf8Length trimmed)
  if ['=', '>'] <+: trimmed then return some (.arrow, none)
  else if ['{'] <+: trimmed then return some (.body, none)
  else if ¬[':'] <+: trimmed then return none
  else
    match ← returnTypeFrom (bytes code) 0 (colon + 1) with
    | none => return none
    | some (stop, follow) =>
      let annotation := trimEnd (← slice? code (colon + 1) stop)
      if (trimStart annotation).isEmpty then return none
      else return some (follow, some (colon, colon + 1 + utf8Length annotation))

theorem lt_of_tail {code : Text} {close : Nat} {follow : Follow} {span : Nat × Nat}
    (h : tail code close = some (some (follow, some span))) : close < span.2 := by
  unfold tail at h
  obtain ⟨rest, -, h⟩ := Option.bind_eq_some_iff.mp h
  dsimp only at h
  split_ifs at h
  · cases h
  · cases h
  · obtain ⟨r, -, h⟩ := Option.bind_eq_some_iff.mp h
    rcases r with _ | ⟨stop, follow⟩
    · cases h
    · obtain ⟨type, -, h⟩ := Option.bind_eq_some_iff.mp h
      split_ifs at h
      · cases h
      · cases h
        dsimp only
        omega
  · cases h

/-! ## Before the parameters -/

/-- Goes back from an offset to the angle bracket that opens a list of type parameters. -/
def openAngleBelow (b : Bytes) (depth : Nat) : Nat → Checked (Option Nat)
  | 0 => some none
  | i + 1 => do
    let c ← byteAt? b i
    if c = '>' then openAngleBelow b (depth + 1) i
    else if c = '<' then
      if depth = 0 then return none
      else if depth = 1 then return some i
      else openAngleBelow b (depth - 1) i
    else if c = ';' ∨ c = '{' ∨ c = '}' ∨ c = '(' ∨ c = ')' ∨ c = '=' ∨ c = '\n' then return none
    else openAngleBelow b depth i

/-- Where the list of type parameters begins that stands right before an offset. -/
def typeParameters (code : Text) (opening : Nat) : Checked (Option Nat) := do
  let head := trimEnd (← slice? code 0 opening)
  if ¬['>'] <:+ head ∨ ['=', '>'] <:+ head then return none
  else openAngleBelow (bytes head) 0 (bytes head).length

/-- The word right before an offset, and where it begins. -/
def wordBefore (code : Text) (stop : Nat) : Checked (Option (Nat × Text)) := do
  let head := trimEnd (← slice? code 0 stop)
  let isPart := fun c ↦ isAlphanumeric c || c == '_' || c == '$'
  let start := utf8Length (head.rdropWhile isPart)
  let word ← slice? head start (utf8Length head)
  return if word.isEmpty then none else some (start, word)

/-- What stands before an offset. -/
def contextBefore (code : Text) (stop : Nat) : Checked Context := do
  match ← wordBefore code stop with
  | none => return .other
  | some (start, word) =>
    if word = "function".toList then return .function
    else if controlKeywords.contains word then return .keyword
    else
      match ← wordBefore code start with
      | none => return .name
      | some (_, word) => return if word = "function".toList then .function else .name

variable {a s t w code : Text} {c : Char} {i j depth : Nat} {bs : Bytes}

/-! ## Return types -/

theorem IsWide.isReturnTypeChar (h : IsWide c) : isReturnTypeChar c = false := by
  have halnum : isAsciiAlphanumeric c = false :=
    Bool.eq_false_iff.mpr fun halnum ↦ Nat.not_lt.mpr h (toNat_lt_of_isAlphanum halnum)
  simp [TypeSyntax.isReturnTypeChar, halnum, h.ne (d := '_') (by decide),
    h.ne (d := '$') (by decide), h.ne (d := '.') (by decide), h.ne (d := ',') (by decide),
    h.ne (d := '|') (by decide), h.ne (d := '&') (by decide), h.ne (d := '?') (by decide),
    h.ne (d := ' ') (by decide), h.ne (d := '\t') (by decide)]

theorem returnTypeFrom_end (h : byteAt? bs i = none) : returnTypeFrom bs depth i = some none := by
  rw [returnTypeFrom]
  split <;> simp_all

theorem returnTypeFrom_byte (h : byteAt? bs i = some c) :
    returnTypeFrom bs depth i =
      if c = '=' ∧ byteAt? bs (i + 1) = some '>' then
        if depth = 0 then some (some (i, .arrow)) else returnTypeFrom bs depth (i + 2)
      else if c = '"' ∨ c = '\'' then
        (inertEnd bs i).bind fun r ↦ r.elim (some none) (returnTypeFrom bs depth)
      else if c = '{' ∧ depth = 0 then some (some (i, .body))
      else if opensNesting c then returnTypeFrom bs (depth + 1) (i + 1)
      else if closesNesting c then
        if depth = 0 then some none else returnTypeFrom bs (depth - 1) (i + 1)
      else if depth = 0 ∧ ¬isReturnTypeChar c then some none
      else returnTypeFrom bs depth (i + 1) := by
  rw [returnTypeFrom]
  split
  · simp_all
  · next d hd =>
    cases h.symm.trans hd
    split_ifs
    all_goals try rfl
    split <;> simp_all

/-- The loop at a wide byte. -/
theorem returnTypeFrom_wide (h : byteAt? bs i = some c) (hc : IsWide c) :
    returnTypeFrom bs depth i =
      if depth = 0 then some none else returnTypeFrom bs depth (i + 1) := by
  rw [returnTypeFrom_byte h, if_neg fun heq ↦ hc.ne (by decide) heq.1,
    if_neg fun heq ↦ heq.elim (hc.ne (by decide)) (hc.ne (by decide)),
    if_neg fun heq ↦ hc.ne (by decide) heq.1, hc.opensNesting, hc.closesNesting,
    hc.isReturnTypeChar]
  simp

/-- The loop at a character that is not wide. -/
theorem returnTypeFrom_char (hc : ¬IsWide c) (hcode : code = a ++ c :: s) :
    returnTypeFrom (bytes code) depth (utf8Length a) =
      if c = '=' ∧ s.head? = some '>' then
        if depth = 0 then some (some (utf8Length a, .arrow))
        else returnTypeFrom (bytes code) depth (utf8Length (a ++ [c, '>']))
      else if c = '"' ∨ c = '\'' then
        returnTypeFrom (bytes code) depth (utf8Length (a ++ c :: (splitQuoted c s).1))
      else if c = '{' ∧ depth = 0 then some (some (utf8Length a, .body))
      else if opensNesting c then
        returnTypeFrom (bytes code) (depth + 1) (utf8Length (a ++ [c]))
      else if closesNesting c then
        if depth = 0 then some none
        else returnTypeFrom (bytes code) (depth - 1) (utf8Length (a ++ [c]))
      else if depth = 0 ∧ ¬isReturnTypeChar c then some none
      else returnTypeFrom (bytes code) depth (utf8Length (a ++ [c])) := by
  subst hcode
  have harrow : utf8Length (a ++ [c, '>']) = utf8Length a + 2 := by
    simp [utf8Size_of_not_isWide hc, show '>'.utf8Size = 1 from rfl]
  rw [returnTypeFrom_byte (byteAt?_of_not_isWide hc a s), utf8Length_concat hc, harrow]
  simp only [byteAt?_second_eq_some_iff hc (d := '>') (by decide)]
  split_ifs with _ _ hquote
  all_goals try rfl
  rw [inertEnd_quote (by rcases hquote with rfl | rfl <;> rfl)]
  rfl

/-- **The loop and the text agree** on the return type. -/
theorem returnTypeFrom_eq (depth : Nat) (hcode : code = a ++ t) :
    returnTypeFrom (bytes code) depth (utf8Length a) =
      some ((returnType? depth t).map fun p ↦ (utf8Length (a ++ p.1), p.2)) := by
  have hmap (a w : Text) (x : Option (Text × Follow)) :
      ((x.map fun p ↦ (w ++ p.1, p.2)).map fun p ↦ (utf8Length (a ++ p.1), p.2)) =
        x.map fun p ↦ (utf8Length (a ++ w ++ p.1), p.2) := by
    simp [Function.comp_def]
  fun_induction returnType? depth t generalizing a with
  | case1 => rw [returnTypeFrom_end (by rw [hcode, List.append_nil, byteAt?_end]), Option.map_none]
  | case2 c s harrow =>
    rw [returnTypeFrom_char (by rw [harrow.1]; decide) hcode, if_pos harrow, if_pos rfl,
      Option.map_some, List.append_nil]
  | case3 depth c s harrow hdepth ih =>
    obtain ⟨s, rfl⟩ := List.head?_eq_some_iff.mp harrow.2
    rw [returnTypeFrom_char (by rw [harrow.1]; decide) hcode, if_pos harrow, if_neg hdepth,
      ih (by simp [hcode]), ← hmap]
    rfl
  | case4 depth c s harrow hquote ih =>
    have hsplit := splitQuoted_append c s
    rw [returnTypeFrom_char (by rcases hquote with rfl | rfl <;> decide) hcode, if_neg harrow,
      if_pos hquote, ih (by simp [hcode, hsplit]), ← hmap]
  | case5 depth c s harrow hquote hbody =>
    rw [returnTypeFrom_char (by rw [hbody.1]; decide) hcode, if_neg harrow, if_neg hquote,
      if_pos hbody, Option.map_some, List.append_nil]
  | case6 depth c s harrow hquote hbody hopens ih =>
    rw [returnTypeFrom_char (fun hc ↦ by simp [hc.opensNesting] at hopens) hcode, if_neg harrow,
      if_neg hquote, if_neg hbody, if_pos hopens, ih (by simp [hcode]), ← hmap]
    rfl
  | case7 c s harrow hquote hopens hcloses hbody =>
    rw [returnTypeFrom_char (fun hc ↦ by simp [hc.closesNesting] at hcloses) hcode, if_neg harrow,
      if_neg hquote, if_neg fun h ↦ hbody ⟨h.1, rfl⟩, if_neg hopens, if_pos hcloses, if_pos rfl,
      Option.map_none]
  | case8 depth c s harrow hquote hbody hopens hcloses hdepth ih =>
    rw [returnTypeFrom_char (fun hc ↦ by simp [hc.closesNesting] at hcloses) hcode, if_neg harrow,
      if_neg hquote, if_neg hbody, if_neg hopens, if_pos hcloses, if_neg hdepth,
      ih (by simp [hcode]), ← hmap]
    rfl
  | case9 depth c s harrow hquote hbody hopens hcloses hends =>
    by_cases hc : IsWide c
    · obtain ⟨d, hbyte, hwide⟩ := byteAt?_head_of_isWide hc a s
      rw [returnTypeFrom_wide (hcode ▸ hbyte) hwide, if_pos hends.1, Option.map_none]
    · rw [returnTypeFrom_char hc hcode, if_neg harrow, if_neg hquote, if_neg hbody, if_neg hopens,
        if_neg hcloses, if_pos hends, Option.map_none]
  | case10 depth c s harrow hquote hbody hopens hcloses hends ih =>
    have hnext := ih (a := a ++ [c]) (by simp [hcode])
    rw [← hmap] at hnext
    refine Eq.trans ?_ hnext
    by_cases hc : IsWide c
    · have hdepth : depth ≠ 0 := fun hzero ↦ hends ⟨hzero, by simp [hc.isReturnTypeChar]⟩
      refine scan_wide hc hcode fun i d hbyte hwide ↦ ?_
      rw [returnTypeFrom_wide hbyte hwide, if_neg hdepth]
    · rw [returnTypeFrom_char hc hcode, if_neg harrow, if_neg hquote, if_neg hbody, if_neg hopens,
        if_neg hcloses, if_neg hends]

/-! ## What follows the parameters -/

/-- Where a return type stands behind the closing parenthesis at the end of a text. -/
def returnSpan (a t : Text) (x : Tail) : Option (Nat × Nat) :=
  if x.width = 0 then none
  else some (utf8Length (a ++ x.gap), utf8Length (a ++ t.take x.width))

theorem slice?_behind (hc : ¬IsWide c) (hcode : code = a ++ c :: t) :
    slice? code (utf8Length a + 1) (utf8Length code) = some t := by
  have hslice := slice?_end (a ++ [c]) t
  rwa [utf8Length_concat hc, ← List.append_cons, ← hcode] at hslice

/-- The text behind a parenthesis is read from the first character on that is not white space. -/
theorem tail_of_trimStart (hcode : code = a ++ ')' :: t) :
    tail code (utf8Length a) =
      if ['=', '>'] <+: trimStart t then some (some (.arrow, none))
      else if ['{'] <+: trimStart t then some (some (.body, none))
      else if ¬[':'] <+: trimStart t then some none
      else
        let colon := utf8Length (a ++ [')'] ++ t.takeWhile isWhite)
        (returnTypeFrom (bytes code) 0 (colon + 1)).bind fun r ↦ r.elim (some none) fun p ↦
          (slice? code (colon + 1) p.1).map fun type ↦
            if (trim type).isEmpty then none
            else some (p.2, some (colon, colon + 1 + utf8Length (trimEnd type))) := by
  have hcolon : utf8Length a + 1 + (utf8Length t - utf8Length (trimStart t)) =
      utf8Length (a ++ [')'] ++ t.takeWhile isWhite) := by
    have hsplit := congrArg utf8Length (List.takeWhile_append_dropWhile (p := isWhite) (l := t))
    rw [utf8Length_append] at hsplit
    rw [utf8Length_append, utf8Length_concat (by decide), ← hsplit, trimStart,
      Nat.add_sub_cancel]
  rw [tail, slice?_behind (by decide) hcode]
  simp only [Option.bind_eq_bind, Option.bind_some, hcolon]
  split_ifs
  all_goals try rfl
  rcases returnTypeFrom (bytes code) 0 _ with _ | _ | ⟨stop, follow⟩
  · rfl
  · rfl
  · simp only [Option.bind_some, Option.elim_some, trimStart_trimEnd]
    cases slice? code _ stop with
    | none => rfl
    | some type =>
      simp only [Option.bind_some, Option.map_some]
      split_ifs <;> rfl

/-- A return type reaches from its colon to its last character that is not white space. -/
theorem take_annotation (type s : Text) (h : trimStart t = ':' :: (type ++ s)) :
    t.take ((t.takeWhile isWhite).length + 1 + (trimEnd type).length) =
      t.takeWhile isWhite ++ ':' :: trimEnd type := by
  obtain ⟨w, hw⟩ := trimEnd_isPrefix type
  have hfull : t = t.takeWhile isWhite ++ ':' :: trimEnd type ++ (w ++ s) := by
    conv_lhs =>
      rw [← List.takeWhile_append_dropWhile (p := isWhite) (l := t), ← trimStart, h, ← hw]
    simp
  have hleft := @List.take_left Char (t.takeWhile isWhite ++ ':' :: trimEnd type) (w ++ s)
  rwa [← hfull, List.length_append, List.length_cons, Nat.add_comm _ 1, ← Nat.add_assoc] at hleft

theorem tail_eq (hcode : code = a ++ ')' :: t) :
    tail code (utf8Length a) =
      some ((tail? t).map fun x ↦ (x.follow, returnSpan (a ++ [')']) t x)) := by
  rw [tail_of_trimStart hcode, tail?]
  by_cases harrow : ['=', '>'] <+: trimStart t
  · obtain ⟨r, hr⟩ := harrow
    rw [← hr, if_pos (List.prefix_append _ _)]
    rfl
  by_cases hbrace : ['{'] <+: trimStart t
  · obtain ⟨r, hr⟩ := hbrace
    rw [← hr, if_neg (by simp), if_pos (List.prefix_append _ _)]
    rfl
  by_cases hcolon : [':'] <+: trimStart t
  · obtain ⟨r, hr⟩ := hcolon
    have hsplit : t = t.takeWhile isWhite ++ ':' :: r := by
      rw [← List.singleton_append, hr, trimStart, List.takeWhile_append_dropWhile]
    have hread : code = a ++ [')'] ++ t.takeWhile isWhite ++ [':'] ++ r := by
      rw [hcode, ← List.append_cons, List.append_assoc _ _ (':' :: r), ← hsplit, List.append_cons]
    have htype := returnTypeFrom_eq 0 hread
    rw [if_neg harrow, if_neg hbrace, if_neg (not_not.mpr ⟨r, hr⟩), ← hr]
    rw [utf8Length_concat (by decide)] at htype
    simp only [htype, List.singleton_append, Option.bind_some]
    cases htype : returnType? 0 r with
    | none => rfl
    | some p =>
      obtain ⟨type, follow⟩ := p
      obtain ⟨s, rfl⟩ := returnType?_isPrefix htype
      have hslice := slice?_append (a ++ [')'] ++ t.takeWhile isWhite ++ [':']) type s
      rw [List.append_assoc _ type, ← hread, utf8Length_concat (by decide)] at hslice
      rw [Option.map_some, Option.elim_some, hslice, Option.map_some, Option.bind_some]
      dsimp only
      split
      · rfl
      · rw [Option.map_some, returnSpan, if_neg (by simp), take_annotation type s hr.symm]
        simp [Nat.add_assoc, show ':'.utf8Size = 1 from rfl]
  · rw [if_neg harrow, if_neg hbrace, if_pos hcolon]
    split
    · rename_i heq
      exact absurd ⟨_, heq.symm⟩ harrow
    · rename_i heq
      exact absurd ⟨_, heq.symm⟩ hbrace
    · rename_i heq
      exact absurd ⟨_, heq.symm⟩ hcolon
    · rfl

/-! ## What stands before the parameters -/

/-- A character that no list of type parameters holds. -/
theorem openAngleBelow_wide (h : byteAt? bs i = some c) (hc : IsWide c) :
    openAngleBelow bs depth (i + 1) = openAngleBelow bs depth i := by
  rw [openAngleBelow, h]
  simp only [Option.bind_eq_bind, Option.bind_some]
  rw [if_neg (hc.ne (by decide)), if_neg (hc.ne (by decide)), if_neg]
  rintro (h | h | h | h | h | h | h) <;> exact hc.ne (by decide) h

theorem openAngleBelow_char (hc : ¬IsWide c) (depth : Nat) (a s : Text) :
    openAngleBelow (bytes (a ++ c :: s)) depth (utf8Length (a ++ [c])) =
      if c = '>' then openAngleBelow (bytes (a ++ c :: s)) (depth + 1) (utf8Length a)
      else if c = '<' then
        if depth = 0 then some none
        else if depth = 1 then some (some (utf8Length a))
        else openAngleBelow (bytes (a ++ c :: s)) (depth - 1) (utf8Length a)
      else if c = ';' ∨ c = '{' ∨ c = '}' ∨ c = '(' ∨ c = ')' ∨ c = '=' ∨ c = '\n' then some none
      else openAngleBelow (bytes (a ++ c :: s)) depth (utf8Length a) := by
  rw [utf8Length_concat hc, openAngleBelow, byteAt?_of_not_isWide hc]
  rfl

/-- **The way back and the text agree** on the angle bracket. -/
theorem openAngleBelow_eq (hdepth : 0 < depth) (t s : Text) :
    openAngleBelow (bytes (t.reverse ++ s)) depth (utf8Length t.reverse) =
      some ((openAngle? depth t).map fun r ↦ utf8Length r.reverse) := by
  fun_induction openAngle? depth t generalizing s with
  | case1 => rfl
  | case2 depth r ih =>
    rw [List.reverse_cons, ← List.append_cons, openAngleBelow_char (by decide), if_pos rfl,
      ih (Nat.succ_pos depth)]
  | case3 depth r hone =>
    rw [List.reverse_cons, ← List.append_cons, openAngleBelow_char (by decide),
      if_neg (by decide), if_pos rfl, if_neg hdepth.ne', if_pos (by omega), Option.map_some]
  | case4 depth r hone hclose ih =>
    rw [List.reverse_cons, ← List.append_cons, openAngleBelow_char (by decide),
      if_neg (by decide), if_pos rfl, if_neg hdepth.ne', if_neg (by omega), ih (by omega)]
  | case5 depth c r hclose hopen hends =>
    have hc : ¬IsWide c := by
      rcases hends with rfl | rfl | rfl | rfl | rfl | rfl | rfl <;> decide
    rw [List.reverse_cons, ← List.append_cons, openAngleBelow_char hc, if_neg hclose,
      if_neg hopen, if_pos hends, Option.map_none]
  | case6 depth c r hclose hopen hends ih =>
    rw [List.reverse_cons, ← List.append_cons]
    refine Eq.trans ?_ (ih hdepth (c :: s))
    by_cases hc : IsWide c
    · exact (scan_wide hc rfl fun i d hbyte hwide ↦ (openAngleBelow_wide hbyte hwide).symm).symm
    · rw [openAngleBelow_char hc, if_neg hclose, if_neg hopen, if_neg hends]

/-- **The list of type parameters** begins where it begins in the text. -/
theorem typeParameters_eq (w s : Text) :
    typeParameters (w ++ s) (utf8Length w) =
      some ((beforeTypeParameters? w.reverse).map fun r ↦ utf8Length r.reverse) := by
  have htrim : trimEnd w = (trimStart w.reverse).reverse := rfl
  have hangle (x : Text) : ['>'] <:+ x.reverse ↔ ['>'] <+: x := @List.reverse_suffix Char ['>'] x
  have harrow (x : Text) : ['=', '>'] <:+ x.reverse ↔ ['>', '='] <+: x :=
    @List.reverse_suffix Char ['>', '='] x
  rw [typeParameters, slice?_start]
  simp only [Option.bind_eq_bind, Option.bind_some, htrim, hangle, harrow]
  by_cases hhead : (trimStart w.reverse).head? = some '>'
  · obtain ⟨r, hr⟩ := List.head?_eq_some_iff.mp hhead
    rw [beforeTypeParameters?_angle hr, hr]
    by_cases hequals : r.head? = some '='
    · obtain ⟨r, rfl⟩ := List.head?_eq_some_iff.mp hequals
      rw [if_pos (.inr (List.prefix_append ['>', '='] r)), if_pos hequals]
      rfl
    · have hnot : ¬['>', '='] <+: '>' :: r := fun h ↦ by
        obtain ⟨r, rfl⟩ := (List.cons_prefix_cons.mp h).2
        exact hequals rfl
      have hread := openAngleBelow_eq Nat.one_pos r ['>']
      rw [if_neg (by simp [hnot]), if_neg hequals, length_bytes, List.reverse_cons,
        openAngleBelow_char (by decide), if_pos rfl, hread]
  · have hnot : ¬['>'] <+: trimStart w.reverse := fun ⟨r, hr⟩ ↦ hhead (hr ▸ rfl)
    rw [beforeTypeParameters?_of_head hhead, if_pos (.inl hnot)]
    rfl

/-- **The word before an offset** is the one before that place of the text. -/
theorem wordBefore_eq (w s : Text) :
    wordBefore (w ++ s) (utf8Length w) =
      some ((wordBefore? w.reverse).map fun p ↦ (utf8Length p.2.reverse, p.1)) := by
  have htrim : trimEnd w = (trimStart w.reverse).reverse := rfl
  have hpart : (fun c ↦ isAlphanumeric c || c == '_' || c == '$') = Untyped.isPart := rfl
  rw [wordBefore, slice?_start, wordBefore?_eq]
  simp only [Option.bind_eq_bind, Option.bind_some, htrim, hpart]
  generalize trimStart w.reverse = head
  have hword := slice?_end (head.dropWhile Untyped.isPart).reverse
    (head.takeWhile Untyped.isPart).reverse
  rw [← List.reverse_append, List.takeWhile_append_dropWhile] at hword
  rw [List.rdropWhile, List.reverse_reverse, hword]
  by_cases hempty : head.takeWhile Untyped.isPart = []
  · simp [hempty]
  · simp [hempty]

theorem wordBefore?_suffix {v r : Text} (h : wordBefore? t = some (v, r)) : r <:+ t := by
  rw [wordBefore?_eq] at h
  split at h
  · cases h
  · cases h
    exact (List.dropWhile_suffix _).trans (List.dropWhile_suffix _)

/-- **What stands before an offset** is what stands before that place of the text. -/
theorem contextBefore_eq (w s : Text) :
    contextBefore (w ++ s) (utf8Length w) = some (contextOf w.reverse) := by
  rw [contextBefore, wordBefore_eq, contextOf]
  cases hword : wordBefore? w.reverse with
  | none => rfl
  | some p =>
    obtain ⟨v, r⟩ := p
    obtain ⟨x, hx⟩ := wordBefore?_suffix hword
    have hcode : w ++ s = r.reverse ++ (x.reverse ++ s) := by
      rw [← List.append_assoc, ← List.reverse_append, hx, List.reverse_reverse]
    have hnext := wordBefore_eq r.reverse (x.reverse ++ s)
    rw [← hcode, List.reverse_reverse] at hnext
    simp only [Option.map_some, Option.bind_eq_bind, Option.bind_some, hnext]
    split_ifs
    · rfl
    · rfl
    · cases wordBefore? r with
      | none => rfl
      | some q =>
        rw [Option.map_some]
        dsimp only
        split_ifs <;> rfl

end PluginPack.Offset
