import PluginPack.Proofs.TypeSyntax.LineEnd.Parameter
import PluginPack.Proofs.Untyped.Signature

/-!
# Signatures and line ends

What stands behind and in front of a list of parameters is read alike in a text with other line
ends, in front of it backwards. So the same signatures are found, and the carriage returns go or
stay with their newlines.
-/

namespace PluginPack

open Text Script

namespace TypeSyntax

variable {before kept : Text} {c : Char} {d : Nat} {l r t : Text}

/-! ## Return types -/

theorem returnType?_return (d : Nat) (r : Text) : returnType? d ('\r' :: r) =
    if d = 0 then none else Untyped.attach ['\r'] (returnType? d r) := by
  rw [Untyped.returnType?_cons (by simp) (by decide)]
  simp [show isReturnTypeChar '\r' = false by decide]

theorem returnType?_newline (d : Nat) (r : Text) : returnType? d ('\n' :: r) =
    if d = 0 then none else Untyped.attach ['\n'] (returnType? d r) := by
  rw [Untyped.returnType?_cons (by simp) (by decide)]
  simp [show isReturnTypeChar '\n' = false by decide]

theorem returnType?_quote (hc : c = '"' ∨ c = '\'') (d : Nat) (t : Text) : returnType? d (c :: t) =
    Untyped.attach (c :: (splitQuoted c t).1) (returnType? d (splitQuoted c t).2) := by
  have harrow : ¬(c = '=' ∧ t.head? = some '>') := by
    rintro ⟨rfl, -⟩
    rcases hc with hc | hc <;> cases hc
  rw [returnType?, if_neg harrow, if_pos hc]
  rfl

/-- A string literal is passed over alike. Where it ends with its line, the carriage return that it
takes in would be read in the same way behind it. -/
theorem returnType?_quote_crlf (hc : c = '"' ∨ c = '\'') (h : ¬RunsOn (c :: t))
    (ih : returnType? d (crlf (splitQuoted c t).2) =
      (returnType? d (splitQuoted c t).2).map (Prod.map crlf id)) :
    returnType? d (crlf (c :: t)) = (returnType? d (c :: t)).map (Prod.map crlf id) := by
  have hline : c ≠ '\n' := by rcases hc with rfl | rfl <;> decide
  have hquote : isQuote c = true := by rcases hc with rfl | rfl <;> rfl
  rw [crlf_cons hline, returnType?_quote hc, returnType?_quote hc, attach_map_crlf, ← ih,
    crlf_cons hline]
  rcases isReadAlike_splitQuoted hquote (.inr fun hmem ↦ h ⟨hc, hmem⟩) with
    ⟨hsplit, -⟩ | ⟨r', hr, hsplit, -⟩
  · rw [hsplit]
  · rw [hsplit, hr, crlf_newline, returnType?_return, returnType?_newline]
    by_cases hd : d = 0
    · rw [if_pos hd, if_pos hd]
      rfl
    · rw [if_neg hd, if_neg hd, Untyped.attach_attach, Untyped.attach_attach, Untyped.attach_attach]
      simp

theorem returnType?_crlf (h : IsUnbroken t) (d : Nat) :
    returnType? d (crlf t) = (returnType? d t).map (Prod.map crlf id) := by
  fun_induction returnType? d t with
  | case1 => rw [crlf_nil, returnType?, Option.map_none]
  | case2 c s harrow =>
    obtain ⟨rfl, hhead⟩ := harrow
    obtain ⟨s, rfl⟩ := List.head?_eq_some_iff.mp hhead
    rw [crlf_cons (by decide), crlf_cons (by decide), Untyped.returnType?_arrow, if_pos rfl]
    rfl
  | case3 d c s harrow hd ih =>
    obtain ⟨rfl, hhead⟩ := harrow
    obtain ⟨s, rfl⟩ := List.head?_eq_some_iff.mp hhead
    have hs : returnType? d (crlf s) = (returnType? d s).map (Prod.map crlf id) :=
      ih (h.of_suffix ⟨['=', '>'], rfl⟩)
    rw [crlf_cons (by decide), crlf_cons (by decide), Untyped.returnType?_arrow, if_neg hd, hs]
    exact (attach_map_crlf ['=', '>'] _).symm
  | case4 d c s harrow hquote ih =>
    rw [returnType?_quote_crlf hquote (h _ (List.suffix_refl _))
      (ih (h.of_suffix ⟨c :: (splitQuoted c s).1, by simp [splitQuoted_append]⟩)),
      returnType?_quote hquote]
    rfl
  | case5 d c s harrow hquote hbrace =>
    obtain ⟨rfl, rfl⟩ := hbrace
    rw [crlf_cons (by decide), returnType?, if_neg (by simp), if_neg (by decide), if_pos ⟨rfl, rfl⟩]
    rfl
  | case6 d c s harrow hquote hbrace hopens ih =>
    have hc := ne_newline_of_class hopens rfl
    rw [crlf_cons hc, returnType?, if_neg (not_arrow_crlf harrow), if_neg hquote, if_neg hbrace,
      if_pos hopens, ih (h.of_suffix (List.suffix_cons c s))]
    exact (attach_cons_map_crlf hc _).symm
  | case7 c s harrow hquote hopens hcloses hbrace =>
    have hc := ne_newline_of_class hcloses rfl
    rw [crlf_cons hc, returnType?, if_neg (not_arrow_crlf harrow), if_neg hquote, if_neg hbrace,
      if_neg hopens, if_pos hcloses, if_pos rfl, Option.map_none]
  | case8 d c s harrow hquote hbrace hopens hcloses hd ih =>
    have hc := ne_newline_of_class hcloses rfl
    rw [crlf_cons hc, returnType?, if_neg (not_arrow_crlf harrow), if_neg hquote, if_neg hbrace,
      if_neg hopens, if_pos hcloses, if_neg hd, ih (h.of_suffix (List.suffix_cons c s))]
    exact (attach_cons_map_crlf hc _).symm
  | case9 d c s harrow hquote hbrace hopens hcloses hends =>
    by_cases hc : c = '\n'
    · subst hc
      rw [crlf_newline, returnType?_return, if_pos hends.1, Option.map_none]
    · rw [crlf_cons hc, returnType?, if_neg (not_arrow_crlf harrow), if_neg hquote, if_neg hbrace,
        if_neg hopens, if_neg hcloses, if_pos hends, Option.map_none]
  | case10 d c s harrow hquote hbrace hopens hcloses hends ih =>
    have hs := ih (h.of_suffix (List.suffix_cons c s))
    by_cases hc : c = '\n'
    · subst hc
      have hd : d ≠ 0 := fun hd ↦ hends ⟨hd, by decide⟩
      rw [crlf_newline, returnType?_return, if_neg hd, returnType?_newline, if_neg hd, hs,
        Untyped.attach_attach]
      exact (attach_map_crlf ['\n'] _).symm
    · rw [crlf_cons hc, returnType?, if_neg (not_arrow_crlf harrow), if_neg hquote, if_neg hbrace,
        if_neg hopens, if_neg hcloses, if_neg hends, hs]
      exact (attach_cons_map_crlf hc _).symm

/-! ## Behind the parameters -/

/-- What follows a list of parameters, in the text `t` with other line ends. -/
def Tail.crlf (t : Text) (x : Tail) : Tail :=
  ⟨x.follow, Text.crlf x.gap, (Text.crlf (t.take x.width)).length⟩

theorem tail?_colon (h : trimStart t = ':' :: r) : tail? t = (returnType? 0 r).bind fun q ↦
    if (trim q.1).isEmpty then none
    else some ⟨q.2, t.takeWhile isWhite,
      (t.takeWhile isWhite).length + 1 + (trimEnd q.1).length⟩ := by
  rw [tail?, h]
  rfl

theorem tail?_equals_of_head (h : trimStart t = '=' :: r) (hr : r.head? ≠ some '>') :
    tail? t = none := by
  cases r with
  | nil =>
    rw [tail?, h]
    rfl
  | cons e r => exact tail?_equals h fun he ↦ hr (congrArg some he)

theorem tail?_colon_crlf (h : IsUnbroken t) (ht : trimStart t = ':' :: r) :
    tail? (crlf t) = (tail? t).map (Tail.crlf t) := by
  have hcrlf : trimStart (crlf t) = ':' :: crlf r := by
    rw [trimStart_crlf, ht, crlf_cons (by decide)]
  have hsplit : t.takeWhile isWhite ++ ':' :: r = t := by
    rw [← ht, trimStart, List.takeWhile_append_dropWhile]
  have hr : IsUnbroken r := h.of_suffix ⟨t.takeWhile isWhite ++ [':'], by simpa using hsplit⟩
  rw [tail?_colon hcrlf, returnType?_crlf hr, tail?_colon ht]
  refine bind_map_of_forall fun q hq ↦ ?_
  rw [Prod.map_fst, Prod.map_snd, trim_crlf, isEmpty_crlf, trimEnd_crlf,
    takeWhile_crlf isWhite_return]
  split_ifs
  · rfl
  -- The type is a beginning of what stands behind the colon.
  · have hprefix : t.takeWhile isWhite ++ ':' :: trimEnd q.1 <+: t := by
      have htype := (trimEnd_isPrefix q.1).trans (returnType?_isPrefix hq)
      have hcolon := (List.prefix_append_right_inj (t.takeWhile isWhite ++ [':'])).mpr htype
      rwa [List.append_assoc, List.append_assoc, List.singleton_append, List.singleton_append,
        hsplit] at hcolon
    have hlength : (t.takeWhile isWhite).length + 1 + (trimEnd q.1).length =
        (t.takeWhile isWhite ++ ':' :: trimEnd q.1).length := by
      rw [List.length_append, List.length_cons]
      omega
    have hwidth : (crlf (t.takeWhile isWhite)).length + 1 + (crlf (trimEnd q.1)).length =
        (crlf (t.takeWhile isWhite ++ ':' :: trimEnd q.1)).length := by
      rw [crlf_append, crlf_cons (by decide), List.length_append, List.length_cons]
      omega
    rw [hwidth, hlength, Option.map_some, Tail.crlf, ← List.prefix_iff_eq_take.mp hprefix]
    rfl

theorem tail?_crlf (h : IsUnbroken t) : tail? (crlf t) = (tail? t).map (Tail.crlf t) := by
  have htrim := trimStart_crlf t
  rcases ht : trimStart t with _ | ⟨c, r⟩
  · rw [ht, crlf_nil] at htrim
    rw [tail?_eq_none (by simp [htrim]), tail?_eq_none (by simp [ht]), Option.map_none]
  have hc : c ≠ '\n' := by
    rintro rfl
    have hstop := stops_dropWhile isWhite t
    rw [← trimStart, ht] at hstop
    cases stops_cons.mp hstop
  rw [ht, crlf_cons hc] at htrim
  by_cases hcolon : c = ':'
  · subst hcolon
    exact tail?_colon_crlf h ht
  by_cases hbrace : c = '{'
  · subst hbrace
    rw [tail?, htrim, tail?, ht]
    rfl
  by_cases hequals : c = '='
  · subst hequals
    by_cases hr : r.head? = some '>'
    · obtain ⟨r, rfl⟩ := List.head?_eq_some_iff.mp hr
      rw [tail?, htrim, tail?, ht, crlf_cons (by decide)]
      rfl
    · rw [tail?_equals_of_head htrim (by rwa [Ne, head?_crlf (by decide) (by decide)]),
        tail?_equals_of_head ht hr, Option.map_none]
  · rw [tail?_eq_none (by simp [htrim, hcolon, hbrace, hequals]),
      tail?_eq_none (by simp [ht, hcolon, hbrace, hequals]), Option.map_none]

/-! ## In front of the parameters -/

theorem openAngle?_crlfBack (d : Nat) (t : Text) :
    openAngle? d (crlfBack t) = (openAngle? d t).map crlfBack := by
  fun_induction openAngle? d t with
  | case1 => rfl
  | case2 d r ih => rw [crlfBack_cons (by decide), openAngle?, if_pos rfl, ih]
  | case3 d r hd =>
    rw [crlfBack_cons (by decide), openAngle?, if_neg (by decide), if_pos rfl, if_pos hd,
      Option.map_some]
  | case4 d r hd _ ih =>
    rw [crlfBack_cons (by decide), openAngle?, if_neg (by decide), if_pos rfl, if_neg hd, ih]
  | case5 d c r hclose hopen hends =>
    by_cases hc : c = '\n'
    · subst hc
      rfl
    · rw [crlfBack_cons hc, openAngle?, if_neg hclose, if_neg hopen, if_pos hends, Option.map_none]
  | case6 d c r hclose hopen hends ih =>
    have hc : c ≠ '\n' := fun hc ↦ hends (by simp [hc])
    rw [crlfBack_cons hc, openAngle?, if_neg hclose, if_neg hopen, if_neg hends, ih]

theorem beforeTypeParameters?_crlfBack (before : Text) :
    beforeTypeParameters? (crlfBack before) = (beforeTypeParameters? before).map crlfBack := by
  by_cases hangle : (trimStart before).head? = some '>'
  · obtain ⟨r, hr⟩ := List.head?_eq_some_iff.mp hangle
    have hback : trimStart (crlfBack before) = '>' :: crlfBack r := by
      rw [trimStart_crlfBack, hr, crlfBack_cons (by decide)]
    rw [beforeTypeParameters?_angle hback, beforeTypeParameters?_angle hr, openAngle?_crlfBack]
    simp only [head?_crlfBack (show '=' ≠ '\n' by decide)]
    split_ifs <;> rfl
  · have hback : (trimStart (crlfBack before)).head? ≠ some '>' := by
      rwa [trimStart_crlfBack, Ne, head?_crlfBack (by decide)]
    rw [beforeTypeParameters?_of_head hback, beforeTypeParameters?_of_head hangle, Option.map_none]

theorem wordBefore?_crlfBack (before : Text) :
    wordBefore? (crlfBack before) = (wordBefore? before).map (Prod.map id crlfBack) := by
  have hword : crlfBack ((trimStart before).takeWhile Untyped.isPart) =
      (trimStart before).takeWhile Untyped.isPart :=
    spellNewlines_eq_self (fun hmem ↦
      absurd (List.all_eq_true.mp List.all_takeWhile _ hmem) (by decide)) _
  rw [wordBefore?_eq, trimStart_crlfBack, takeWhile_crlfBack rfl, dropWhile_crlfBack rfl, hword,
    wordBefore?_eq]
  split_ifs <;> rfl

theorem contextOf_crlfBack (before : Text) : contextOf (crlfBack before) = contextOf before := by
  rw [contextOf, wordBefore?_crlfBack, contextOf]
  rcases wordBefore? before with _ | ⟨w, rest⟩
  · rfl
  · simp only [Option.map_some, Prod.map_apply, id, wordBefore?_crlfBack]
    cases wordBefore? rest <;> rfl

/-! ## Signatures -/

/-- A signature that is found between two texts, in those with other line ends. -/
def Signature.crlf (before : Text) (x : Signature) : Signature :=
  ⟨(crlfBack (before.take x.lead)).length, Text.crlf x.params, Text.crlf x.gap, Text.crlf x.rest⟩

theorem signatureWith?_crlf (h : IsUnbroken t) (context : Context) (lead lead' : Nat) :
    signatureWith? context lead' (crlf t) = (signatureWith? context lead t).map fun x ↦
      ⟨lead', crlf x.params, crlf x.gap, crlf x.rest⟩ := by
  rw [signatureWith?, closeParen?_crlf h, signatureWith?]
  refine bind_map_of_forall fun q hq ↦ ?_
  have hbehind : IsUnbroken q.2 :=
    h.of_suffix ⟨q.1 ++ [')'], by rw [← closeParen?_append hq]; simp⟩
  rw [Prod.map_snd, tail?_crlf hbehind]
  refine bind_map_of_forall fun x _ ↦ ?_
  simp only [Tail.crlf, Prod.map_fst, drop_crlf]
  split_ifs <;> rfl

theorem length_crlfBack_sub (h : r <:+ before) :
    (crlfBack before).length - (crlfBack r).length =
      (crlfBack (before.take (before.length - r.length))).length := by
  obtain ⟨w, rfl⟩ := h
  rw [crlfBack_append, List.length_append, List.length_append, Nat.add_sub_cancel,
    Nat.add_sub_cancel, List.take_left]

theorem signature?_crlf (h : IsUnbroken t) (before : Text) :
    signature? (crlfBack before) (crlf t) = (signature? before t).map (Signature.crlf before) := by
  have hsuffix : (beforeTypeParameters? before).getD before <:+ before :=
    optionally_suffix (fun h ↦ beforeTypeParameters?_suffix h) before
  have hhead : (beforeTypeParameters? (crlfBack before)).getD (crlfBack before) =
      crlfBack ((beforeTypeParameters? before).getD before) := by
    rw [beforeTypeParameters?_crlfBack]
    cases beforeTypeParameters? before <;> rfl
  rw [signature?_eq_signatureWith?, signature?_eq_signatureWith?, hhead, contextOf_crlfBack,
    length_crlfBack_sub hsuffix, signatureWith?_crlf h]
  refine Option.map_congr fun x hx ↦ ?_
  rw [Signature.crlf, lead_of_signatureWith? hx]

theorem Signature.render_crlf {x : Signature} (h : IsUnbroken x.params) :
    (Signature.crlf before x).render = Text.crlf x.render := by
  rw [render, Signature.crlf, eraseParameterTypes_crlf h, render, crlf_append,
    crlf_cons (by decide), crlf_cons (by decide)]

theorem lead_le_length {x : Signature} (h : signature? before r = some x) :
    x.lead ≤ before.length := by
  obtain ⟨-, -, -, -, -, rfl, -⟩ := exists_of_signature? h
  exact Nat.sub_le _ _

theorem params_isInfix {x : Signature} (h : signature? before r = some x) : x.params <:+: r := by
  obtain ⟨params, behind, tail, hclose, -, rfl, -⟩ := exists_of_signature? h
  exact ⟨[], ')' :: behind, closeParen?_append hclose⟩

/-! ## The scan -/

/-- A literal or comment is passed over alike, also when it takes in a carriage return. -/
theorem eraseSignaturesFrom_inert_crlf (h : ¬RunsOn t) (hl : inert? t = some (l, r)) :
    eraseSignaturesFrom before kept (crlf t) = eraseSignaturesFrom ((crlf l).reverse ++ before)
      ((crlf l).reverse ++ kept) (crlf r) := by
  have hcrlf := inert?_crlf h
  have happend := inertCrlf_append (l, r)
  rw [hl, Option.map_some] at hcrlf
  rw [inert?_append hl] at happend
  rw [← happend, Untyped.eraseSignaturesFrom_inert (by rw [happend, hcrlf]), inertCrlf]
  split_ifs
  · by_cases hr : r.head? = some '\n'
    · obtain ⟨u, rfl⟩ := List.head?_eq_some_iff.mp hr
      rw [crlf_newline, Untyped.eraseSignaturesFrom_cons (inert?_return _) (by decide),
        returnBefore_newline, List.reverse_append]
      rfl
    · rw [returnBefore_eq_nil hr, crlfRest_eq hr, List.append_nil]
  · rfl

/-- A parenthesis is passed over when it opens no signature, or one that reaches into what has been
written. -/
theorem eraseSignaturesFrom_paren (h : ∀ x ∈ signature? before r, ¬x.lead ≤ kept.length) :
    eraseSignaturesFrom before kept ('(' :: r) =
      eraseSignaturesFrom ('(' :: before) ('(' :: kept) r := by
  cases hx : signature? before r with
  | none => exact Untyped.eraseSignaturesFrom_none hx
  | some x =>
    rw [eraseSignaturesFrom]
    split
    · rename_i hinert
      rw [inert?_eq_none (by decide) (by decide)] at hinert
      cases hinert
    · rw [if_pos rfl]
      split
      · rename_i hsome
        rw [if_neg (h _ hsome)]
      · rfl

theorem drop_lead_crlf {n : Nat} (hkept : kept <+: before) (hn : n ≤ kept.length) :
    (crlfBack (before.take n)).length ≤ (crlfBack kept).length ∧
      (crlfBack kept).drop (crlfBack (before.take n)).length = crlfBack (kept.drop n) := by
  obtain ⟨y, rfl⟩ := hkept
  have hsplit : crlfBack kept = crlfBack (kept.take n) ++ crlfBack (kept.drop n) := by
    rw [← crlfBack_append, List.take_append_drop]
  rw [List.take_append_of_le_length hn, hsplit, List.length_append, List.drop_left]
  exact ⟨Nat.le_add_right _ _, rfl⟩

theorem lt_length_lead_crlf {n : Nat} (hkept : kept <+: before) (hn : kept.length < n)
    (hle : n ≤ before.length) : (crlfBack kept).length < (crlfBack (before.take n)).length := by
  have hlength : (before.take n).length = n := List.length_take_of_le hle
  obtain ⟨z, hz⟩ := List.prefix_of_prefix_length_le hkept (List.take_prefix n before) (by omega)
  have hpos : 0 < z.length := by
    rw [← hz, List.length_append] at hlength
    omega
  have hback := length_le_spellNewlines (List.cons_ne_nil '\n' ['\r']) z
  rw [← hz, crlfBack_append, List.length_append]
  exact Nat.lt_add_of_pos_right (hpos.trans_le hback)

theorem eraseSignaturesFrom_crlf (h : IsUnbroken t) (hkept : kept <+: before) :
    eraseSignaturesFrom (crlfBack before) (crlfBack kept) (crlf t) =
      crlf (eraseSignaturesFrom before kept t) := by
  fun_induction eraseSignaturesFrom before kept t with
  | case1 before kept => rw [crlf_nil, eraseSignaturesFrom, crlfBack_reverse]
  | case2 before kept c r l rest hl _ ih =>
    rw [eraseSignaturesFrom_inert_crlf (h _ (List.suffix_refl _)) hl, reverse_crlf,
      ← crlfBack_append, ← crlfBack_append,
      ih (h.of_suffix ⟨l, inert?_append hl⟩) ((List.prefix_append_right_inj _).mpr hkept)]
  | case3 before kept r x hx hlead _ _ ih =>
    have hr : IsUnbroken r := h.of_suffix (List.suffix_cons _ r)
    have hcrlf := signature?_crlf hr before
    rw [hx, Option.map_some] at hcrlf
    obtain ⟨hle, hdrop⟩ := drop_lead_crlf hkept hlead
    have hconsumed : Marker.consumed ('(' :: crlf r) (crlf x.rest) =
        crlf (Marker.consumed ('(' :: r) x.rest) := by
      rw [← consumed_crlf ((signature?_rest_suffix hx).trans (List.suffix_cons _ r)),
        crlf_cons (by decide)]
    have hrest := ih (hr.of_suffix (signature?_rest_suffix hx)) List.nil_prefix
    rw [crlf_cons (by decide), Untyped.eraseSignaturesFrom_some hcrlf hle,
      Signature.render_crlf (hr.of_infix (params_isInfix hx))]
    simp only [Signature.crlf, hdrop, hconsumed, reverse_crlf, ← crlfBack_append]
    rw [crlfBack_reverse, crlf_append, crlf_append, ← hrest]
    rfl
  | case4 before kept r x hx hlead _ ih =>
    have hr : IsUnbroken r := h.of_suffix (List.suffix_cons _ r)
    have hnext := ih hr ((List.prefix_append_right_inj ['(']).mpr hkept)
    have hlt := lt_length_lead_crlf hkept (Nat.lt_of_not_le hlead) (lead_le_length hx)
    rw [crlfBack_cons (by decide), crlfBack_cons (by decide)] at hnext
    rw [crlf_cons (by decide), eraseSignaturesFrom_paren, hnext]
    intro y hy
    rw [signature?_crlf hr, hx, Option.map_some] at hy
    cases hy
    exact Nat.not_le_of_lt hlt
  | case5 before kept r hx _ ih =>
    have hr : IsUnbroken r := h.of_suffix (List.suffix_cons _ r)
    have hnext := ih hr ((List.prefix_append_right_inj ['(']).mpr hkept)
    rw [crlfBack_cons (by decide), crlfBack_cons (by decide)] at hnext
    rw [crlf_cons (by decide), eraseSignaturesFrom_paren, hnext]
    rw [signature?_crlf hr, hx]
    exact fun y hy ↦ absurd hy (by simp)
  | case6 before kept c r hinert hc ih =>
    have hnext := ih (h.of_suffix (List.suffix_cons c r))
      ((List.prefix_append_right_inj [c]).mpr hkept)
    by_cases hline : c = '\n'
    · subst hline
      rw [crlf_newline, Untyped.eraseSignaturesFrom_cons (inert?_return _) (by decide),
        Untyped.eraseSignaturesFrom_cons (inert?_eq_none (by decide) (by decide) _)
          (by decide)]
      exact hnext
    · rw [crlfBack_cons hline, crlfBack_cons hline] at hnext
      rw [crlf_cons hline, Untyped.eraseSignaturesFrom_cons
        (inert?_cons_crlf (h _ (List.suffix_refl _)) hinert hline) hc, hnext]

/-- **Signatures in a text with other line ends** lose the same types. -/
theorem eraseSignatures_crlf (h : IsUnbroken t) :
    eraseSignatures (crlf t) = crlf (eraseSignatures t) :=
  eraseSignaturesFrom_crlf h (List.prefix_refl [])

/-! ## Characters of the outcome -/

theorem gap_subset {x : Tail} (h : tail? t = some x) : x.gap ⊆ t := by
  rw [tail?] at h
  split at h
  · cases h
    exact List.nil_subset _
  · cases h
    exact List.nil_subset _
  · obtain ⟨q, -, h⟩ := Option.bind_eq_some_iff.mp h
    dsimp only at h
    split_ifs at h
    cases h
    exact (List.takeWhile_prefix _).subset
  · cases h

/-- What is written of a signature has characters of the text, and parentheses and spaces besides.
-/
theorem render_subset {x : Signature} (h : signature? before r = some x) :
    x.render ⊆ '(' :: ')' :: ' ' :: r := by
  obtain ⟨params, behind, tail, hclose, htail, rfl, -⟩ := exists_of_signature? h
  have hr := closeParen?_append hclose
  have hgap : tail.gap ⊆ r := fun c hc ↦ by
    rw [← hr]
    exact List.mem_append_right _ (List.mem_cons_of_mem _ (gap_subset htail hc))
  have hparams : eraseParameterTypes params ⊆ ' ' :: r := fun c hc ↦ by
    rw [← hr]
    exact List.cons_subset_cons ' ' (List.subset_append_left params _)
      (eraseParameterTypes_subset params hc)
  intro c hc
  rcases List.mem_append.mp hc with hc | hc
  · rcases List.mem_cons.mp hc with rfl | hc
    · exact List.mem_cons_self
    · exact List.mem_cons_of_mem _ (List.mem_cons_of_mem _ (hparams hc))
  · rcases List.mem_cons.mp hc with rfl | hc
    · exact List.mem_cons_of_mem _ List.mem_cons_self
    · exact List.mem_cons_of_mem _ (List.mem_cons_of_mem _ (List.mem_cons_of_mem _ (hgap hc)))

theorem eraseSignaturesFrom_subset (before kept t : Text) :
    eraseSignaturesFrom before kept t ⊆ '(' :: ')' :: ' ' :: (kept ++ t) := by
  intro d
  fun_induction eraseSignaturesFrom before kept t with
  | case1 before kept =>
    simp only [List.mem_reverse, List.mem_cons, List.mem_append]
    exact fun h ↦ .inr (.inr (.inr (.inl h)))
  | case2 before kept c r l rest hl _ ih =>
    simp only [← inert?_append hl, List.mem_cons, List.mem_append, List.mem_reverse] at ih ⊢
    grind
  | case3 before kept r x hx hlead _ _ ih =>
    have hrender := @render_subset _ _ _ hx d
    have hrest := (signature?_rest_suffix hx).subset (a := d)
    have hdrop := (List.drop_subset x.lead kept) (a := d)
    simp only [List.mem_cons, List.mem_append, List.mem_reverse] at ih hrender ⊢
    grind
  | case4 before kept r _ _ _ _ ih | case5 before kept r _ _ ih | case6 before kept c r _ _ ih =>
    simp only [List.mem_cons, List.mem_append] at ih ⊢
    grind

theorem not_mem_eraseDeclaredTypes (h : '\r' ∉ t) : '\r' ∉ eraseDeclaredTypes t := fun hmem ↦ by
  have hdeclarations : '\r' ∉ eraseDeclarations t := fun hmem ↦ h (eraseDeclarations_subset t hmem)
  have hsignatures := eraseSignaturesFrom_subset [] [] (eraseDeclarations t) hmem
  simp [hdeclarations] at hsignatures

/-- **Declared types in a text with other line ends.** -/
theorem eraseDeclaredTypes_crlf (h : '\r' ∉ t) (hunbroken : IsUnbroken t) :
    eraseDeclaredTypes (crlf t) = crlf (eraseDeclaredTypes t) := by
  rw [eraseDeclaredTypes, eraseDeclarations_crlf h,
    eraseSignatures_crlf (isUnbroken_eraseDeclarations hunbroken), eraseDeclaredTypes]

end TypeSyntax

end PluginPack
