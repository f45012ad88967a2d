import PluginPack.Proofs.Offset.Bracket
import PluginPack.Proofs.Offset.Context
import PluginPack.Proofs.Offset.Parameter

/-!
# Signatures by byte offsets

The loop that removes the types from all signatures of a text. Between two signatures it copies what
stands there, and it goes on behind a signature where its closing parenthesis or its return type
ends. It writes the same text as the scan over characters, and all of its slices are in range and
between characters.
-/

namespace PluginPack.Offset

open Text Script TypeSyntax

/-- Where a signature stands in a text. -/
structure SignatureSpan where
  /-- The offset of the type parameters, or else of the opening parenthesis. -/
  start : Nat
  opening : Nat
  close : Nat
  /-- The colon of a return type, and the end of the type. -/
  returnType : Option (Nat × Nat)
deriving DecidableEq, Repr

/-- Where a signature ends. -/
def SignatureSpan.stop (x : SignatureSpan) : Nat := x.returnType.elim (x.close + 1) Prod.snd

/-- What stays of a signature. -/
def SignatureSpan.render (x : SignatureSpan) (code : Text) : Checked Text := do
  let params ← eraseParameterTypes (← slice? code (x.opening + 1) x.close)
  match x.returnType with
  | none => return '(' :: params ++ [')']
  | some (colon, _) => return '(' :: params ++ ')' :: (← slice? code (x.close + 1) colon)

/-- The signature whose parenthesis stands at an offset, if it is one. -/
def signatureAt (code : Text) (opening : Nat) : Checked (Option SignatureSpan) := do
  match ← closeParen (bytes code) opening with
  | none => return none
  | some close =>
    match ← tail code close with
    | none => return none
    | some (follow, returnType) =>
      let start := (← typeParameters code opening).getD opening
      let context ← contextBefore code start
      if follow = .arrow ∨ context = .function ∨ context = .name then
        return some ⟨start, opening, close, returnType⟩
      else return none

theorem lt_of_signatureAt {code : Text} {opening : Nat} {x : SignatureSpan}
    (h : signatureAt code opening = some (some x)) : opening < x.stop := by
  unfold signatureAt at h
  obtain ⟨r, hclose, h⟩ := Option.bind_eq_some_iff.mp h
  cases r with
  | none => cases h
  | some close =>
    have hle : opening ≤ close := by
      obtain ⟨r, hr, hparen⟩ := exists_closingFrom (bytes code) 0 opening
      cases hr.symm.trans hclose
      exact (hparen close rfl).1
    obtain ⟨r, htail, h⟩ := Option.bind_eq_some_iff.mp h
    rcases r with _ | ⟨follow, returnType⟩
    · cases h
    · obtain ⟨start, -, h⟩ := Option.bind_eq_some_iff.mp h
      obtain ⟨context, -, h⟩ := Option.bind_eq_some_iff.mp h
      split_ifs at h
      · cases h
        cases returnType with
        | none => exact Nat.lt_succ_of_le hle
        | some span => exact hle.trans_lt (lt_of_tail htail)
      · cases h

/-- Removes the types from the signatures from an offset on. The text is written up to the offset
`copied`, and a signature that begins before that is no signature. -/
def eraseSignaturesFrom (code : Text) (copied i : Nat) : Checked Text :=
  if i < (bytes code).length then
    match hinert : inertEnd (bytes code) i with
    | none => none
    | some (some next) =>
      have := lt_of_inertEnd hinert
      eraseSignaturesFrom code copied next
    | some none => do
      let c ← byteAt? (bytes code) i
      if c = '(' then
        match hspan : signatureAt code i with
        | none => none
        | some none => eraseSignaturesFrom code copied (i + 1)
        | some (some x) =>
          have := lt_of_signatureAt hspan
          if copied ≤ x.start then
            let kept ← slice? code copied x.start
            let signature ← x.render code
            return kept ++ signature ++ (← eraseSignaturesFrom code x.stop x.stop)
          else eraseSignaturesFrom code copied (i + 1)
      else eraseSignaturesFrom code copied (i + 1)
  else slice? code copied (utf8Length code)
termination_by (bytes code).length - i
decreasing_by all_goals omega

/-- Removes the types from all signatures of a script. -/
def eraseSignatures (code : Text) : Checked Text := eraseSignaturesFrom code 0 0

variable {a d r s t w code kept : Text} {c : Char} {copied i j : Nat} {x : Signature}
  {y : SignatureSpan}

/-! ## One signature -/

/-- The span of a signature whose parenthesis stands between the texts `w` and `r`. -/
structure IsSpanOf (w r : Text) (x : Signature) (y : SignatureSpan) : Prop where
  start : ∃ u v, w = u ++ v ∧ v.length = x.lead ∧ y.start = utf8Length u
  stop : ∃ d, r = d ++ x.rest ∧ y.stop = utf8Length (w ++ '(' :: d)
  render : y.render (w ++ '(' :: r) = some x.render

theorem gap_isPrefix {x : Tail} (h : tail? t = some x) :
    x.gap <+: t ∧ (x.width = 0 → x.gap = []) := by
  unfold tail? at h
  split at h
  · cases h
    exact .intro List.nil_prefix fun _ ↦ rfl
  · cases h
    exact .intro List.nil_prefix fun _ ↦ rfl
  · obtain ⟨p, -, h⟩ := Option.bind_eq_some_iff.mp h
    dsimp only at h
    split_ifs at h
    cases h
    exact .intro (List.takeWhile_prefix _) fun h ↦ absurd h (by simp)
  · cases h

/-- Where a signature begins that has its parenthesis behind the text `w`, and what stands before
it. -/
theorem start_eq (w s : Text) : ∃ head v, w = head.reverse ++ v ∧
    (beforeTypeParameters? w.reverse).getD w.reverse = head ∧
    ((beforeTypeParameters? w.reverse).map fun r ↦ utf8Length r.reverse).getD (utf8Length w) =
      utf8Length head.reverse ∧
    contextBefore (w ++ s) (utf8Length head.reverse) = some (contextOf head) := by
  have hhead : ∃ head, (beforeTypeParameters? w.reverse).getD w.reverse = head ∧
      ((beforeTypeParameters? w.reverse).map fun r ↦ utf8Length r.reverse).getD (utf8Length w) =
        utf8Length head.reverse ∧ head <:+ w.reverse := by
    cases hbefore : beforeTypeParameters? w.reverse with
    | none => exact ⟨w.reverse, rfl, by simp, List.suffix_refl _⟩
    | some head => exact ⟨head, rfl, rfl, beforeTypeParameters?_suffix hbefore⟩
  obtain ⟨head, hgetD, hlength, v, hv⟩ := hhead
  have hw : w = head.reverse ++ v.reverse := by
    rw [← List.reverse_append, hv, List.reverse_reverse]
  refine ⟨head, v.reverse, hw, hgetD, hlength, ?_⟩
  have hcontext := contextBefore_eq head.reverse (v.reverse ++ s)
  rwa [← List.append_assoc, ← hw, List.reverse_reverse] at hcontext

/-- What stays of a signature is written as in the text, with every slice between characters. -/
theorem render_eq (w params behind : Text) {x : Tail} (h : tail? behind = some x) (start : Nat) :
    (SignatureSpan.mk start (utf8Length w) (utf8Length (w ++ '(' :: params))
      (returnSpan (w ++ '(' :: params ++ [')']) behind x)).render
        (w ++ '(' :: (params ++ ')' :: behind)) =
      some ('(' :: TypeSyntax.eraseParameterTypes params ++ ')' :: x.gap) := by
  obtain ⟨⟨rest, hgap⟩, hwidth⟩ := gap_isPrefix h
  have hcode : w ++ '(' :: (params ++ ')' :: behind) =
      w ++ '(' :: params ++ [')'] ++ x.gap ++ rest := by
    rw [← hgap]
    simp
  have hparams : slice? (w ++ '(' :: (params ++ ')' :: behind)) (utf8Length w + 1)
      (utf8Length (w ++ '(' :: params)) = some params := by
    have hslice := slice?_append (w ++ ['(']) params (')' :: behind)
    rw [utf8Length_concat (by decide)] at hslice
    simpa using hslice
  have hbehind := slice?_append (w ++ '(' :: params ++ [')']) x.gap rest
  rw [← hcode, utf8Length_concat (by decide)] at hbehind
  rw [SignatureSpan.render]
  simp only [hparams, eraseParameterTypes_eq, Option.bind_eq_bind, Option.bind_some, returnSpan]
  split_ifs with hzero
  · rw [hwidth hzero]
    rfl
  · simp only [hbehind, Option.bind_some]
    rfl

theorem stop_returnSpan (a t : Text) (x : Tail) (start opening close : Nat)
    (hclose : close + 1 = utf8Length a) :
    (SignatureSpan.mk start opening close (returnSpan a t x)).stop =
      utf8Length (a ++ t.take x.width) := by
  rw [SignatureSpan.stop, returnSpan]
  split_ifs with hzero
  · rw [hzero, List.take_zero, List.append_nil, Option.elim_none, hclose]
  · rfl

/-- **The signatures of the bytes** are those of the text. -/
theorem signatureAt_eq (w r : Text) :
    ∃ y, signatureAt (w ++ '(' :: r) (utf8Length w) = some y ∧
      Option.Rel (IsSpanOf w r) (signature? w.reverse r) y := by
  rw [signatureAt, closeParen_eq, signature?]
  cases hclose : closeParen? r with
  | none => exact ⟨none, rfl, .none⟩
  | some p =>
    obtain ⟨params, behind⟩ := p
    obtain rfl : r = params ++ ')' :: behind := (closeParen?_append hclose).symm
    have hcode : w ++ '(' :: (params ++ ')' :: behind) = w ++ '(' :: params ++ ')' :: behind := by
      simp
    have htail := tail_eq hcode
    simp only [Option.map_some, Option.bind_eq_bind, Option.bind_some, htail]
    cases hx : tail? behind with
    | none => exact ⟨none, rfl, .none⟩
    | some x =>
      obtain ⟨head, v, hw, hhead, hstart, hcontext⟩ :=
        start_eq w ('(' :: (params ++ ')' :: behind))
      simp only [Option.map_some, Option.bind_some, typeParameters_eq, hstart, hcontext, hhead]
      split_ifs with his
      · refine ⟨_, rfl, .some ⟨⟨head.reverse, v, hw, ?_, rfl⟩, ?_, render_eq w params behind hx _⟩⟩
        · simp [hw]
        · refine ⟨params ++ ')' :: behind.take x.width, by simp [List.take_append_drop], ?_⟩
          rw [stop_returnSpan _ _ _ _ _ _ (utf8Length_concat (by decide) _).symm]
          simp
      · exact ⟨none, rfl, .none⟩

/-! ## The loop -/

theorem eraseSignaturesFrom_end (h : (bytes code).length ≤ i) :
    eraseSignaturesFrom code copied i = slice? code copied (utf8Length code) := by
  rw [eraseSignaturesFrom, if_neg (Nat.not_lt.mpr h)]

theorem eraseSignaturesFrom_inert (h : inertEnd (bytes code) i = some (some j))
    (hi : i < (bytes code).length) :
    eraseSignaturesFrom code copied i = eraseSignaturesFrom code copied j := by
  rw [eraseSignaturesFrom, if_pos hi]
  split <;> simp_all

theorem eraseSignaturesFrom_byte (h : inertEnd (bytes code) i = some none)
    (hbyte : byteAt? (bytes code) i = some c) (hc : c ≠ '(') :
    eraseSignaturesFrom code copied i = eraseSignaturesFrom code copied (i + 1) := by
  rw [eraseSignaturesFrom, if_pos (lt_of_byteAt? hbyte)]
  split <;> simp_all

theorem inertEnd_parenthesis (a r : Text) :
    inertEnd (bytes (a ++ '(' :: r)) (utf8Length a) = some none :=
  inertEnd_of_none (Script.inert?_eq_none (by decide) (by decide) r) a

/-- The loop at a parenthesis. -/
theorem eraseSignaturesFrom_parenthesis {z : Option SignatureSpan}
    (h : signatureAt (a ++ '(' :: r) (utf8Length a) = some z) :
    eraseSignaturesFrom (a ++ '(' :: r) copied (utf8Length a) =
      match z with
      | none => eraseSignaturesFrom (a ++ '(' :: r) copied (utf8Length (a ++ ['(']))
      | some y =>
        if copied ≤ y.start then
          (slice? (a ++ '(' :: r) copied y.start).bind fun kept ↦
            (y.render (a ++ '(' :: r)).bind fun signature ↦
              (eraseSignaturesFrom (a ++ '(' :: r) y.stop y.stop).map (kept ++ signature ++ ·)
        else eraseSignaturesFrom (a ++ '(' :: r) copied (utf8Length (a ++ ['('])) := by
  have hinert := inertEnd_parenthesis a r
  rw [eraseSignaturesFrom, if_pos (utf8Length_lt a _ r), utf8Length_concat (by decide)]
  split
  · next hnone => cases hnone.symm.trans hinert
  · next hsome => cases hsome.symm.trans hinert
  · rw [byteAt?_of_not_isWide (by decide), Option.bind_eq_bind, Option.bind_some, if_pos rfl]
    split
    · next hspan => cases hspan.symm.trans h
    · next hspan =>
      cases hspan.symm.trans h
      rfl
    · next y hspan =>
      cases hspan.symm.trans h
      simp only [Option.map_eq_bind, Function.comp_def]
      rfl

/-- A parenthesis that is passed over: it begins no signature, or one that begins in front of what
has been written. -/
theorem eraseSignaturesFrom_skip {z : Option SignatureSpan}
    (h : signatureAt (a ++ '(' :: r) (utf8Length a) = some z)
    (hz : ∀ y ∈ z, ¬copied ≤ y.start) :
    eraseSignaturesFrom (a ++ '(' :: r) copied (utf8Length a) =
      eraseSignaturesFrom (a ++ '(' :: r) copied (utf8Length (a ++ ['('])) := by
  rw [eraseSignaturesFrom_parenthesis h]
  cases z with
  | none => rfl
  | some y => exact if_neg (hz y rfl)

theorem eraseSignaturesFrom_signature
    (h : signatureAt (a ++ '(' :: r) (utf8Length a) = some (some y)) (hy : copied ≤ y.start) :
    eraseSignaturesFrom (a ++ '(' :: r) copied (utf8Length a) =
      (slice? (a ++ '(' :: r) copied y.start).bind fun kept ↦
        (y.render (a ++ '(' :: r)).bind fun signature ↦
          (eraseSignaturesFrom (a ++ '(' :: r) y.stop y.stop).map (kept ++ signature ++ ·) := by
  rw [eraseSignaturesFrom_parenthesis h]
  exact if_pos hy

/-- A signature begins in what is still to be written, or in what has been written. -/
theorem exists_append_or_lt {p k u v : Text} (h : p ++ k = u ++ v) :
    (∃ m, u = p ++ m ∧ k = m ++ v) ∨ k.length < v.length ∧ utf8Length u < utf8Length p := by
  rcases List.append_eq_append_iff.mp h with ⟨m, rfl, rfl⟩ | ⟨m, rfl, rfl⟩
  · exact .inl ⟨m, rfl, rfl⟩
  · cases m with
    | nil => exact .inl ⟨[], by simp, rfl⟩
    | cons c m =>
      have hpos := c.utf8Size_pos
      simp only [List.length_append, List.length_cons, utf8Length_append, utf8Length_cons]
      exact .inr ⟨by omega, by omega⟩

/-- The loop at a signature that begins in what has been read and is still to be written. -/
theorem eraseSignaturesFrom_span {p k : Text} (hx : signature? (p ++ k).reverse r = some x)
    (hy : signatureAt (p ++ k ++ '(' :: r) (utf8Length (p ++ k)) = some (some y))
    (hspan : IsSpanOf (p ++ k) r x y) (hstart : ∃ m v, k = m ++ v ∧ v.length = x.lead ∧
      y.start = utf8Length (p ++ m))
    (hrest : ∀ d, r = d ++ x.rest →
      eraseSignaturesFrom (p ++ k ++ '(' :: d ++ x.rest) (utf8Length (p ++ k ++ '(' :: d))
          (utf8Length (p ++ k ++ '(' :: d)) =
        some (TypeSyntax.eraseSignaturesFrom (p ++ k ++ '(' :: d).reverse [] x.rest)) :
    eraseSignaturesFrom (p ++ k ++ '(' :: r) (utf8Length p) (utf8Length (p ++ k)) =
      some (TypeSyntax.eraseSignaturesFrom (p ++ k).reverse k.reverse ('(' :: r)) := by
  obtain ⟨m, v, rfl, hlead, hstart⟩ := hstart
  obtain ⟨-, ⟨d, hr, hstop⟩, hrender⟩ := hspan
  have hcode : p ++ (m ++ v) ++ '(' :: d ++ x.rest = p ++ (m ++ v) ++ '(' :: r := by simp [hr]
  have hkept := slice?_append p m (v ++ '(' :: r)
  have hheld : ((m ++ v).reverse.drop x.lead).reverse = m := by
    rw [List.reverse_append, ← hlead, ← @List.length_reverse _ v, List.drop_left,
      List.reverse_reverse]
  have hconsumed : Marker.consumed ('(' :: r) x.rest = '(' :: d := by
    rw [hr]
    exact Marker.consumed_left ('(' :: d) x.rest
  have hrest := hrest d hr
  rw [hcode, @List.reverse_append _ (p ++ (m ++ v))] at hrest
  rw [List.append_assoc p m, ← List.append_assoc m v, ← List.append_assoc p] at hkept
  rw [eraseSignaturesFrom_signature hy (by simp [hstart]), hstart, hkept, hrender, hstop,
    Option.bind_some, Option.bind_some, hrest, Option.map_some,
    Untyped.eraseSignaturesFrom_some hx (by simp [← hlead]), hheld, hconsumed]

/-- **The loop over signatures** ends and writes what the scan over characters writes. The text `p`
has been written, and `k` has been read behind it. -/
theorem eraseSignaturesFrom_eq (p k t : Text) :
    eraseSignaturesFrom (p ++ k ++ t) (utf8Length p) (utf8Length (p ++ k)) =
      some (TypeSyntax.eraseSignaturesFrom (p ++ k).reverse k.reverse t) := by
  induction hn : t.length using Nat.strongRecOn generalizing p k t with
  | ind n ih =>
    subst hn
    cases t with
    | nil =>
      rw [eraseSignaturesFrom_end (by simp), List.append_nil, slice?_end,
        TypeSyntax.eraseSignaturesFrom, List.reverse_reverse]
    | cons c r =>
      have hnext := ih r.length (Nat.lt_succ_self _) p (k ++ [c]) r rfl
      rw [← List.append_assoc p k, ← List.append_cons, List.reverse_concat,
        List.reverse_concat] at hnext
      cases hinert : inert? (c :: r) with
      | some q =>
        obtain ⟨lit, rest⟩ := q
        have hsplit := inert?_append hinert
        have hskip := ih rest.length (inert?_length_lt hinert) p (k ++ lit) rest rfl
        rw [← List.append_assoc p k, List.append_assoc _ lit, hsplit,
          @List.reverse_append _ (p ++ k), @List.reverse_append _ k] at hskip
        rw [eraseSignaturesFrom_inert (inertEnd_of_some hinert (p ++ k)) (utf8Length_lt _ c r),
          hskip, ← hsplit, Untyped.eraseSignaturesFrom_inert (hsplit.symm ▸ hinert)]
      | none =>
        by_cases hc : c = '('
        · subst hc
          obtain ⟨z, hz, hrel⟩ := signatureAt_eq (p ++ k) r
          cases hx : signature? (p ++ k).reverse r with
          | none =>
            rw [hx] at hrel
            cases hrel
            rw [eraseSignaturesFrom_skip hz (by simp), hnext, Untyped.eraseSignaturesFrom_none hx]
          | some x =>
            rw [hx] at hrel
            cases hrel with
            | @some _ y hspan =>
              obtain ⟨u, v, hsplit, hlead, hstart⟩ := hspan.start
              rcases exists_append_or_lt hsplit with ⟨m, rfl, hk⟩ | ⟨hlt, hbefore⟩
              · refine eraseSignaturesFrom_span hx hz hspan ⟨m, v, hk, hlead, hstart⟩ fun d hr ↦ ?_
                have hshorter : x.rest.length < ('(' :: r).length := by
                  rw [hr, List.length_cons, List.length_append]
                  omega
                have hrest := ih x.rest.length hshorter (p ++ k ++ '(' :: d) [] x.rest rfl
                rwa [List.append_nil, List.reverse_nil] at hrest
              · have hfar : k.reverse.length < x.lead := by rwa [List.length_reverse, ← hlead]
                rw [eraseSignaturesFrom_skip hz (by simp [hstart, hbefore]), hnext,
                  eraseSignaturesFrom_far hx hfar]
        · rw [Untyped.eraseSignaturesFrom_cons hinert hc, ← hnext]
          refine scan_from (i := 0) (fun i hi ↦ ?_) (Nat.zero_le _)
          obtain ⟨d, hbyte, hd⟩ := exists_byteAt?_within (d := '(') (by decide) hc (p ++ k) r hi
          exact eraseSignaturesFrom_byte (inertEnd_within hinert (p ++ k) hi) hbyte hd

/-- **The types of all signatures** are removed as in the text. -/
theorem eraseSignatures_eq (code : Text) :
    eraseSignatures code = some (TypeSyntax.eraseSignatures code) :=
  eraseSignaturesFrom_eq [] [] code

end PluginPack.Offset
