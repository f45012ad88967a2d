import PluginPack.Proofs.TypeSyntax.Continuation
import PluginPack.Proofs.Untyped.Parenthesis

/-!
# Signatures around a statement without parentheses

The scan for signatures looks in both directions from a parenthesis. In a statement without
parentheses nothing is looked for, and from a parenthesis behind the statement nothing is read back
over the end of its line or the semicolon that ends it. So once the scan has come to the statement,
it keeps it, and what it does behind it does not depend on what stands in front.
-/

namespace PluginPack

open Text Script

namespace TypeSyntax

variable {before kept k r t v w x y z : Text} {c q : Char} {d : Nat}

/-! ## Flat texts -/

/-- Code without opening parentheses, and literals and comments that are closed. -/
inductive IsFlat : Text → Prop
  | nil : IsFlat []
  | code {c : Char} {w : Text} :
      (∀ r, inert? (c :: (w ++ r)) = none) → c ≠ '(' → IsFlat w → IsFlat (c :: w)
  | literal {l w : Text} :
      (∀ r, inert? (l ++ (w ++ r)) = some (l, w ++ r)) → IsFlat w → IsFlat (l ++ w)

theorem IsFlat.isLexed (h : IsFlat w) : IsLexed w := by
  induction h with
  | nil => exact .nil
  | code hc _ _ ih => exact .code hc ih
  | literal hl _ ih => exact .literal hl ih

theorem IsFlat.append (hv : IsFlat v) (hw : IsFlat w) : IsFlat (v ++ w) := by
  induction hv with
  | nil => exact hw
  | @code c v hc hparen _ ih =>
    refine .code (w := v ++ w) (fun r ↦ ?_) hparen ih
    rw [List.append_assoc]
    exact hc _
  | literal hl _ ih =>
    rw [List.append_assoc]
    exact .literal (fun r ↦ by rw [List.append_assoc]; exact hl _) ih

theorem IsCode.isFlat (h : IsCode w) (hparen : '(' ∉ w) : IsFlat w := by
  induction w with
  | nil => exact .nil
  | cons c w ih =>
    obtain ⟨hc, hw⟩ := List.forall_mem_cons.mp h
    rw [List.mem_cons, not_or] at hparen
    exact .code (fun r ↦ inert?_eq_none hc.1 hc.2 _) (Ne.symm hparen.1) (ih hw hparen.2)

theorem isFlat_of_isString (h : Untyped.isString w = true) : IsFlat w := by
  rw [← List.append_nil w]
  exact .literal (fun r ↦ Untyped.inert?_append_of_isString h _) .nil

/-- The scan for signatures passes over a flat text. -/
theorem IsFlat.eraseSignaturesFrom_append (h : IsFlat w) (before kept r : Text) :
    eraseSignaturesFrom before kept (w ++ r) =
      eraseSignaturesFrom (w.reverse ++ before) (w.reverse ++ kept) r := by
  induction h generalizing before kept with
  | nil => rfl
  | @code c w hc hparen _ ih =>
    rw [List.cons_append, Untyped.eraseSignaturesFrom_cons (hc r) hparen, ih]
    simp
  | literal hl _ ih =>
    rw [List.append_assoc, Untyped.eraseSignaturesFrom_inert (hl r), ih]
    simp

/-! ## Reading back -/

theorem wordBefore?_eq (t : Text) : wordBefore? t =
    if (trimStart t).takeWhile Untyped.isPart = [] then none
    else some (((trimStart t).takeWhile Untyped.isPart).reverse,
      (trimStart t).dropWhile Untyped.isPart) := by
  have hpart : (fun c ↦ isAlphanumeric c || c == '_' || c == '$') = Untyped.isPart := rfl
  simp only [wordBefore?, hpart]
  cases (trimStart t).takeWhile Untyped.isPart with
  | nil => rfl
  | cons c w => rw [if_neg (List.cons_ne_nil c w)]

theorem beforeTypeParameters?_angle (h : trimStart before = '>' :: r) :
    beforeTypeParameters? before = if r.head? = some '=' then none else openAngle? 1 r := by
  rw [beforeTypeParameters?, h]
  split_ifs with hr
  · obtain ⟨r, rfl⟩ := List.head?_eq_some_iff.mp hr
    rfl
  · split
    · rename_i heq
      exact absurd (by rw [(List.cons.inj heq).2]; rfl) hr
    · rename_i heq
      rw [(List.cons.inj heq).2]
    · rename_i hnot
      exact absurd rfl (hnot r)

theorem beforeTypeParameters?_of_head (h : (trimStart before).head? ≠ some '>') :
    beforeTypeParameters? before = none := by
  rw [beforeTypeParameters?]
  split
  · rfl
  · rename_i heq
    exact absurd (by rw [heq]; rfl) h
  · rfl

theorem openAngle?_suffix {x : Text} (h : openAngle? d t = some x) : x <:+ t := by
  fun_induction openAngle? d t with
  | case1 | case5 => cases h
  | case2 d r ih => exact (ih h).trans (List.suffix_cons _ r)
  | case3 =>
    cases h
    exact List.suffix_cons _ _
  | case4 d r _ _ ih => exact (ih h).trans (List.suffix_cons _ r)
  | case6 d c r _ _ _ ih => exact (ih h).trans (List.suffix_cons _ r)

theorem beforeTypeParameters?_suffix {x : Text} (h : beforeTypeParameters? before = some x) :
    x <:+ before := by
  by_cases hangle : (trimStart before).head? = some '>'
  · obtain ⟨r, hr⟩ := List.head?_eq_some_iff.mp hangle
    rw [beforeTypeParameters?_angle hr] at h
    split_ifs at h
    have hsuffix : '>' :: r <:+ before := hr ▸ List.dropWhile_suffix _
    exact (openAngle?_suffix h).trans ((List.suffix_cons _ _).trans hsuffix)
  · rw [beforeTypeParameters?_of_head hangle] at h
    cases h

/-- The signature whose parameters begin `t`, where `context` stands in front of it. -/
def signatureWith? (context : Context) (lead : Nat) (t : Text) : Option Signature :=
  (closeParen? t).bind fun p ↦ (tail? p.2).bind fun tail ↦
    if tail.follow = .arrow ∨ context = .function ∨ context = .name then
      some ⟨lead, p.1, tail.gap, p.2.drop tail.width⟩
    else none

theorem signature?_eq_signatureWith? (before t : Text) : signature? before t =
    signatureWith? (contextOf ((beforeTypeParameters? before).getD before))
      (before.length - ((beforeTypeParameters? before).getD before).length) t := rfl

theorem lead_of_signatureWith? {context : Context} {s : Signature}
    (h : signatureWith? context n t = some s) : s.lead = n := by
  obtain ⟨p, -, h⟩ := Option.bind_eq_some_iff.mp h
  obtain ⟨tail, -, h⟩ := Option.bind_eq_some_iff.mp h
  split at h
  · cases h
    rfl
  · cases h

/-! ## Barriers -/

/-- White space and semicolons. -/
def isCloser (c : Char) : Bool := isWhite c || c == ';'

/-- What closes a statement and its line, read backwards to the quote at the statement's end. -/
structure IsBarrier (k : Text) : Prop where
  closers : ∃ x q, k = x ++ [q] ∧ (∀ c ∈ x, isCloser c = true) ∧ isQuote q = true
  ends : ';' ∈ k ∨ '\n' ∈ k

theorem openAngle?_closers (hx : ∀ c ∈ x, isCloser c = true) (hends : ';' ∈ x ∨ '\n' ∈ x) (d : Nat)
    (z : Text) : openAngle? d (x ++ z) = none := by
  induction x with
  | nil => simp at hends
  | cons c x ih =>
    obtain ⟨hc, hx⟩ := List.forall_mem_cons.mp hx
    rw [List.cons_append, openAngle?, if_neg (by rintro rfl; cases hc),
      if_neg (by rintro rfl; cases hc)]
    split
    · rfl
    · rename_i hnot
      refine ih hx ?_
      simp only [not_or] at hnot
      simp only [List.mem_cons] at hends
      rcases hends with (rfl | h) | (rfl | h)
      · exact absurd rfl hnot.1
      · exact .inl h
      · exact absurd rfl hnot.2.2.2.2.2.2
      · exact .inr h

namespace IsBarrier

variable (hk : IsBarrier k)

include hk

theorem openAngle?_eq_none (d : Nat) (z : Text) : openAngle? d (k ++ z) = none := by
  obtain ⟨⟨x, q, rfl, hx, hq⟩, hends⟩ := hk
  have hquote : q ≠ ';' ∧ q ≠ '\n' := by
    constructor <;> rintro rfl <;> cases hq
  rw [List.append_assoc]
  refine openAngle?_closers hx ?_ d _
  simpa [hquote.1.symm, hquote.2.symm] using hends

/-- Behind white space a barrier goes on with a semicolon or a quote. -/
theorem exists_trimStart : ∃ c k', (∀ z, trimStart (k ++ z) = c :: (k' ++ z)) ∧
    Untyped.isPart c = false ∧ c ≠ '>' := by
  obtain ⟨⟨x, q, rfl, hx, hq⟩, -⟩ := hk
  induction x with
  | nil =>
    rw [isQuote, Bool.or_eq_true, Bool.or_eq_true, beq_iff_eq, beq_iff_eq, beq_iff_eq] at hq
    rcases hq with (rfl | rfl) | rfl
    · exact ⟨_, [], fun z ↦ rfl, by decide, by decide⟩
    · exact ⟨_, [], fun z ↦ rfl, by decide, by decide⟩
    · exact ⟨_, [], fun z ↦ rfl, by decide, by decide⟩
  | cons c x ih =>
    obtain ⟨hc, hx⟩ := List.forall_mem_cons.mp hx
    by_cases hwhite : isWhite c = true
    · obtain ⟨e, k', htrim, hrest⟩ := ih hx
      refine ⟨e, k', fun z ↦ ?_, hrest⟩
      rw [← htrim z]
      exact List.dropWhile_cons_of_pos hwhite
    · obtain rfl : c = ';' := by simpa [isCloser, hwhite] using hc
      exact ⟨';', x ++ [q], fun z ↦ rfl, by decide, by decide⟩

theorem exists_head : ∃ c k', k = c :: k' ∧ (isCloser c = true ∨ isQuote c = true) := by
  obtain ⟨⟨x, q, rfl, hx, hq⟩, -⟩ := hk
  cases x with
  | nil => exact ⟨q, [], rfl, .inr hq⟩
  | cons c x => exact ⟨c, x ++ [q], rfl, .inl (hx c List.mem_cons_self)⟩

theorem stops_isPart (z : Text) : Stops Untyped.isPart (k ++ z) := by
  obtain ⟨c, k', rfl, hc⟩ := hk.exists_head
  refine stops_cons.mpr ?_
  simp only [isCloser, isQuote, Bool.or_eq_true, beq_iff_eq] at hc
  rcases hc with (hc | rfl) | ((rfl | rfl) | rfl)
  · exact Untyped.isPart_of_isWhite hc
  all_goals decide

/-! ### Reading back -/

/-- No list of type parameters that ends in front of a barrier reaches over it. -/
theorem openAngle?_append (d : Nat) (y : Text) :
    (∀ z, openAngle? d (y ++ (k ++ z)) = none) ∨
      ∃ y', y' <:+ y ∧ ∀ z, openAngle? d (y ++ (k ++ z)) = some (y' ++ (k ++ z)) := by
  induction y generalizing d with
  | nil => exact .inl fun z ↦ hk.openAngle?_eq_none d z
  | cons c y ih =>
    have hnext {d' : Nat} (hstep : ∀ z, openAngle? d (c :: y ++ (k ++ z)) =
        openAngle? d' (y ++ (k ++ z))) :
        (∀ z, openAngle? d (c :: y ++ (k ++ z)) = none) ∨
          ∃ y', y' <:+ c :: y ∧
            ∀ z, openAngle? d (c :: y ++ (k ++ z)) = some (y' ++ (k ++ z)) := by
      rcases ih d' with h | ⟨y', hy, h⟩
      · exact .inl fun z ↦ (hstep z).trans (h z)
      · exact .inr ⟨y', hy.trans (List.suffix_cons c y), fun z ↦ (hstep z).trans (h z)⟩
    by_cases hclose : c = '>'
    · exact hnext fun z ↦ by rw [List.cons_append, openAngle?, if_pos hclose]
    · by_cases hopen : c = '<'
      · by_cases hd : d ≤ 1
        · refine .inr ⟨y, List.suffix_cons c y, fun z ↦ ?_⟩
          rw [List.cons_append, openAngle?, if_neg hclose, if_pos hopen, if_pos hd]
        · exact hnext fun z ↦ by
            rw [List.cons_append, openAngle?, if_neg hclose, if_pos hopen, if_neg hd]
      · by_cases hstop : c = ';' ∨ c = '{' ∨ c = '}' ∨ c = '(' ∨ c = ')' ∨ c = '=' ∨ c = '\n'
        · refine .inl fun z ↦ ?_
          rw [List.cons_append, openAngle?, if_neg hclose, if_neg hopen, if_pos hstop]
        · exact hnext fun z ↦ by
            rw [List.cons_append, openAngle?, if_neg hclose, if_neg hopen, if_neg hstop]

/-- Behind white space stands what is left of the text in front of the barrier, or the barrier. -/
theorem trimStart_append (y : Text) :
    (∃ y', y' <:+ y ∧ y' ≠ [] ∧ ∀ z, trimStart (y ++ (k ++ z)) = y' ++ (k ++ z)) ∨
      ∃ c k', (∀ z, trimStart (y ++ (k ++ z)) = c :: (k' ++ z)) ∧
        Untyped.isPart c = false ∧ c ≠ '>' := by
  by_cases hy : y.dropWhile isWhite = []
  · right
    obtain ⟨c, k', htrim, hc⟩ := hk.exists_trimStart
    refine ⟨c, k', fun z ↦ ?_, hc⟩
    rw [← htrim z]
    exact Text.trimStart_append (List.dropWhile_eq_nil_iff.mp hy) _
  · left
    refine ⟨_, List.dropWhile_suffix isWhite, hy, fun z ↦ ?_⟩
    rw [trimStart, List.dropWhile_append, if_neg (by simpa using hy)]

theorem beforeTypeParameters?_append (y : Text) :
    (∀ z, beforeTypeParameters? (y ++ (k ++ z)) = none) ∨
      ∃ y', y' <:+ y ∧ ∀ z, beforeTypeParameters? (y ++ (k ++ z)) = some (y' ++ (k ++ z)) := by
  rcases hk.trimStart_append y with ⟨y', hy, hne, htrim⟩ | ⟨c, k', htrim, -, hc⟩
  · obtain ⟨c, y', rfl⟩ := List.exists_cons_of_ne_nil hne
    by_cases hclose : c = '>'
    · subst hclose
      have hy' : y' <:+ y := (List.suffix_cons _ y').trans hy
      by_cases hequals : y'.head? = some '='
      · obtain ⟨y', rfl⟩ := List.head?_eq_some_iff.mp hequals
        exact .inl fun z ↦ by rw [beforeTypeParameters?, htrim]; rfl
      · have hstep (z : Text) :
            beforeTypeParameters? (y ++ (k ++ z)) = openAngle? 1 (y' ++ (k ++ z)) := by
          rw [beforeTypeParameters?, htrim, List.cons_append]
          split
          · rename_i heq
            obtain ⟨c, k', hk', hc⟩ := hk.exists_head
            have hhead := congrArg List.head? (List.cons.inj heq).2
            cases y' with
            | nil =>
              rw [List.nil_append, hk'] at hhead
              obtain rfl : c = '=' := Option.some.inj hhead
              exact absurd hc (by decide)
            | cons e y' => exact absurd hhead hequals
          · rename_i heq
            rw [(List.cons.inj heq).2]
          · rename_i hne
            exact absurd rfl (hne _)
        simp only [hstep]
        rcases hk.openAngle?_append 1 y' with h | ⟨y'', hsuffix, h⟩
        · exact .inl h
        · exact .inr ⟨y'', hsuffix.trans hy', h⟩
    · refine .inl fun z ↦ ?_
      rw [beforeTypeParameters?, htrim]
      split
      · rename_i heq
        exact absurd (List.cons.inj heq).1 hclose
      · rename_i heq
        exact absurd (List.cons.inj heq).1 hclose
      · rfl
  · refine .inl fun z ↦ ?_
    rw [beforeTypeParameters?, htrim]
    split
    · rename_i heq
      exact absurd (List.cons.inj heq).1 hc
    · rename_i heq
      exact absurd (List.cons.inj heq).1 hc
    · rfl

/-- No word that ends in front of a barrier reaches over it. -/
theorem wordBefore?_append (y : Text) :
    (∀ z, wordBefore? (y ++ (k ++ z)) = none) ∨
      ∃ w y', ∀ z, wordBefore? (y ++ (k ++ z)) = some (w, y' ++ (k ++ z)) := by
  rcases hk.trimStart_append y with ⟨y', -, -, htrim⟩ | ⟨c, k', htrim, hc, -⟩
  · have htake (z : Text) :
        (y' ++ (k ++ z)).takeWhile Untyped.isPart = y'.takeWhile Untyped.isPart := by
      rw [List.takeWhile_append, (hk.stops_isPart z).takeWhile_eq, List.append_nil]
      split
      · rename_i hall
        exact (List.IsPrefix.eq_of_length (List.takeWhile_prefix _) hall).symm
      · rfl
    have hdrop (z : Text) : (y' ++ (k ++ z)).dropWhile Untyped.isPart =
        y'.dropWhile Untyped.isPart ++ (k ++ z) := by
      rw [List.dropWhile_append, (hk.stops_isPart z).dropWhile_eq]
      split
      · rename_i hempty
        rw [List.isEmpty_iff.mp hempty, List.nil_append]
      · rfl
    by_cases hw : y'.takeWhile Untyped.isPart = []
    · exact .inl fun z ↦ by rw [wordBefore?_eq, htrim, htake, if_pos hw]
    · exact .inr ⟨_, _, fun z ↦ by rw [wordBefore?_eq, htrim, htake, if_neg hw, hdrop]⟩
  · refine .inl fun z ↦ ?_
    rw [wordBefore?_eq, htrim, List.takeWhile_cons_of_neg (by simp [hc]), if_pos rfl]

theorem contextOf_append (y : Text) : ∃ x, ∀ z, contextOf (y ++ (k ++ z)) = x := by
  refine ⟨contextOf (y ++ (k ++ [])), fun z ↦ ?_⟩
  rcases hk.wordBefore?_append y with h | ⟨w, y', h⟩
  · simp only [contextOf, h]
  · rcases hk.wordBefore?_append y' with h' | ⟨w', y'', h'⟩
    · simp only [contextOf, h, h']
    · simp only [contextOf, h, h']

/-- **What is read back from a parenthesis** does not depend on what stands behind a barrier. -/
theorem signature?_append (y t : Text) :
    (∀ z, signature? (y ++ (k ++ z)) t = none) ∨
      ∃ x, x.lead ≤ y.length ∧ ∀ z, signature? (y ++ (k ++ z)) t = some x := by
  have hhead : ∃ y', y' <:+ y ∧
      ∀ z, (beforeTypeParameters? (y ++ (k ++ z))).getD (y ++ (k ++ z)) = y' ++ (k ++ z) := by
    rcases hk.beforeTypeParameters?_append y with h | ⟨y', hy, h⟩
    · exact ⟨y, List.suffix_refl y, fun z ↦ by rw [h, Option.getD_none]⟩
    · exact ⟨y', hy, fun z ↦ by rw [h, Option.getD_some]⟩
  obtain ⟨y', hy, hhead⟩ := hhead
  obtain ⟨x, hcontext⟩ := hk.contextOf_append y'
  have hlead (z : Text) :
      (y ++ (k ++ z)).length - (y' ++ (k ++ z)).length = y.length - y'.length := by
    simp only [List.length_append]
    omega
  have hread (z : Text) :
      signature? (y ++ (k ++ z)) t = signatureWith? x (y.length - y'.length) t := by
    rw [signature?_eq_signatureWith?, hhead, hcontext, hlead]
  simp only [hread]
  cases hs : signatureWith? x (y.length - y'.length) t with
  | none => exact .inl fun _ ↦ rfl
  | some s => exact .inr ⟨s, (lead_of_signatureWith? hs).trans_le (Nat.sub_le _ _), fun _ ↦ rfl⟩

/-! ### The scan behind a barrier -/

/-- **The scan behind a barrier** does not depend on what stands in front of it, and what is held
back from in front of it stays. -/
theorem eraseSignaturesFrom_behind (y z z' held kept t : Text) (h : held = y ∨ kept = []) :
    eraseSignaturesFrom (y ++ (k ++ z)) (held ++ kept) t =
      kept.reverse ++ eraseSignaturesFrom (y ++ (k ++ z')) held t := by
  induction hn : t.length using Nat.strongRecOn generalizing y held kept t with
  | ind n ih =>
    subst hn
    cases t with
    | nil => simp [eraseSignaturesFrom]
    | cons c r =>
      have hnext : eraseSignaturesFrom (c :: (y ++ (k ++ z))) (c :: (held ++ kept)) r =
          kept.reverse ++ eraseSignaturesFrom (c :: (y ++ (k ++ z'))) (c :: held) r :=
        ih r.length (by simp) (c :: y) (c :: held) kept r (h.imp_left (congrArg (c :: ·))) rfl
      cases hinert : inert? (c :: r) with
      | some p =>
        obtain ⟨lit, rest⟩ := p
        have hlit := inert?_append hinert
        have hskip := ih rest.length (inert?_length_lt hinert) (lit.reverse ++ y)
          (lit.reverse ++ held) kept rest (h.imp_left (congrArg (lit.reverse ++ ·))) rfl
        rw [← hlit, Untyped.eraseSignaturesFrom_inert (hlit ▸ hinert),
          Untyped.eraseSignaturesFrom_inert (hlit ▸ hinert)]
        simpa using hskip
      | none =>
        by_cases hc : c = '('
        · subst hc
          rcases hk.signature?_append y r with hs | ⟨s, hlead, hs⟩
          · rw [Untyped.eraseSignaturesFrom_none (hs z), Untyped.eraseSignaturesFrom_none (hs z'),
              hnext]
          · have hlength : (held ++ kept).length = held.length + kept.length := List.length_append
            by_cases hheld : s.lead ≤ held.length
            · have hlt : s.rest.length < ('(' :: r).length := by
                have hle := (signature?_rest_suffix (hs z)).length_le
                rw [List.length_cons]
                omega
              have hrest := ih s.rest.length hlt
                ((Marker.consumed ('(' :: r) s.rest).reverse ++ y) [] [] s.rest (.inr rfl) rfl
              rw [Untyped.eraseSignaturesFrom_some (hs z) (by omega),
                Untyped.eraseSignaturesFrom_some (hs z') hheld,
                List.drop_append_of_le_length hheld]
              simpa using hrest
            · -- A signature that begins in front of what is held is only met without more to keep.
              have hfar : (held ++ kept).length < s.lead := by
                rcases h with rfl | rfl
                · exact absurd hlead hheld
                · rw [List.append_nil]
                  exact Nat.lt_of_not_le hheld
              rw [eraseSignaturesFrom_far (hs z) hfar,
                eraseSignaturesFrom_far (hs z') (Nat.lt_of_not_le hheld), hnext]
        · rw [Untyped.eraseSignaturesFrom_cons hinert hc,
            Untyped.eraseSignaturesFrom_cons hinert hc, hnext]

end IsBarrier

theorem isFlat_of_isCloser (hx : ∀ c ∈ x, isCloser c = true) : IsFlat x := by
  refine IsCode.isFlat (fun c hc ↦ ?_) fun hparen ↦ absurd (hx _ hparen) (by decide)
  have hcloser := hx c hc
  rw [isCloser, Bool.or_eq_true, beq_iff_eq] at hcloser
  rcases hcloser with hwhite | rfl
  · have hplain := Untyped.isPlain_of_isWhite hwhite
    exact ⟨Untyped.isQuote_of_isPlain hplain, by rintro rfl; cases hwhite⟩
  · decide

/-- **Statements without parentheses.** The scan keeps what it has not written yet, the statement
and what closes it, and goes on as if it had begun with the statement. -/
theorem IsFlat.exists_eraseSignaturesFrom (hw : IsFlat w)
    (hquote : ∃ q ∈ w.getLast?, isQuote q = true)
    (hx : ∀ c ∈ x, isCloser c = true) (hends : ';' ∈ x ∨ '\n' ∈ x ∨ r = []) :
    ∃ out, ∀ before kept, eraseSignaturesFrom before kept (w ++ (x ++ r)) =
      kept.reverse ++ (w ++ (x ++ out)) := by
  have hpass (before kept : Text) : eraseSignaturesFrom before kept (w ++ (x ++ r)) =
      eraseSignaturesFrom (x.reverse ++ (w.reverse ++ before)) (x.reverse ++ (w.reverse ++ kept))
        r := by
    rw [hw.eraseSignaturesFrom_append, (isFlat_of_isCloser hx).eraseSignaturesFrom_append]
  by_cases hr : r = []
  · subst hr
    refine ⟨[], fun before kept ↦ ?_⟩
    rw [hpass, eraseSignaturesFrom]
    simp
  · obtain ⟨q, hlast, hq⟩ := hquote
    obtain ⟨v, rfl⟩ := List.getLast?_eq_some_iff.mp hlast
    have hbarrier : IsBarrier (x.reverse ++ [q]) := by
      refine ⟨⟨x.reverse, q, rfl, fun c hc ↦ hx c (List.mem_reverse.mp hc), hq⟩, ?_⟩
      simp only [List.mem_append, List.mem_reverse]
      rcases hends with h | h | h
      · exact .inl (.inl h)
      · exact .inr (.inl h)
      · exact absurd h hr
    refine ⟨eraseSignaturesFrom (x.reverse ++ [q] ++ []) [] r, fun before kept ↦ ?_⟩
    have hkept := hbarrier.eraseSignaturesFrom_behind [] (v.reverse ++ before) [] []
      (x.reverse ++ ((v ++ [q]).reverse ++ kept)) r (.inl rfl)
    simp only [List.nil_append] at hkept
    rw [hpass]
    simpa using hkept

end TypeSyntax

end PluginPack
