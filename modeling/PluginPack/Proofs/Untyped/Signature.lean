import PluginPack.Proofs.TypeSyntax.Length
import PluginPack.Proofs.Untyped.Colon
import PluginPack.Proofs.Untyped.Parameter

/-!
# Signatures in scripts without types

A parenthesis of a script without types is taken for the beginning of a signature when its group is
a parameter list, which then stays as it is, or when a colon behind it is misread as the beginning
of a return type, and then something is lost. So the signatures of a script are kept exactly when no
colon in it is misread.
-/

namespace PluginPack

open Text Script TypeSyntax

namespace Untyped

variable {b : Bracket} {c : Char} {last r w : Text} {s : Symbol} {o t u : Token} {is : List Item}
  {done rest ts us vs : List Token}

/-! ## Passing over tokens -/

theorem eraseSignaturesFrom_cons {before kept : Text} (hinert : inert? (c :: r) = none)
    (hc : c ≠ '(') :
    eraseSignaturesFrom before kept (c :: r) = eraseSignaturesFrom (c :: before) (c :: kept) r := by
  rw [eraseSignaturesFrom]
  split
  · rename_i h
    rw [hinert] at h
    cases h
  · rw [if_neg hc]

theorem eraseSignaturesFrom_inert {before kept : Text} (hinert : inert? (w ++ r) = some (w, r)) :
    eraseSignaturesFrom before kept (w ++ r) =
      eraseSignaturesFrom (w.reverse ++ before) (w.reverse ++ kept) r := by
  obtain ⟨c, s, hw⟩ := exists_cons_of_inert? hinert
  rw [hw] at hinert ⊢
  rw [eraseSignaturesFrom]
  split
  · rename_i h
    rw [hinert] at h
    cases h
    rfl
  · rename_i h
    rw [hinert] at h
    cases h

/-- At a parenthesis a signature is written without its types, unless it begins in front of what is
kept. -/
theorem eraseSignaturesFrom_paren (before kept r : Text) :
    eraseSignaturesFrom before kept ('(' :: r) =
      match signature? before r with
      | some x =>
        if x.lead ≤ kept.length then
          (kept.drop x.lead).reverse ++ x.render ++
            eraseSignaturesFrom ((Marker.consumed ('(' :: r) x.rest).reverse ++ before) [] x.rest
        else eraseSignaturesFrom ('(' :: before) ('(' :: kept) r
      | none => eraseSignaturesFrom ('(' :: before) ('(' :: kept) r := by
  rw [eraseSignaturesFrom]
  split
  · rename_i hinert
    rw [inert?_eq_none (by decide) (by decide) r] at hinert
    cases hinert
  · rw [if_pos rfl]
    split
    · rename_i h
      simp only [h]
    · rename_i h
      rw [h]

theorem eraseSignaturesFrom_none {before kept : Text} (h : signature? before r = none) :
    eraseSignaturesFrom before kept ('(' :: r) =
      eraseSignaturesFrom ('(' :: before) ('(' :: kept) r := by
  rw [eraseSignaturesFrom_paren, h]

theorem eraseSignaturesFrom_some {before kept : Text} {x : Signature}
    (h : signature? before r = some x) (hlead : x.lead ≤ kept.length) :
    eraseSignaturesFrom before kept ('(' :: r) = (kept.drop x.lead).reverse ++ x.render ++
      eraseSignaturesFrom ((Marker.consumed ('(' :: r) x.rest).reverse ++ before) [] x.rest := by
  rw [eraseSignaturesFrom_paren, h]
  exact if_pos hlead

theorem eraseSignaturesFrom_append {before kept : Text}
    (hw : ∀ c ∈ w, (∀ r, inert? (c :: r) = none) ∧ c ≠ '(') (r : Text) :
    eraseSignaturesFrom before kept (w ++ r) =
      eraseSignaturesFrom (w.reverse ++ before) (w.reverse ++ kept) r := by
  induction w generalizing before kept with
  | nil => rfl
  | cons c w ih =>
    obtain ⟨hinert, hc⟩ := hw c List.mem_cons_self
    rw [List.cons_append, eraseSignaturesFrom_cons (hinert _) hc,
      ih fun d hd ↦ hw d (List.mem_cons_of_mem c hd), List.reverse_cons]
    simp only [List.append_assoc, List.singleton_append]

theorem eraseSignaturesFrom_white {before kept : Text} (hw : ∀ c ∈ w, isWhite c = true) (r : Text) :
    eraseSignaturesFrom before kept (w ++ r) =
      eraseSignaturesFrom (w.reverse ++ before) (w.reverse ++ kept) r := by
  refine eraseSignaturesFrom_append (fun c hc ↦ ⟨?_, ?_⟩) r
  · exact inert?_of_isPlain (isPlain_of_isWhite (hw c hc))
  · rintro rfl
    cases hw _ hc

/-- Tokens that open no parenthesis are passed over. -/
theorem eraseSignaturesFrom_token {before kept : Text} (ht : t.IsSpelled)
    (hparen : ∀ b : Bracket, t.kind = .opening b → b.opening ≠ '(') (r : Text) :
    eraseSignaturesFrom before kept (t.gap ++ (t.text ++ r)) =
      eraseSignaturesFrom (t.text.reverse ++ (t.gap.reverse ++ before))
        (t.text.reverse ++ (t.gap.reverse ++ kept)) r := by
  rw [eraseSignaturesFrom_white ht.1]
  by_cases hstring : t.kind = .string
  · have hspells := ht.2
    rw [hstring] at hspells
    exact eraseSignaturesFrom_inert (inert?_append_of_isString hspells r)
  · refine eraseSignaturesFrom_append (fun c hc ↦ ⟨inert?_of_spells hstring ht.2 hc, ?_⟩) r
    rintro rfl
    have hopens : t.kind = .opening .params ∨ t.kind = .opening .condition ∨
        t.kind = .opening .call := by
      rcases spells_iff.mp ht.2 with ⟨-, h⟩ | ⟨-, h⟩ | ⟨h, -⟩ | h
      · exact absurd (all_of_isIdentifier h _ hc) (by decide)
      · exact absurd (all_of_isNumber h _ hc) (by decide)
      · exact absurd h hstring
      · have hall : ∀ k ∈ Kind.all, ∀ w ∈ k.spellings, '(' ∈ w →
            k = .opening .params ∨ k = .opening .condition ∨ k = .opening .call := by decide
        exact hall _ (Kind.mem_all _) _ h hc
    rcases hopens with hk | hk | hk <;> exact hparen _ hk rfl

/-! ## Parentheses -/

/-- What is read of a group in round brackets. -/
theorem signature?_group {c : Token} (h : Derives [.symbol s] us)
    (hlaid : Laid (done ++ o :: (us ++ c :: rest))) (last : Text) :
    signature? (write done ++ o.gap).reverse
        (write us ++ (c.gap ++ ')' :: (write rest ++ last))) =
      (tail? (write rest ++ last)).bind fun x ↦
        if x.follow = .arrow ∨ TakesParameters done.getLast? then
          some ⟨0, write us ++ c.gap, x.gap, (write rest ++ last).drop x.width⟩
        else none := by
  have hgroup : Laid (o :: (us ++ c :: rest)) := hlaid.of_append
  have hclosing : Laid (c :: rest) := hgroup.tail.of_append
  rw [signature?, closeParen?_write h hgroup.tail.left_of_append.isSpelled hclosing.white,
    Option.bind_some, beforeTypeParameters?_write hlaid.left_of_append.isSpelled hgroup.white]
  simp only [Option.getD_none, Nat.sub_self, contextOf_write hlaid.left_of_append hgroup.white]

/-- A signature is read from a parameter list or at a colon that is misread. -/
theorem isRead_or_misread {prev : Option Token} (hlaid : Laid rest)
    (hlast : ∀ c ∈ last, isWhite c = true) {x : Tail} (hx : tail? (write rest ++ last) = some x)
    (htakes : x.follow = .arrow ∨ TakesParameters prev) :
    IsRead prev rest ∨ ∃ u vs, rest = u :: vs ∧ u.kind = .colon ∧ Misread prev vs := by
  cases tails_of_tail? hlaid hlast hx with
  | arrow ht => exact .inl ⟨_, rfl, .inl ht⟩
  | brace ht => exact .inl ⟨_, rfl, .inr ⟨ht, htakes.resolve_left (by simp)⟩⟩
  | colon ht hreads hbrace =>
    refine .inr ⟨_, _, rfl, ht, hbrace, ?_⟩
    cases hfollow : x.follow with
    | arrow => exact .inl (hfollow ▸ hreads)
    | body => exact .inr ⟨hfollow ▸ hreads, htakes.resolve_left (by simp [hfollow])⟩

/-- Behind a parameter list nothing is taken along. -/
theorem exists_tail?_of_isRead {prev : Option Token} (hlaid : Laid rest) (h : IsRead prev rest)
    (last : Text) : ∃ x, tail? (write rest ++ last) = some x ∧ x.gap = [] ∧ x.width = 0 ∧
      (x.follow = .arrow ∨ TakesParameters prev) := by
  obtain ⟨u, hu, h⟩ := h
  obtain ⟨vs, rfl⟩ : ∃ vs, rest = u :: vs := by
    cases rest with
    | nil => cases hu
    | cons v vs => exact ⟨vs, by rw [Option.mem_some.mp hu]⟩
  rcases h with harrow | ⟨hbrace, htakes⟩
  · exact ⟨_, tail?_arrow hlaid harrow last, rfl, rfl, .inl rfl⟩
  · exact ⟨_, tail?_brace hlaid hbrace last, rfl, rfl, .inr htakes⟩

/-- No parameters stand behind a word that takes a condition. -/
theorem not_takesParameters (h : Laid (done ++ t :: ts)) (ht : t.kind = .opening .condition) :
    ¬TakesParameters done.getLast? := by
  rcases List.eq_nil_or_concat done with rfl | ⟨us, u, rfl⟩
  · rintro ⟨u, ⟨⟩, -⟩
  · rw [List.concat_eq_append, List.append_assoc] at h
    have hpair : Laid (u :: t :: ts) := h.of_append
    have hcontrol : u.kind = .control := by
      have hall : ∀ k ∈ Kind.all, follows k (.opening .condition) = true → k = .control := by
        decide
      exact hall _ (Kind.mem_all _) (ht ▸ hpair.adjacent.1)
    have hspells := hpair.spells
    rw [hcontrol] at hspells
    have hall : ∀ w ∈ Kind.control.spellings, lastWord w ∈ controlKeywords := by decide
    rintro ⟨v, hv, -, htakes⟩
    rw [List.concat_eq_append, List.getLast?_append, List.getLast?_singleton, Option.some_or] at hv
    obtain rfl := Option.mem_some.mp hv
    exact htakes (hall u.text (by simpa [Kind.spells] using hspells))

/-- What is read as a parameter list is one. -/
theorem eq_params_of_isRead {c : Token} (hround : b.opening = '(') (ho : o.kind = .opening b)
    (hc : c.kind = .closing b) (hlaid : Laid (done ++ o :: (us ++ c :: rest)))
    (h : IsRead done.getLast? rest) : b = .params := by
  obtain ⟨u, hu, h⟩ := h
  have hgroup : Laid (o :: (us ++ c :: rest)) := hlaid.of_append
  have hclosing : Laid (c :: rest) := hgroup.tail.of_append
  have hfollows := (hclosing.2.1 u hu).1
  rw [hc] at hfollows
  cases b with
  | params => rfl
  | condition =>
    rcases h with harrow | ⟨-, htakes⟩
    · rw [harrow] at hfollows
      cases hfollows
    · exact (not_takesParameters hlaid ho htakes).elim
  | call =>
    rcases h with h | ⟨h, -⟩
    · rw [h] at hfollows
      cases hfollows
    · rw [h] at hfollows
      cases hfollows
  | square => cases hround
  | brace => cases hround

/-! ## What becomes of the rest of a script -/

/-- One text is another when a condition holds, and shorter than the other when it does not. -/
def EqualOrShorter (p : Prop) (x y : Text) : Prop := (p → x = y) ∧ (¬p → x.length < y.length)

theorem EqualOrShorter.append_left {p : Prop} {x y : Text} (h : EqualOrShorter p x y) (w : Text) :
    EqualOrShorter p (w ++ x) (w ++ y) := by
  refine ⟨fun hp ↦ by rw [h.1 hp], fun hp ↦ ?_⟩
  have hlt := h.2 hp
  simp only [List.length_append]
  omega

variable {opened opened' : List (Option Token)}

/-- What stands behind `done` is kept when no colon in it is misread, and loses something
otherwise. -/
def Settled (opened : List (Option Token)) (done todo : List Token) (last : Text) : Prop :=
  ∀ kept, EqualOrShorter (NoneMisread opened done.getLast? todo)
    (eraseSignaturesFrom (write done).reverse kept (write todo ++ last))
    (kept.reverse ++ (write todo ++ last))

/-- A token that opens no parenthesis is kept. -/
theorem Settled.cons (h : Settled opened' (done ++ [t]) rest last) (ht : t.IsSpelled)
    (hparen : ∀ b : Bracket, t.kind = .opening b → b.opening ≠ '(')
    (hnone : NoneMisread opened done.getLast? (t :: rest) ↔ NoneMisread opened' (some t) rest) :
    Settled opened done (t :: rest) last := by
  intro kept
  have hrest := h (t.text.reverse ++ (t.gap.reverse ++ kept))
  rw [List.getLast?_concat, ← hnone, write_append, write_cons, write_nil, List.append_nil] at hrest
  simp only [List.reverse_append, List.reverse_reverse, List.append_assoc] at hrest
  rw [write_cons, List.append_assoc, List.append_assoc, eraseSignaturesFrom_token ht hparen]
  exact hrest

section Group

variable {c : Token} (hround : b.opening = '(') (ho : o.kind = .opening b)
  (hc : c.kind = .closing b)
  (h : Derives [.symbol s] us) (hlaid : Laid (done ++ o :: (us ++ c :: rest)))

include hround ho hc hlaid

theorem write_round (last : Text) : write (o :: (us ++ c :: rest)) ++ last =
    o.gap ++ '(' :: (write us ++ (c.gap ++ ')' :: (write rest ++ last))) := by
  have hgroup : Laid (o :: (us ++ c :: rest)) := hlaid.of_append
  have hclosing : Laid (c :: rest) := hgroup.tail.of_append
  have hround' : b.closing = ')' := by cases b <;> first | rfl | cases hround
  rw [write_group hgroup.1 ho hclosing.1 hc, hround, hround']
  simp

theorem eraseSignaturesFrom_round (kept last : Text) :
    eraseSignaturesFrom (write done).reverse kept (write (o :: (us ++ c :: rest)) ++ last) =
      eraseSignaturesFrom (write done ++ o.gap).reverse (o.gap.reverse ++ kept)
        ('(' :: (write us ++ (c.gap ++ ')' :: (write rest ++ last)))) := by
  have hgroup : Laid (o :: (us ++ c :: rest)) := hlaid.of_append
  rw [write_round hround ho hc hlaid, eraseSignaturesFrom_white hgroup.white, List.reverse_append]

include h

/-- A parameter list is kept. -/
theorem Settled.of_isRead (hproper : (Item.group b s).isProper = true)
    (hread : IsRead done.getLast? rest)
    (hrest : Settled opened (done ++ o :: (us ++ [c])) rest last) :
    Settled opened done (o :: (us ++ c :: rest)) last := by
  have hgroup : Laid (o :: (us ++ c :: rest)) := hlaid.of_append
  have hclosing : Laid (c :: rest) := hgroup.tail.of_append
  obtain rfl := eq_params_of_isRead hround ho hc hlaid hread
  have hparams : eraseParameterTypes (write us ++ c.gap) = write us ++ c.gap := by
    have hus := hgroup.tail.left_of_append
    rw [Item.isProper, Bool.or_eq_true, beq_iff_eq, beq_iff_eq] at hproper
    rcases hproper with rfl | rfl
    · exact eraseParameterTypes_parameters h hus hclosing.white
    · exact eraseParameterTypes_target h hus hclosing.white
  obtain ⟨x, htail, hgap, hwidth, htakes⟩ := exists_tail?_of_isRead hclosing.tail hread last
  have hsignature := signature?_group h hlaid last
  rw [htail, Option.bind_some, if_pos htakes, hgap, hwidth, List.drop_zero] at hsignature
  have hconsumed : Marker.consumed ('(' :: (write us ++ (c.gap ++ ')' :: (write rest ++ last))))
      (write rest ++ last) = '(' :: (write us ++ (c.gap ++ [')'])) := by
    rw [← Marker.consumed_left ('(' :: (write us ++ (c.gap ++ [')']))) (write rest ++ last)]
    simp
  have hdone : write (done ++ o :: (us ++ [c])) =
      write done ++ (o.gap ++ '(' :: (write us ++ (c.gap ++ [')']))) := by
    rw [write_append, write_group hgroup.1 ho hclosing.1 hc, write_nil]
    rfl
  have hlast : (done ++ o :: (us ++ [c])).getLast? = some c := by
    rw [← List.cons_append, ← List.append_assoc, List.getLast?_concat]
  have hbehind := hrest []
  rw [hlast, hdone] at hbehind
  intro kept
  rw [noneMisread_group ho hc h hround hread, eraseSignaturesFrom_round hround ho hc hlaid,
    eraseSignaturesFrom_some hsignature (Nat.zero_le _), Signature.render, hparams, hconsumed,
    write_round hround ho hc hlaid]
  have hwhole :=
    hbehind.append_left (kept.reverse ++ (o.gap ++ '(' :: (write us ++ (c.gap ++ [')']))))
  simpa using hwhole

/-- At a colon that is misread something is lost. -/
theorem Settled.of_misread (hu : u.kind = .colon) (hrest : rest = u :: vs)
    (hmisread : Misread done.getLast? vs) (hlast : ∀ c ∈ last, isWhite c = true) :
    Settled opened done (o :: (us ++ c :: rest)) last := by
  subst hrest
  have hgroup : Laid (o :: (us ++ c :: u :: vs)) := hlaid.of_append
  have hclosing : Laid (c :: u :: vs) := hgroup.tail.of_append
  obtain ⟨hbrace, hreads⟩ := hmisread
  have hsome : ∃ x : Tail, tail? (write (u :: vs) ++ last) = some x ∧
      (x.follow = .arrow ∨ TakesParameters done.getLast?) := by
    rcases hreads with hreads | ⟨hreads, htakes⟩
    · obtain ⟨x, hx, hfollow⟩ := Tails.exists_tail? (x := ⟨.arrow, [], 0⟩) (.colon hu hreads hbrace)
        hclosing.tail hlast
      exact ⟨x, hx, .inl hfollow⟩
    · obtain ⟨x, hx, -⟩ := Tails.exists_tail? (x := ⟨.body, [], 0⟩) (.colon hu hreads hbrace)
        hclosing.tail hlast
      exact ⟨x, hx, .inr htakes⟩
  obtain ⟨x, htail, htakes⟩ := hsome
  have hsignature := signature?_group h hlaid last
  rw [htail, Option.bind_some, if_pos htakes] at hsignature
  have hclose := closeParen?_write h hgroup.tail.left_of_append.isSpelled hclosing.white
    (write (u :: vs) ++ last)
  have hcolon : trimStart (write (u :: vs) ++ last) = ':' :: (write vs ++ last) := by
    rw [trimStart_write_cons hclosing.tail, text_of_colon hclosing.tail.spells hu]
    rfl
  have hshorter := length_signature?_lt hsignature hclose hcolon
  intro kept
  refine ⟨fun hnone ↦ ?_, fun _ ↦ ?_⟩
  · exact (not_noneMisread_group ho hc h hround hu ⟨hbrace, hreads⟩ hnone).elim
  · rw [eraseSignaturesFrom_round hround ho hc hlaid,
      eraseSignaturesFrom_some hsignature (Nat.zero_le _), write_round hround ho hc hlaid]
    have hle := length_eraseSignaturesFrom_le
      ((Marker.consumed ('(' :: (write us ++ (c.gap ++ ')' :: (write (u :: vs) ++ last))))
        ((write (u :: vs) ++ last).drop x.width)).reverse ++ (write done ++ o.gap).reverse) []
      ((write (u :: vs) ++ last).drop x.width)
    simp only [List.length_append, List.length_cons, List.length_reverse, List.length_nil,
      List.drop_zero] at hshorter hle ⊢
    omega

/-- A parenthesis that is no signature is kept, and its inside is looked at. -/
theorem Settled.of_not_isRead (hlast : ∀ c ∈ last, isWhite c = true)
    (hread : ¬IsRead done.getLast? rest)
    (hcolon : ¬∃ u vs, rest = u :: vs ∧ u.kind = .colon ∧ Misread done.getLast? vs)
    (hinside : Settled (done.getLast? :: opened) (done ++ [o]) (us ++ c :: rest) last) :
    Settled opened done (o :: (us ++ c :: rest)) last := by
  have hgroup : Laid (o :: (us ++ c :: rest)) := hlaid.of_append
  have hclosing : Laid (c :: rest) := hgroup.tail.of_append
  have hsignature : signature? (write done ++ o.gap).reverse
      (write us ++ (c.gap ++ ')' :: (write rest ++ last))) = none := by
    rw [signature?_group h hlaid, Option.bind_eq_none_iff]
    intro x hx
    refine if_neg fun htakes ↦ ?_
    exact (isRead_or_misread hclosing.tail hlast hx htakes).elim hread hcolon
  intro kept
  have hin := hinside ('(' :: (o.gap.reverse ++ kept))
  have hwrite := write_round hround ho hc hlaid last
  rw [write_cons, text_of_opening hgroup.spells ho, hround, List.append_assoc, List.append_assoc,
    List.singleton_append, List.append_cancel_left_eq, List.cons.injEq] at hwrite
  rw [List.getLast?_concat, write_append, write_cons, write_nil, text_of_opening hgroup.spells ho,
    hround, hwrite.2] at hin
  rw [noneMisread_opening ho (by rw [behindClosing_group h hc]; exact fun hr ↦ hread hr.2),
    eraseSignaturesFrom_round hround ho hc hlaid, eraseSignaturesFrom_none hsignature,
    write_round hround ho hc hlaid]
  simpa using hin

end Group

/-! ## Scripts -/

/-- **Signatures of what is derived.** What is derived is settled when what stands behind it is. -/
theorem Derives.settled (h : Derives is ts) (hproper : ∀ i ∈ is, i.isProper = true)
    (hlast : ∀ c ∈ last, isWhite c = true) (opened : List (Option Token)) (done rest : List Token)
    (hlaid : Laid (done ++ (ts ++ rest))) (hrest : Settled opened (done ++ ts) rest last) :
    Settled opened done (ts ++ rest) last := by
  induction h generalizing opened done rest with
  | nil => simpa using hrest
  | @token _ _ t _ ts hk _ h ih =>
    obtain ⟨hi, hproper⟩ := List.forall_mem_cons.mp hproper
    have hbracket := isBracket_of_isProper hk hi
    have hbehind : Settled opened (done ++ [t]) (ts ++ rest) last := by
      refine ih hproper opened _ _ ?_ ?_
      · simpa using hlaid
      · simpa using hrest
    refine hbehind.cons (hlaid.isSpelled t (by simp)) ?_ ?_
    · intro b hb
      rw [hb] at hbracket
      cases hbracket
    · rw [NoneMisread, colonsFrom_cons hbracket, NoneMisread]
  | @symbol s _ _ us ts hmem hsymbol h ihsymbol ih =>
    obtain ⟨-, hproper⟩ := List.forall_mem_cons.mp hproper
    rw [List.append_assoc] at hlaid ⊢
    refine ihsymbol (isProper_of_mem_productions hmem) opened _ _ hlaid
      (ih hproper opened _ _ ?_ ?_)
    · simpa using hlaid
    · simpa using hrest
  | @group b s o c _ us ts ho hc hsymbol h ihsymbol ih =>
    obtain ⟨hgroup, hproper⟩ := List.forall_mem_cons.mp hproper
    rw [List.cons_append, List.append_assoc, List.cons_append] at hlaid ⊢
    have hbehind : Settled opened (done ++ o :: (us ++ [c])) (ts ++ rest) last := by
      refine ih hproper opened _ _ ?_ ?_
      · simpa using hlaid
      · simpa using hrest
    -- The closing bracket is kept unless a colon behind it is misread.
    have hinside (hcolon : ∀ u vs, ts ++ rest = u :: vs → b.opening = '(' → u.kind = .colon →
        ¬Misread done.getLast? vs) :
        Settled (done.getLast? :: opened) (done ++ [o]) (us ++ c :: (ts ++ rest)) last := by
      have hclosing : Settled opened (done ++ [o] ++ us ++ [c]) (ts ++ rest) last := by
        simpa using hbehind
      refine ihsymbol (by simp [Item.isProper]) _ _ _ (by simpa using hlaid) ?_
      refine hclosing.cons (hlaid.isSpelled c (by simp)) ?_ ?_
      · intro b' hb'
        rw [hc] at hb'
        cases hb'
      · exact noneMisread_closing hc hcolon
    by_cases hround : b.opening = '('
    · by_cases hread : IsRead done.getLast? (ts ++ rest)
      · exact .of_isRead hround ho hc hsymbol hlaid hgroup hread hbehind
      · by_cases hcolon : ∃ u vs, ts ++ rest = u :: vs ∧ u.kind = .colon ∧ Misread done.getLast? vs
        · obtain ⟨u, vs, hrest, hu, hmisread⟩ := hcolon
          exact .of_misread hround ho hc hsymbol hlaid hu hrest hmisread hlast
        · refine .of_not_isRead hround ho hc hsymbol hlaid hlast hread hcolon (hinside ?_)
          exact fun u vs hrest _ hu hmisread ↦ hcolon ⟨u, vs, hrest, hu, hmisread⟩
    · refine (hinside fun _ _ _ hb ↦ absurd hb hround).cons (hlaid.isSpelled o (by simp)) ?_ ?_
      · intro b' hb'
        rw [ho] at hb'
        cases hb'
        exact hround
      · exact noneMisread_opening ho fun hr ↦ hround hr.1

/-- The signatures of a script without types are kept when no colon in it is misread, and otherwise
something is lost. -/
theorem eraseSignatures_write (h : Derives [.symbol s] ts) (hlaid : Laid ts)
    (hlast : ∀ c ∈ last, isWhite c = true) :
    EqualOrShorter (NoneMisread [] none ts) (eraseSignatures (write ts ++ last))
      (write ts ++ last) := by
  have hend : Settled [] ts [] last := by
    intro kept
    refine ⟨fun _ ↦ ?_, fun hsome ↦ (hsome fun _ hx ↦ nomatch hx).elim⟩
    rw [write_nil, List.nil_append, ← List.append_nil last, eraseSignaturesFrom_white hlast,
      eraseSignaturesFrom]
    simp
  have hall := h.settled (by simp [Item.isProper]) hlast [] [] [] (by simpa using hlaid)
    (by simpa using hend) []
  simpa [eraseSignatures] using hall

end Untyped

end PluginPack
