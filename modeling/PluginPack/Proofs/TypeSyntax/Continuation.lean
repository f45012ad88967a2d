import PluginPack.Proofs.TypeSyntax.Passing
import PluginPack.Proofs.TypeSyntax.Shrinking
import PluginPack.Proofs.Untyped.Signature

/-!
# Code that goes on

The steps of type erasure look ahead, so what they do with a text may depend on what stands behind
it. It does not, as long as the text closes its literals and comments and only a tail follows, that
is, names, marks and angle and square brackets up to a semicolon: whatever a step finds in the text
in front of one tail, it finds in front of every other.
-/

namespace PluginPack

open Text Script

namespace TypeSyntax

open Untyped (attach attach_attach attach_nil)

variable {b : Option Char} {before kept l r s t v w x y : Text} {c : Char} {d : Nat}

/-! ## Closed texts -/

/-- Text of code and of literals and comments that are closed, so that code follows it. -/
inductive IsLexed : Text → Prop
  | nil : IsLexed []
  | code {c : Char} {w : Text} :
      (∀ r, inert? (c :: (w ++ r)) = none) → IsLexed w → IsLexed (c :: w)
  | literal {l w : Text} :
      (∀ r, inert? (l ++ (w ++ r)) = some (l, w ++ r)) → IsLexed w → IsLexed (l ++ w)

theorem IsLexed.append (hv : IsLexed v) (hw : IsLexed w) : IsLexed (v ++ w) := by
  induction hv with
  | nil => exact hw
  | @code c v hc _ ih =>
    refine .code (w := v ++ w) (fun r ↦ ?_) ih
    rw [List.append_assoc]
    exact hc _
  | literal hl _ ih =>
    rw [List.append_assoc]
    exact .literal (fun r ↦ by rw [List.append_assoc]; exact hl _) ih

theorem IsCode.isLexed (h : IsCode w) : IsLexed w := by
  induction w with
  | nil => exact .nil
  | cons c w ih =>
    obtain ⟨hc, hw⟩ := List.forall_mem_cons.mp h
    exact .code (fun r ↦ inert?_eq_none hc.1 hc.2 _) (ih hw)

/-! ## Tails -/

/-- What may stand in a tail. -/
def isTrailing (c : Char) : Bool :=
  isNameChar c || [' ', '.', '<', '>', '[', ']', '|', '&', ';'].contains c

/-- Text that follows an expression: names, marks and brackets, up to a semicolon. -/
structure IsTail (r : Text) : Prop where
  chars : ∀ c ∈ r, isTrailing c = true
  head : ∃ c ∈ r.head?, c = ' ' ∨ c = ';'
  /-- Angle and square brackets are closed. -/
  annotation : ∀ d, annotation? (d + 1) r = none

theorem isTail_semicolon : IsTail [';'] := ⟨by decide, ⟨';', rfl, .inr rfl⟩, fun _ ↦ rfl⟩

theorem not_mem_of_isTrailing (hr : ∀ c ∈ r, isTrailing c = true) (hc : isTrailing c = false) :
    c ∉ r := fun h ↦ by
  rw [hr c h] at hc
  cases hc

theorem isCode_of_isTrailing (hr : ∀ c ∈ r, isTrailing c = true) : IsCode r := by
  intro c hc
  refine ⟨?_, fun h ↦ not_mem_of_isTrailing hr (c := '/') (by decide) (h ▸ hc)⟩
  by_contra hquote
  rw [Bool.not_eq_false, isQuote, Bool.or_eq_true, Bool.or_eq_true, beq_iff_eq, beq_iff_eq,
    beq_iff_eq] at hquote
  rcases hquote with (rfl | rfl) | rfl <;> exact not_mem_of_isTrailing hr (by decide) hc

/-- A step whose outcome does not depend on the tail: it finds the same in front of every tail, or
nothing in front of any. -/
def IsSettled {α : Type} (f : Text → Option α) : Prop :=
  (∃ x, ∀ r, IsTail r → f r = some x) ∨ ∀ r, IsTail r → f r = none

theorem IsSettled.of_bind {α β : Type} {f : Text → Option α} {g : Text → Option β}
    {m : β → Option α} (h : IsSettled g) (hstep : ∀ r, IsTail r → f r = (g r).bind m) :
    IsSettled f := by
  rcases h with ⟨x, hx⟩ | hnone
  · cases hm : m x with
    | none => exact .inr fun r hr ↦ by rw [hstep r hr, hx r hr, Option.bind_some, hm]
    | some y => exact .inl ⟨y, fun r hr ↦ by rw [hstep r hr, hx r hr, Option.bind_some, hm]⟩
  · exact .inr fun r hr ↦ by rw [hstep r hr, hnone r hr, Option.bind_none]

theorem IsSettled.of_map {α β : Type} {f : Text → Option α} {g : Text → Option β} {m : β → α}
    (h : IsSettled g) (hstep : ∀ r, IsTail r → f r = (g r).map m) : IsSettled f :=
  h.of_bind fun r hr ↦ (hstep r hr).trans Option.map_eq_bind

/-! ## Parentheses -/

/-- A closing bracket is found in a closed text, or not before the text ends. -/
theorem IsLexed.splitClosing?_eq (h : IsLexed w) (d : Nat) :
    (∃ x c y, w = x ++ c :: y ∧ IsLexed y ∧
        ∀ r, splitClosing? d (w ++ r) = some (x, c :: (y ++ r))) ∨
      ∃ d', ∀ r, splitClosing? d (w ++ r) = attach w (splitClosing? d' r) := by
  induction h generalizing d with
  | nil => exact .inr ⟨d, fun r ↦ by rw [List.nil_append, attach_nil]⟩
  | @literal l w hl _ ih =>
    have hstep (r : Text) :
        splitClosing? d (l ++ w ++ r) = attach l (splitClosing? d (w ++ r)) := by
      rw [List.append_assoc]
      exact Untyped.splitClosing?_inert (hl r)
    rcases ih d with ⟨x, c, y, rfl, hy, hx⟩ | ⟨d', hd⟩
    · exact .inl ⟨l ++ x, c, y, by rw [List.append_assoc], hy, fun r ↦ by rw [hstep, hx]; rfl⟩
    · exact .inr ⟨d', fun r ↦ by rw [hstep, hd, attach_attach]⟩
  | @code c w hc hw ih =>
    have hnext {d' : Nat} (hstep : ∀ r, splitClosing? d (c :: (w ++ r)) =
        attach [c] (splitClosing? d' (w ++ r))) :
        (∃ x e y, c :: w = x ++ e :: y ∧ IsLexed y ∧
          ∀ r, splitClosing? d (c :: w ++ r) = some (x, e :: (y ++ r))) ∨
        ∃ d'', ∀ r, splitClosing? d (c :: w ++ r) = attach (c :: w) (splitClosing? d'' r) := by
      rcases ih d' with ⟨x, e, y, rfl, hy, hx⟩ | ⟨d'', hd⟩
      · exact .inl ⟨c :: x, e, y, rfl, hy, fun r ↦ by rw [List.cons_append, hstep, hx]; rfl⟩
      · exact .inr ⟨d'', fun r ↦ by rw [List.cons_append, hstep, hd, attach_attach]; rfl⟩
    cases hopening : isOpening c with
    | true => exact hnext fun r ↦ Untyped.splitClosing?_opening (hc r) hopening
    | false =>
      cases hclosing : isClosing c with
      | false => exact hnext fun r ↦ Untyped.splitClosing?_cons (hc r) hopening hclosing
      | true =>
        by_cases hd : d ≤ 1
        · refine .inl ⟨[], c, w, rfl, hw, fun r ↦ ?_⟩
          rw [List.cons_append, Untyped.splitClosing?_closing (hc r) hopening hclosing, if_pos hd]
        · exact hnext fun r ↦ by
            rw [Untyped.splitClosing?_closing (hc r) hopening hclosing, if_neg hd]

/-- The end of a parenthesis is found in a closed text, or nowhere. -/
theorem IsLexed.closeParen?_eq (h : IsLexed w) :
    (∃ x y, w = x ++ ')' :: y ∧ IsLexed y ∧ ∀ r, closeParen? (w ++ r) = some (x, y ++ r)) ∨
      ∀ r, IsTail r → closeParen? (w ++ r) = none := by
  rcases h.splitClosing?_eq 1 with ⟨x, c, y, rfl, hy, hx⟩ | ⟨d', hd⟩
  · by_cases hc : c = ')'
    · subst hc
      refine .inl ⟨x, y, rfl, hy, fun r ↦ ?_⟩
      rw [closeParen?, hx]
      rfl
    · refine .inr fun r _ ↦ ?_
      rw [closeParen?, hx]
      split
      · rename_i heq
        exact absurd (List.cons.inj (Prod.mk.inj (Option.some.inj heq)).2).1 hc
      · rfl
  · refine .inr fun r hr ↦ ?_
    rw [closeParen?, hd]
    split
    · rename_i heq
      obtain ⟨⟨x, y⟩, hx, hy⟩ := Option.map_eq_some_iff.mp heq
      have hmem : ')' ∈ r := by
        rw [← splitClosing?_append hx, show y = _ from (Prod.mk.inj hy).2]
        simp
      exact absurd hmem (not_mem_of_isTrailing hr.chars (by decide))
    · rfl

/-! ## Return types -/

theorem snd_splitQuoted_of_not_mem {q : Char} (hq : q ∉ r) (hline : '\n' ∉ r) :
    (splitQuoted q r).2 = [] := by
  fun_induction splitQuoted q r with
  | case1 => rfl
  | case2 => rfl
  | case3 e r p ih =>
    exact ih (fun h ↦ hq (by simp [h])) fun h ↦ hline (by simp [h])
  | case4 e r _ _ h => exact absurd (h.1 ▸ List.mem_cons_self) hline
  | case5 r => exact absurd List.mem_cons_self hq
  | case6 e r _ _ _ _ p ih =>
    exact ih (fun h ↦ hq (List.mem_cons_of_mem e h)) fun h ↦ hline (List.mem_cons_of_mem e h)

/-- The end of a string literal is found in front of a tail, or nowhere. -/
theorem splitQuoted_eq {q : Char} (hq : q = '"' ∨ q = '\'') (w : Text) :
    (∃ x y, w = x ++ y ∧ ∀ r, splitQuoted q (w ++ r) = (x, y ++ r)) ∨
      ∀ r, IsTail r → (splitQuoted q (w ++ r)).2 = [] := by
  have hnone {r : Text} (hr : ∀ c ∈ r, isTrailing c = true) : (splitQuoted q r).2 = [] := by
    refine snd_splitQuoted_of_not_mem ?_ (not_mem_of_isTrailing hr (by decide))
    rcases hq with rfl | rfl <;> exact not_mem_of_isTrailing hr (by decide)
  have hne : q ≠ '\\' ∧ q ≠ '\n' ∧ q ≠ '\x60' := by rcases hq with rfl | rfl <;> decide
  fun_induction splitQuoted q w with
  | case1 => exact .inr fun r hr ↦ hnone hr.chars
  | case2 =>
    refine .inr fun r hr ↦ ?_
    cases r with
    | nil => rfl
    | cons e r => exact hnone (r := r) fun c hc ↦ hr.chars c (List.mem_cons_of_mem e hc)
  | case3 e w p ih =>
    rcases ih with ⟨x, y, rfl, hx⟩ | hnil
    · exact .inl ⟨'\\' :: e :: x, y, rfl, fun r ↦ by simpa [splitQuoted, Prod.ext_iff] using hx r⟩
    · exact .inr fun r hr ↦ hnil r hr
  | case4 e w h h' hend =>
    refine .inl ⟨[], e :: w, rfl, fun r ↦ ?_⟩
    rw [List.cons_append, hend.1, splitQuoted, if_pos ⟨rfl, hne.2.2⟩]
    · simp
    · simp
  | case5 w h h' hend =>
    exact .inl ⟨[q], w, rfl, fun r ↦ splitQuoted_self hne.1 hne.2.1⟩
  | case6 e w h h' hline hend p ih =>
    have hslash : e ≠ '\\' := by
      rintro rfl
      cases w with
      | nil => exact h rfl rfl
      | cons e w => exact h' e w rfl rfl
    have hnewline : e ≠ '\n' := fun he ↦ hline ⟨he, hne.2.2⟩
    have hstep (r : Text) : splitQuoted q (e :: (w ++ r)) =
        (e :: (splitQuoted q (w ++ r)).1, (splitQuoted q (w ++ r)).2) :=
      splitQuoted_cons hslash hnewline hend
    rcases ih with ⟨x, y, rfl, hx⟩ | hnil
    · exact .inl ⟨e :: x, y, rfl, fun r ↦ by rw [List.cons_append, hstep, hx]⟩
    · exact .inr fun r hr ↦ by rw [List.cons_append, hstep]; exact hnil r hr

/-- A return type ends at an arrow or a brace. -/
theorem returnType?_of_not_mem (hequals : '=' ∉ r) (hbrace : '{' ∉ r) (d : Nat) :
    returnType? d r = none := by
  fun_induction returnType? d r with
  | case1 => rfl
  | case2 c s h => exact absurd (h.1 ▸ List.mem_cons_self) hequals
  | case3 d c s h => exact absurd (h.1 ▸ List.mem_cons_self) hequals
  | case4 d c s _ _ ih =>
    have hrest : ∀ {e}, e ∉ c :: s → e ∉ (splitQuoted c s).2 := fun he hmem ↦ he <| by
      rw [← splitQuoted_append c s]
      simp [hmem]
    rw [ih (hrest hequals) (hrest hbrace), Option.map_none]
  | case5 d c s _ _ h => exact absurd (h.1 ▸ List.mem_cons_self) hbrace
  | case7 => rfl
  | case9 => rfl
  | case6 d c s _ _ _ _ ih | case8 d c s _ _ _ _ _ _ ih | case10 d c s _ _ _ _ _ _ ih =>
    rw [ih (fun h ↦ hequals (List.mem_cons_of_mem c h)) fun h ↦ hbrace (List.mem_cons_of_mem c h),
      Option.map_none]

/-- A tail does not complete an arrow. -/
theorem IsTail.not_arrow {c : Char} (hr : IsTail r) (h : ¬(c = '=' ∧ w.head? = some '>')) :
    ¬(c = '=' ∧ (w ++ r).head? = some '>') := by
  rintro ⟨rfl, hhead⟩
  cases w with
  | nil =>
    obtain ⟨e, he, hmark⟩ := hr.head
    obtain rfl := Option.mem_unique he hhead
    simp at hmark
  | cons e w => exact h ⟨rfl, hhead⟩

/-- The end of a return type is found in front of a tail, or nowhere. -/
theorem isSettled_returnType? (d : Nat) (w : Text) : IsSettled fun r ↦ returnType? d (w ++ r) := by
  -- Outside arrows the next character decides.
  have hnext {d : Nat} {c : Char} {s r : Text} (h : ¬(c = '=' ∧ s.head? = some '>'))
      (hr : IsTail r) := (returnType?.eq_2 d c (s ++ r)).trans (if_neg (hr.not_arrow h))
  fun_induction returnType? d w with
  | case1 d =>
    exact .inr fun r hr ↦ returnType?_of_not_mem (not_mem_of_isTrailing hr.chars (by decide))
      (not_mem_of_isTrailing hr.chars (by decide)) d
  | case2 c s h =>
    obtain ⟨s, rfl⟩ := List.head?_eq_some_iff.mp h.2
    rw [h.1]
    exact .inl ⟨_, fun r _ ↦ Untyped.returnType?_arrow 0 (s ++ r)⟩
  | case3 d c s h hd ih =>
    obtain ⟨s, rfl⟩ := List.head?_eq_some_iff.mp h.2
    rw [h.1]
    exact ih.of_map fun r _ ↦ (Untyped.returnType?_arrow d (s ++ r)).trans (if_neg hd)
  | case4 d c s hnot hquote ih =>
    have hstep {r : Text} (hr : IsTail r) := (hnext (d := d) hnot hr).trans (if_pos hquote)
    rcases splitQuoted_eq hquote s with ⟨x, y, rfl, hx⟩ | hnil
    · have hy : (splitQuoted c (x ++ y)).2 = y := by
        have hxy := hx []
        rw [List.append_nil, List.append_nil] at hxy
        rw [hxy]
      rw [hy] at ih
      refine ih.of_map (m := fun p ↦ (c :: x ++ p.1, p.2)) fun r hr ↦ ?_
      rw [List.cons_append, hstep hr, hx]
    · refine .inr fun r hr ↦ (hstep hr).trans ?_
      rw [hnil r hr, returnType?, Option.map_none]
  | case5 d c s hnot hquote hbrace =>
    exact .inl ⟨_, fun r hr ↦ (hnext hnot hr).trans ((if_neg hquote).trans (if_pos hbrace))⟩
  | case6 d c s hnot hquote hbrace hopens ih =>
    exact ih.of_map fun r hr ↦ (hnext hnot hr).trans ((if_neg hquote).trans
      ((if_neg hbrace).trans (if_pos hopens)))
  | case7 c s hnot hquote hopens hcloses hbrace =>
    exact .inr fun r hr ↦ (hnext hnot hr).trans ((if_neg hquote).trans
      ((if_neg hbrace).trans ((if_neg hopens).trans ((if_pos hcloses).trans (if_pos rfl)))))
  | case8 d c s hnot hquote hbrace hopens hcloses hd ih =>
    exact ih.of_map fun r hr ↦ (hnext hnot hr).trans ((if_neg hquote).trans
      ((if_neg hbrace).trans ((if_neg hopens).trans ((if_pos hcloses).trans (if_neg hd)))))
  | case9 d c s hnot hquote hbrace hopens hcloses hchar =>
    exact .inr fun r hr ↦ (hnext hnot hr).trans ((if_neg hquote).trans
      ((if_neg hbrace).trans ((if_neg hopens).trans ((if_neg hcloses).trans (if_pos hchar)))))
  | case10 d c s hnot hquote hbrace hopens hcloses hchar ih =>
    exact ih.of_map fun r hr ↦ (hnext hnot hr).trans ((if_neg hquote).trans
      ((if_neg hbrace).trans ((if_neg hopens).trans ((if_neg hcloses).trans (if_neg hchar)))))

/-! ## What follows a parameter list -/

theorem tail?_eq_none (h : ∀ c ∈ (trimStart t).head?, c ≠ '=' ∧ c ≠ '{' ∧ c ≠ ':') :
    tail? t = none := by
  unfold tail?
  split
  · rename_i heq
    exact absurd rfl (h '=' (by rw [heq]; rfl)).1
  · rename_i heq
    exact absurd rfl (h '{' (by rw [heq]; rfl)).2.1
  · rename_i heq
    exact absurd rfl (h ':' (by rw [heq]; rfl)).2.2
  · rfl

theorem tail?_equals {e : Char} (h : trimStart t = '=' :: e :: r) (he : e ≠ '>') :
    tail? t = none := by
  rw [tail?, h]
  split
  · rename_i heq
    exact absurd (List.cons.inj (List.cons.inj heq).2).1 he
  · rename_i heq
    cases (List.cons.inj heq).1
  · rename_i heq
    cases (List.cons.inj heq).1
  · rfl

/-- The first character of a text that is not white, and the white space in front of it. -/
theorem exists_black (h : ∃ e ∈ w, isWhite e = false) :
    ∃ g c s, w = g ++ c :: s ∧ (∀ e ∈ g, isWhite e = true) ∧ isWhite c = false := by
  have hne : w.dropWhile isWhite ≠ [] := by
    obtain ⟨e, he, hblack⟩ := h
    intro hnil
    rw [List.dropWhile_eq_nil_iff.mp hnil e he] at hblack
    cases hblack
  obtain ⟨c, s, hs⟩ := List.exists_cons_of_ne_nil hne
  have hc := stops_dropWhile isWhite w
  rw [hs, stops_cons] at hc
  refine ⟨w.takeWhile isWhite, c, s, ?_, List.all_eq_true.mp List.all_takeWhile, hc⟩
  rw [← hs, List.takeWhile_append_dropWhile]

/-- The last character of a text is no white space and begins no arrow. -/
def EndsWord (w : Text) : Prop := ∀ c ∈ w.getLast?, isWhite c = false ∧ c ≠ '='

theorem EndsWord.of_append (h : EndsWord (v ++ w)) : EndsWord w := by
  intro c hc
  refine h c ?_
  rw [List.getLast?_append, Option.mem_def.mp hc]
  rfl

/-- What follows a parameter list is found in front of a tail, or nowhere. -/
theorem isSettled_tail? (hw : EndsWord w) : IsSettled fun r ↦ tail? (w ++ r) := by
  by_cases hnil : w = []
  · subst hnil
    refine .inr fun r hr ↦ tail?_eq_none fun c hc ↦ ?_
    have hmem : c ∈ r := (List.dropWhile_suffix _).subset (List.mem_of_mem_head? hc)
    refine ⟨?_, ?_, ?_⟩ <;> rintro rfl <;> exact not_mem_of_isTrailing hr.chars (by decide) hmem
  obtain ⟨e, he⟩ := Option.ne_none_iff_exists'.mp (mt List.getLast?_eq_none_iff.mp hnil)
  obtain ⟨g, c, s, rfl, hg, hc⟩ := exists_black ⟨e, List.mem_of_mem_getLast? he, (hw e he).1⟩
  have htrim (r : Text) : trimStart (g ++ c :: s ++ r) = c :: (s ++ r) := by
    rw [List.append_assoc, trimStart_append hg, List.cons_append, trimStart_cons hc]
  have hwhite (r : Text) : (g ++ c :: s ++ r).takeWhile isWhite = g := by
    rw [List.append_assoc]
    exact takeWhile_append_eq hg (stops_cons.mpr hc)
  by_cases hmark : c = '=' ∨ c = '{' ∨ c = ':'
  · rcases hmark with rfl | rfl | rfl
    · cases s with
      | nil => exact absurd rfl (hw '=' (by simp)).2
      | cons e s =>
        by_cases he : e = '>'
        · subst he
          refine .inl ⟨⟨.arrow, [], 0⟩, fun r _ ↦ ?_⟩
          simp only [tail?, htrim]
          rfl
        · exact .inr fun r _ ↦ tail?_equals (htrim r) he
    · refine .inl ⟨⟨.body, [], 0⟩, fun r _ ↦ ?_⟩
      simp only [tail?, htrim]
    · refine (isSettled_returnType? 0 s).of_bind (m := fun p ↦ if (trim p.1).isEmpty then none
        else some ⟨p.2, g, g.length + 1 + (trimEnd p.1).length⟩) fun r _ ↦ ?_
      rw [tail?, htrim, hwhite]
      rfl
  · rw [not_or, not_or] at hmark
    refine .inr fun r _ ↦ tail?_eq_none fun e he ↦ ?_
    rw [htrim] at he
    rwa [← Option.mem_some.mp he]

/-! ## Signatures -/

/-- A signature is found in front of a tail, or none is. -/
theorem signature?_eq (before : Text) (hlexed : IsLexed w) (hw : EndsWord w) :
    (∃ lead params y x, w = params ++ ')' :: y ∧ IsLexed y ∧ ∀ r, IsTail r →
        closeParen? (w ++ r) = some (params, y ++ r) ∧ tail? (y ++ r) = some x ∧
          signature? before (w ++ r) = some ⟨lead, params, x.gap, (y ++ r).drop x.width⟩) ∨
      ∀ r, IsTail r → signature? before (w ++ r) = none := by
  rcases hlexed.closeParen?_eq with ⟨params, y, rfl, hy, hclose⟩ | hnone
  · have hends : EndsWord y := by
      rw [List.append_cons] at hw
      exact hw.of_append
    rcases isSettled_tail? hends with ⟨x, hx⟩ | hnone
    · by_cases hcontext : x.follow = .arrow ∨
          contextOf ((beforeTypeParameters? before).getD before) = .function ∨
          contextOf ((beforeTypeParameters? before).getD before) = .name
      · refine .inl ⟨before.length - ((beforeTypeParameters? before).getD before).length, params,
          y, x, rfl, hy, fun r hr ↦ ⟨by rw [hclose], hx r hr, ?_⟩⟩
        rw [signature?, hclose, Option.bind_some]
        simp only [hx r hr, Option.bind_some]
        exact if_pos hcontext
      · refine .inr fun r hr ↦ ?_
        rw [signature?, hclose, Option.bind_some]
        simp only [hx r hr, Option.bind_some]
        exact if_neg hcontext
    · refine .inr fun r hr ↦ ?_
      rw [signature?, hclose, Option.bind_some]
      simp only [hnone r hr, Option.bind_none]
  · exact .inr fun r hr ↦ by rw [signature?, hnone r hr, Option.bind_none]

/-- Without a return type nothing behind the parenthesis belongs to the signature. -/
theorem tail?_width {x : Tail} (h : tail? t = some x) :
    (∃ r, trimStart t = ':' :: r) ∨ x.gap = [] ∧ x.width = 0 := by
  unfold tail? at h
  split at h
  · cases h
    exact .inr ⟨rfl, rfl⟩
  · cases h
    exact .inr ⟨rfl, rfl⟩
  · rename_i r heq
    exact .inl ⟨r, heq⟩
  · cases h

/-- A signature whose type parameters reach into what has been written is no signature. -/
theorem eraseSignaturesFrom_far {x : Signature} (h : signature? before r = some x)
    (hlead : kept.length < x.lead) : eraseSignaturesFrom before kept ('(' :: r) =
      eraseSignaturesFrom ('(' :: before) ('(' :: kept) r := by
  rw [Untyped.eraseSignaturesFrom_paren, h]
  exact if_neg (Nat.not_le.mpr hlead)

theorem consumed_parentheses (params y : Text) :
    Marker.consumed ('(' :: (params ++ ')' :: y)) y = '(' :: (params ++ [')']) := by
  rw [← Marker.consumed_left ('(' :: (params ++ [')'])) y]
  simp

/-- A signature that keeps its length keeps its text, and the pass goes on behind it. -/
theorem of_eraseSignaturesFrom_some {lead : Nat} {params y : Text} {x : Tail}
    (hclose : closeParen? (params ++ ')' :: y) = some (params, y)) (htail : tail? y = some x)
    (hs : signature? before (params ++ ')' :: y) = some ⟨lead, params, x.gap, y.drop x.width⟩)
    (hlead : lead ≤ kept.length)
    (h : eraseSignaturesFrom before kept ('(' :: (params ++ ')' :: y)) =
      kept.reverse ++ '(' :: (params ++ ')' :: y)) :
    lead = 0 ∧ x.gap = [] ∧ x.width = 0 ∧ eraseParameterTypes params = params ∧
      eraseSignaturesFrom (('(' :: (params ++ [')'])).reverse ++ before) [] y = y := by
  rw [Untyped.eraseSignaturesFrom_some hs hlead] at h
  have hlength := congrArg List.length h
  have hrest := length_eraseSignaturesFrom_le ((Marker.consumed ('(' :: (params ++ ')' :: y))
    (y.drop x.width)).reverse ++ before) [] (y.drop x.width)
  rcases tail?_width htail with ⟨r, hcolon⟩ | ⟨hgap, hwidth⟩
  · have hlt := length_signature?_lt hs hclose hcolon
    simp only [List.length_append, List.length_reverse, List.length_drop, List.length_cons,
      List.length_nil] at hlength hrest hlt
    omega
  · have hparams := length_eraseParameterTypes_le params
    rw [hwidth, List.drop_zero, consumed_parentheses] at h hlength hrest
    simp only [Signature.render, hgap, List.length_append, List.length_reverse, List.length_drop,
      List.length_cons, List.length_nil] at hlength hrest
    have hzero : lead = 0 := by omega
    subst hzero
    simp only [Signature.render, hgap, List.drop_zero, List.append_assoc,
      List.append_cancel_left_eq, List.cons_append, List.nil_append, List.cons.injEq, true_and] at h
    obtain ⟨hsame, hbehind⟩ := List.append_inj h (by omega)
    exact ⟨rfl, hgap, hwidth, hsame, (List.cons.inj hbehind).2⟩

/-- There is no signature in a tail. -/
theorem eraseSignaturesFrom_tail (before kept : Text) (hr : IsTail r) :
    eraseSignaturesFrom before kept r = kept.reverse ++ r := by
  have hcode := isCode_of_isTrailing hr.chars
  have hpass : eraseSignaturesFrom before kept (r ++ []) =
      eraseSignaturesFrom (r.reverse ++ before) (r.reverse ++ kept) [] := by
    refine Untyped.eraseSignaturesFrom_append (fun c hc ↦ ?_) []
    refine ⟨inert?_eq_none (hcode c hc).1 (hcode c hc).2, ?_⟩
    rintro rfl
    exact not_mem_of_isTrailing hr.chars (by decide) hc
  rw [List.append_nil, eraseSignaturesFrom] at hpass
  rw [hpass, List.reverse_append, List.reverse_reverse]

/-- **Signatures in front of a tail.** A closed text that the pass leaves as it is in front of a
semicolon is left as it is in front of every tail. -/
theorem IsLexed.eraseSignaturesFrom_eq (hlexed : IsLexed w) (hw : EndsWord w)
    (h : eraseSignaturesFrom before kept (w ++ [';']) = kept.reverse ++ (w ++ [';']))
    (hr : IsTail r) : eraseSignaturesFrom before kept (w ++ r) = kept.reverse ++ (w ++ r) := by
  induction hn : w.length using Nat.strongRecOn generalizing before kept w with
  | ind n ih =>
    subst hn
    cases hlexed with
    | nil => exact eraseSignaturesFrom_tail before kept hr
    | @literal l w hl hlexed =>
      rw [List.append_assoc, Untyped.eraseSignaturesFrom_inert (hl _)] at h ⊢
      have hne : l ≠ [] := inert?_ne_nil (hl [])
      have hlt : w.length < (l ++ w).length := by
        have hpos := List.length_pos_iff.mpr hne
        rw [List.length_append]
        omega
      rw [ih w.length hlt hlexed hw.of_append (by simpa using h) rfl]
      simp
    | @code c w hc hlexed =>
      have hends : EndsWord w := hw.of_append (v := [c])
      -- Where no signature begins, the pass goes on with the next character.
      have hnext (hstep : ∀ r, IsTail r → eraseSignaturesFrom before kept (c :: (w ++ r)) =
          eraseSignaturesFrom (c :: before) (c :: kept) (w ++ r)) :
          eraseSignaturesFrom before kept (c :: (w ++ r)) = kept.reverse ++ (c :: (w ++ r)) := by
        rw [List.cons_append, hstep _ isTail_semicolon] at h
        rw [hstep r hr, ih w.length (by simp) hlexed hends (by simpa using h) rfl]
        simp
      by_cases hparen : c = '('
      · subst hparen
        rcases signature?_eq before hlexed hends with ⟨lead, params, y, x, rfl, hy, hx⟩ | hnone
        · by_cases hlead : lead ≤ kept.length
          · have hbehind (r : Text) : params ++ ')' :: y ++ r = params ++ ')' :: (y ++ r) := by simp
            have hrun {r : Text} (hr : IsTail r) := hx r hr
            simp only [hbehind] at hrun
            obtain ⟨hclose, htail, hs⟩ := hrun isTail_semicolon
            rw [List.cons_append, hbehind] at h
            obtain ⟨rfl, hgap, hwidth, hsame, hrest⟩ :=
              of_eraseSignaturesFrom_some hclose htail hs hlead h
            have hy := ih y.length (by simp; omega) hy (by
              rw [List.append_cons] at hends
              exact hends.of_append) hrest rfl
            rw [List.cons_append, hbehind, Untyped.eraseSignaturesFrom_some (hrun hr).2.2 hlead,
              hwidth]
            simp only [List.drop_zero, consumed_parentheses, hy, Signature.render, hsame, hgap]
            simp
          · exact hnext fun r hr ↦ eraseSignaturesFrom_far (hx r hr).2.2 (Nat.lt_of_not_le hlead)
        · exact hnext fun r hr ↦ Untyped.eraseSignaturesFrom_none (hnone r hr)
      · exact hnext fun r _ ↦ Untyped.eraseSignaturesFrom_cons (hc r) hparen

end TypeSyntax

end PluginPack
