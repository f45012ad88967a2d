import Mathlib.Data.List.Basic
import PluginPack.Proofs.Text.Reading

/-!
# Other line ends

`crlf` writes a carriage return before every newline of a text. A class that holds both characters
or neither of them is read alike before and after; a class that ends at a newline but goes on at a
carriage return stops between the two, and what is left there is given by `crlfRest`. From this each
step of reading is shown to come to the same place in both texts, and so is a marker that finds
nothing between a carriage return and its newline.
-/

namespace PluginPack.Text

variable {p : Char → Bool} {c : Char} {k r t u w : Text}

/-! ## Spellings of the newline -/

/-- The text with a word in the place of every newline. -/
def spellNewlines (w t : Text) : Text := t.flatMap fun c ↦ if c = '\n' then w else [c]

/-- The text with a carriage return before every newline. -/
def crlf (t : Text) : Text := spellNewlines ['\r', '\n'] t

/-- The same for a text that is read backwards. -/
def crlfBack (t : Text) : Text := spellNewlines ['\n', '\r'] t

@[simp] theorem spellNewlines_nil (w : Text) : spellNewlines w [] = [] := rfl

theorem spellNewlines_newline (w t : Text) :
    spellNewlines w ('\n' :: t) = w ++ spellNewlines w t := rfl

theorem spellNewlines_cons (hc : c ≠ '\n') (w t : Text) :
    spellNewlines w (c :: t) = c :: spellNewlines w t := by
  rw [spellNewlines, List.flatMap_cons, if_neg hc]
  rfl

theorem spellNewlines_append (w t u : Text) :
    spellNewlines w (t ++ u) = spellNewlines w t ++ spellNewlines w u := List.flatMap_append

theorem spellNewlines_eq_self (h : '\n' ∉ t) (w : Text) : spellNewlines w t = t := by
  induction t with
  | nil => rfl
  | cons c t ih =>
    rw [List.mem_cons, not_or] at h
    rw [spellNewlines_cons (Ne.symm h.1), ih h.2]

theorem length_le_spellNewlines (hw : w ≠ []) (t : Text) :
    t.length ≤ (spellNewlines w t).length := by
  have hpos := List.length_pos_iff.mpr hw
  induction t with
  | nil => exact Nat.zero_le _
  | cons c t ih =>
    by_cases hc : c = '\n'
    · rw [hc, spellNewlines_newline, List.length_append, List.length_cons]
      omega
    · rw [spellNewlines_cons hc, List.length_cons, List.length_cons]
      omega

theorem reverse_spellNewlines (w t : Text) :
    (spellNewlines w t).reverse = spellNewlines w.reverse t.reverse := by
  induction t with
  | nil => rfl
  | cons c t ih =>
    rw [List.reverse_cons, spellNewlines_append, ← ih]
    by_cases hc : c = '\n'
    · rw [hc, spellNewlines_newline, spellNewlines_newline, List.reverse_append, spellNewlines_nil,
        List.append_nil]
    · rw [spellNewlines_cons hc, spellNewlines_cons hc, List.reverse_cons, spellNewlines_nil]

/-- Where a class treats the spelling as the newline, it is read alike. -/
theorem dropWhile_spellNewlines (hne : w ≠ []) (hw : ∀ c ∈ w, p c = p '\n') (t : Text) :
    (spellNewlines w t).dropWhile p = spellNewlines w (t.dropWhile p) := by
  induction t with
  | nil => rfl
  | cons c t ih =>
    by_cases hc : c = '\n'
    · subst hc
      rw [spellNewlines_newline]
      cases hp : p '\n' with
      | true =>
        rw [List.dropWhile_append_of_pos fun c hc ↦ (hw c hc).trans hp,
          List.dropWhile_cons_of_pos hp, ih]
      | false =>
        have hstop : Stops p w := fun c hc ↦ (hw c (List.mem_of_mem_head? hc)).trans hp
        rw [(hstop.append hne).dropWhile_eq, List.dropWhile_cons_of_neg (by simp [hp])]
        rfl
    · rw [spellNewlines_cons hc]
      cases hp : p c with
      | true => rw [List.dropWhile_cons_of_pos hp, List.dropWhile_cons_of_pos hp, ih]
      | false =>
        rw [List.dropWhile_cons_of_neg (by simp [hp]), List.dropWhile_cons_of_neg (by simp [hp]),
          spellNewlines_cons hc]

theorem takeWhile_spellNewlines (hne : w ≠ []) (hw : ∀ c ∈ w, p c = p '\n') (t : Text) :
    (spellNewlines w t).takeWhile p = spellNewlines w (t.takeWhile p) := by
  refine (List.append_left_inj (spellNewlines w (t.dropWhile p))).mp ?_
  calc (spellNewlines w t).takeWhile p ++ spellNewlines w (t.dropWhile p)
      = spellNewlines w t := by
        rw [← dropWhile_spellNewlines hne hw, List.takeWhile_append_dropWhile]
    _ = spellNewlines w (t.takeWhile p) ++ spellNewlines w (t.dropWhile p) := by
        rw [← spellNewlines_append, List.takeWhile_append_dropWhile]

/-! ## Carriage returns -/

@[simp] theorem crlf_nil : crlf [] = [] := rfl

@[simp] theorem crlf_newline (t : Text) : crlf ('\n' :: t) = '\r' :: '\n' :: crlf t := rfl

/-- A member of a class of characters that the newline is not in. -/
theorem ne_newline_of_class (hc : p c = true) (hn : p '\n' = false) : c ≠ '\n' := by
  rintro rfl
  rw [hn] at hc
  cases hc

theorem crlf_cons (hc : c ≠ '\n') (t : Text) : crlf (c :: t) = c :: crlf t :=
  spellNewlines_cons hc _ t

@[simp] theorem crlf_append (t u : Text) : crlf (t ++ u) = crlf t ++ crlf u :=
  spellNewlines_append _ t u

theorem crlf_eq_self (h : '\n' ∉ t) : crlf t = t := spellNewlines_eq_self h _

theorem crlf_eq_nil_iff : crlf t = [] ↔ t = [] := by
  constructor
  · intro h
    have hlength := length_le_spellNewlines (List.cons_ne_nil '\r' ['\n']) t
    rw [← crlf, h] at hlength
    exact List.eq_nil_of_length_eq_zero (Nat.le_zero.mp hlength)
  · rintro rfl
    rfl

theorem isEmpty_crlf (t : Text) : (crlf t).isEmpty = t.isEmpty := by
  rw [Bool.eq_iff_iff, List.isEmpty_iff, List.isEmpty_iff, crlf_eq_nil_iff]

theorem reverse_crlf (t : Text) : (crlf t).reverse = crlfBack t.reverse :=
  reverse_spellNewlines _ t

theorem crlfBack_reverse (t : Text) : (crlfBack t).reverse = crlf t.reverse :=
  reverse_spellNewlines _ t

theorem crlfBack_cons (hc : c ≠ '\n') (t : Text) : crlfBack (c :: t) = c :: crlfBack t :=
  spellNewlines_cons hc _ t

theorem crlfBack_append (t u : Text) : crlfBack (t ++ u) = crlfBack t ++ crlfBack u :=
  spellNewlines_append _ t u

theorem getLast?_crlf (t : Text) : (crlf t).getLast? = t.getLast? := by
  rcases List.eq_nil_or_concat t with rfl | ⟨t, c, rfl⟩
  · rfl
  · rw [List.concat_eq_append, crlf_append, List.getLast?_concat]
    by_cases hc : c = '\n'
    · rw [hc, crlf_newline, crlf_nil, List.getLast?_append_of_ne_nil _ (List.cons_ne_nil _ _)]
      rfl
    · rw [crlf_cons hc, crlf_nil, List.getLast?_concat]

theorem head?_crlf (hn : c ≠ '\n') (hr : c ≠ '\r') (t : Text) :
    (crlf t).head? = some c ↔ t.head? = some c := by
  cases t with
  | nil => rfl
  | cons d t =>
    by_cases hd : d = '\n'
    · subst hd
      simp [Ne.symm hn, Ne.symm hr]
    · rw [crlf_cons hd, List.head?_cons, List.head?_cons]

theorem head?_crlfBack (hc : c ≠ '\n') (t : Text) :
    (crlfBack t).head? = some c ↔ t.head? = some c := by
  cases t with
  | nil => rfl
  | cons d t =>
    by_cases hd : d = '\n'
    · subst hd
      exact iff_of_false (fun h ↦ hc (Option.some.inj h).symm) fun h ↦ hc (Option.some.inj h).symm
    · rw [crlfBack_cons hd, List.head?_cons, List.head?_cons]

theorem any_head?_crlf (h : p '\r' = p '\n') (t : Text) :
    (crlf t).head?.any p = t.head?.any p := by
  cases t with
  | nil => rfl
  | cons d t =>
    by_cases hd : d = '\n'
    · subst hd
      exact h
    · rw [crlf_cons hd, List.head?_cons, List.head?_cons]

theorem count_newline_crlf (t : Text) : (crlf t).count '\n' = t.count '\n' := by
  induction t with
  | nil => rfl
  | cons c t ih =>
    by_cases hc : c = '\n'
    · rw [hc, crlf_newline, List.count_cons_of_ne (by decide), List.count_cons_self,
        List.count_cons_self, ih]
    · rw [crlf_cons hc, List.count_cons_of_ne hc, List.count_cons_of_ne hc, ih]

theorem count_return_crlf (h : '\r' ∉ t) : (crlf t).count '\r' = t.count '\n' := by
  induction t with
  | nil => rfl
  | cons c t ih =>
    rw [List.mem_cons, not_or] at h
    by_cases hc : c = '\n'
    · rw [hc, crlf_newline, List.count_cons_self, List.count_cons_of_ne (by decide),
        List.count_cons_self, ih h.2]
    · rw [crlf_cons hc, List.count_cons_of_ne (Ne.symm h.1), List.count_cons_of_ne hc, ih h.2]

/-- Without the carriage returns the text is as it was. -/
theorem filter_crlf (h : '\r' ∉ t) : (crlf t).filter (· ≠ '\r') = t := by
  induction t with
  | nil => rfl
  | cons c t ih =>
    rw [List.mem_cons, not_or] at h
    by_cases hc : c = '\n'
    · rw [hc, crlf_newline, List.filter_cons_of_neg (by simp), List.filter_cons_of_pos (by simp),
        ih h.2]
    · rw [crlf_cons hc, List.filter_cons_of_pos (by simpa using Ne.symm h.1), ih h.2]

theorem drop_crlf (n : Nat) (t : Text) :
    (crlf t).drop (crlf (t.take n)).length = crlf (t.drop n) := by
  conv_lhs => rw [← List.take_append_drop n t, crlf_append]
  simp

/-- What stands behind a beginning that was read backwards. -/
theorem drop_crlfBack (h : k.reverse <+: t) :
    (crlf t).drop (crlfBack k).length = crlf (t.drop k.length) := by
  obtain ⟨r, rfl⟩ := h
  rw [crlf_append, ← List.reverse_reverse k, ← reverse_crlf, List.reverse_reverse,
    List.length_reverse, List.length_reverse, List.drop_left, List.drop_left]

theorem consumed_crlf (h : r <:+ t) :
    Marker.consumed (crlf t) (crlf r) = crlf (Marker.consumed t r) := by
  obtain ⟨w, rfl⟩ := h
  rw [crlf_append, Marker.consumed_left, Marker.consumed_left]

/-! ## Between a carriage return and its newline -/

/-- The text with a carriage return before every newline but the one that it begins with. -/
def crlfRest : Text → Text
  | '\n' :: t => '\n' :: crlf t
  | t => crlf t

@[simp] theorem crlfRest_newline (t : Text) : crlfRest ('\n' :: t) = '\n' :: crlf t := rfl

theorem crlfRest_eq (h : t.head? ≠ some '\n') : crlfRest t = crlf t := by
  unfold crlfRest
  split
  · exact absurd rfl h
  · rfl

theorem crlfRest_cons (hc : c ≠ '\n') (t : Text) : crlfRest (c :: t) = c :: crlf t := by
  rw [crlfRest_eq (by simpa using hc), crlf_cons hc]

/-- The carriage return of the newline that a text begins with. -/
def returnBefore (t : Text) : Text := if t.head? = some '\n' then ['\r'] else []

@[simp] theorem returnBefore_nil : returnBefore [] = [] := rfl

@[simp] theorem returnBefore_newline (t : Text) : returnBefore ('\n' :: t) = ['\r'] := rfl

theorem returnBefore_eq_nil (h : t.head? ≠ some '\n') : returnBefore t = [] := if_neg h

theorem returnBefore_append_crlfRest (t : Text) : returnBefore t ++ crlfRest t = crlf t := by
  by_cases h : t.head? = some '\n'
  · obtain ⟨u, rfl⟩ := List.head?_eq_some_iff.mp h
    rfl
  · rw [returnBefore_eq_nil h, crlfRest_eq h, List.nil_append]

/-! ## Classes -/

theorem dropWhile_crlf (h : p '\r' = p '\n') (t : Text) :
    (crlf t).dropWhile p = crlf (t.dropWhile p) :=
  dropWhile_spellNewlines (List.cons_ne_nil _ _) (by simpa using h) t

theorem takeWhile_crlf (h : p '\r' = p '\n') (t : Text) :
    (crlf t).takeWhile p = crlf (t.takeWhile p) :=
  takeWhile_spellNewlines (List.cons_ne_nil _ _) (by simpa using h) t

theorem dropWhile_crlfBack (h : p '\r' = p '\n') (t : Text) :
    (crlfBack t).dropWhile p = crlfBack (t.dropWhile p) :=
  dropWhile_spellNewlines (List.cons_ne_nil _ _) (by simpa using h) t

theorem takeWhile_crlfBack (h : p '\r' = p '\n') (t : Text) :
    (crlfBack t).takeWhile p = crlfBack (t.takeWhile p) :=
  takeWhile_spellNewlines (List.cons_ne_nil _ _) (by simpa using h) t

/-- Read backwards, a newline comes before its carriage return. -/
theorem dropWhile_crlfBack_of_newline (h : p '\n' = false) (t : Text) :
    (crlfBack t).dropWhile p = crlfBack (t.dropWhile p) := by
  induction t with
  | nil => rfl
  | cons c t ih =>
    by_cases hc : c = '\n'
    · have hstop (u : Text) : ('\n' :: u).dropWhile p = '\n' :: u :=
        List.dropWhile_cons_of_neg (by simp [h])
      rw [hc, hstop]
      exact hstop _
    · rw [crlfBack_cons hc]
      cases hp : p c with
      | true => rw [List.dropWhile_cons_of_pos hp, List.dropWhile_cons_of_pos hp, ih]
      | false =>
        rw [List.dropWhile_cons_of_neg (by simp [hp]), List.dropWhile_cons_of_neg (by simp [hp]),
          crlfBack_cons hc]

/-- A class that ends at newlines only stops between a carriage return and its newline. -/
theorem dropWhile_crlf_of_line (hr : p '\r' = true) (hn : p '\n' = false) (t : Text) :
    (crlf t).dropWhile p = crlfRest (t.dropWhile p) := by
  induction t with
  | nil => rfl
  | cons c t ih =>
    by_cases hc : c = '\n'
    · rw [hc, crlf_newline, List.dropWhile_cons_of_pos hr,
        List.dropWhile_cons_of_neg (by simp [hn]), List.dropWhile_cons_of_neg (by simp [hn]),
        crlfRest_newline]
    · rw [crlf_cons hc]
      cases hp : p c with
      | true => rw [List.dropWhile_cons_of_pos hp, List.dropWhile_cons_of_pos hp, ih]
      | false =>
        rw [List.dropWhile_cons_of_neg (by simp [hp]), List.dropWhile_cons_of_neg (by simp [hp]),
          crlfRest_cons hc]

theorem takeWhile_crlf_of_line (hr : p '\r' = true) (hn : p '\n' = false) (t : Text) :
    (crlf t).takeWhile p = crlf (t.takeWhile p) ++ returnBefore (t.dropWhile p) := by
  refine (List.append_left_inj (crlfRest (t.dropWhile p))).mp ?_
  rw [List.append_assoc, returnBefore_append_crlfRest, ← crlf_append,
    List.takeWhile_append_dropWhile, ← dropWhile_crlf_of_line hr hn,
    List.takeWhile_append_dropWhile]

theorem isWhite_return : isWhite '\r' = isWhite '\n' := rfl

theorem trimStart_crlf (t : Text) : trimStart (crlf t) = crlf (trimStart t) :=
  dropWhile_crlf isWhite_return t

theorem trimStart_crlfBack (t : Text) : trimStart (crlfBack t) = crlfBack (trimStart t) :=
  dropWhile_crlfBack isWhite_return t

theorem trimEnd_crlf (t : Text) : trimEnd (crlf t) = crlf (trimEnd t) := by
  rw [trimEnd, reverse_crlf, dropWhile_crlfBack isWhite_return, crlfBack_reverse, trimEnd]

theorem trim_crlf (t : Text) : trim (crlf t) = crlf (trim t) := by
  rw [trim, trimStart_crlf, trimEnd_crlf, trim]

theorem trailingWhite_crlf (t : Text) : trailingWhite (crlf t) = crlf (trailingWhite t) := by
  rw [trailingWhite, reverse_crlf, takeWhile_crlfBack isWhite_return, crlfBack_reverse,
    trailingWhite]

/-! ## Steps -/

/-- Steps one after the other come to the same place when each of them does. -/
theorem bind_map_of_forall {α α' β β' : Type} {x : Option α} {f : α → α'} {g : β → β'}
    {step : α → Option β} {step' : α' → Option β'} (h : ∀ a ∈ x, step' (f a) = (step a).map g) :
    (x.map f).bind step' = (x.bind step).map g := by
  cases x with
  | none => rfl
  | some a => exact h a rfl

theorem word?_crlf (hn : '\n' ∉ w) (hr : '\r' ∉ w) (t : Text) :
    word? w (crlf t) = (word? w t).map crlf := by
  induction w generalizing t with
  | nil => rfl
  | cons a w ih =>
    rw [List.mem_cons, not_or] at hn hr
    cases t with
    | nil => rfl
    | cons c t =>
      by_cases hc : c = '\n'
      · rw [hc, crlf_newline, word?, if_neg (Ne.symm hr.1), word?, if_neg (Ne.symm hn.1),
          Option.map_none]
      · rw [crlf_cons hc, word?, word?]
        split_ifs
        · exact ih hn.2 hr.2 t
        · rfl

theorem some?_crlf (h : p '\r' = p '\n') (t : Text) : some? p (crlf t) = (some? p t).map crlf := by
  cases t with
  | nil => rfl
  | cons c t =>
    by_cases hc : c = '\n'
    · subst hc
      rw [crlf_newline, some?, some?, h]
      split_ifs with hp
      · rw [List.dropWhile_cons_of_pos hp, dropWhile_crlf h, Option.map_some]
      · rfl
    · rw [crlf_cons hc, some?, some?]
      split_ifs
      · rw [dropWhile_crlf h, Option.map_some]
      · rfl

theorem white?_crlf (t : Text) : white? (crlf t) = (white? t).map crlf :=
  some?_crlf isWhite_return t

theorem keyword?_crlf (hn : '\n' ∉ k) (hr : '\r' ∉ k) (t : Text) :
    keyword? k (crlf t) = (keyword? k t).map crlf := by
  rw [keyword?, word?_crlf hn hr, keyword?]
  exact bind_map_of_forall fun r _ ↦ white?_crlf r

theorem optionally_crlf {step : Text → Option Text} (h : step (crlf t) = (step t).map crlf) :
    optionally step (crlf t) = crlf (optionally step t) := by
  rw [optionally, h, optionally]
  cases step t <;> rfl

theorem braces?_crlf (t : Text) : braces? (crlf t) = (braces? t).map crlf := by
  cases t with
  | nil => rfl
  | cons c t =>
    by_cases hbrace : c = '{'
    · subst hbrace
      rw [crlf_cons (by decide), braces?, dropWhile_crlf rfl, braces?]
      cases hd : t.dropWhile (· != '}') with
      | nil => rfl
      | cons d r =>
        obtain rfl : d = '}' := by
          have hstop := stops_dropWhile (· != '}') t
          rw [hd, stops_cons] at hstop
          simpa using hstop
        rw [crlf_cons (by decide), Option.map_some]
    · rw [braces?_eq_none hbrace, Option.map_none]
      by_cases hc : c = '\n'
      · rw [hc, crlf_newline, braces?_eq_none (by decide)]
      · rw [crlf_cons hc, braces?_eq_none hbrace]

theorem lineEnd?_crlf (h : '\r' ∉ t) : lineEnd? (crlf t) = (lineEnd? t).map crlf := by
  cases t with
  | nil => rfl
  | cons c t =>
    rw [List.mem_cons, not_or] at h
    by_cases hc : c = '\n'
    · rw [hc]
      rfl
    · have hnone (u : Text) : lineEnd? (c :: u) = none := by
        unfold lineEnd?
        split <;> simp_all
      rw [crlf_cons hc, hnone, hnone, Option.map_none]

theorem closeLine?_crlf (h : '\r' ∉ t) : closeLine? (crlf t) = (closeLine? t).map crlf := by
  rw [closeLine?, dropWhile_crlf rfl,
    optionally_crlf (word?_crlf (by decide) (by decide) _), dropWhile_crlf rfl, closeLine?]
  refine lineEnd?_crlf fun hmem ↦ h ?_
  exact (List.dropWhile_suffix _).subset
    ((optionally_suffix word?_suffix _).subset ((List.dropWhile_suffix _).subset hmem))

theorem word?_crlfRest (hn : '\n' ∉ c :: w) (hr : '\r' ∉ c :: w) (t : Text) :
    word? (c :: w) (crlfRest t) = (word? (c :: w) t).map crlf := by
  by_cases h : t.head? = some '\n'
  · obtain ⟨u, rfl⟩ := List.head?_eq_some_iff.mp h
    rw [List.mem_cons, not_or] at hn
    rw [crlfRest_newline, word?, if_neg (Ne.symm hn.1), word?, if_neg (Ne.symm hn.1),
      Option.map_none]
  · rw [crlfRest_eq h, word?_crlf hn hr]

theorem braces?_crlfRest (t : Text) : braces? (crlfRest t) = (braces? t).map crlf := by
  by_cases h : t.head? = some '\n'
  · obtain ⟨u, rfl⟩ := List.head?_eq_some_iff.mp h
    rfl
  · rw [crlfRest_eq h, braces?_crlf]

theorem lineEnd?_crlfRest (h : '\r' ∉ t) : lineEnd? (crlfRest t) = (lineEnd? t).map crlf := by
  by_cases hline : t.head? = some '\n'
  · obtain ⟨u, rfl⟩ := List.head?_eq_some_iff.mp hline
    rfl
  · rw [crlfRest_eq hline, lineEnd?_crlf h]

/-! ## Cutting -/

theorem cutAt?_cons (h : word? w (c :: t) = none) :
    cutAt? w (c :: t) = (cutAt? w t).map fun q ↦ (c :: q.1, q.2) := by
  rw [cutAt?, h]

theorem cutAt?_crlf (hne : w ≠ []) (hn : '\n' ∉ w) (hr : '\r' ∉ w) (t : Text) :
    cutAt? w (crlf t) = (cutAt? w t).map (Prod.map crlf crlf) := by
  obtain ⟨a, w, rfl⟩ := List.exists_cons_of_ne_nil hne
  induction t with
  | nil => rfl
  | cons c t ih =>
    have hword := word?_crlf hn hr (c :: t)
    by_cases hc : c = '\n'
    · subst hc
      rw [List.mem_cons, not_or] at hn hr
      have hfirst {d : Char} (hd : d ≠ a) (u : Text) : word? (a :: w) (d :: u) = none := by
        rw [word?, if_neg (Ne.symm hd)]
      rw [crlf_newline, cutAt?_cons (hfirst hr.1 _), cutAt?_cons (hfirst hn.1 _),
        cutAt?_cons (hfirst hn.1 _), ih]
      cases cutAt? (a :: w) t <;> rfl
    · rw [crlf_cons hc] at hword ⊢
      cases hw : word? (a :: w) (c :: t) with
      | none =>
        rw [hw] at hword
        rw [cutAt?_cons hword, cutAt?_cons hw, ih]
        cases cutAt? (a :: w) t with
        | none => rfl
        | some q => simp [crlf_cons hc]
      | some r =>
        rw [hw] at hword
        rw [cutAt?, hword, cutAt?, hw]
        rfl

/-- Before a word that begins with a newline its carriage return is left. -/
theorem cutAt?_newline_crlf (hn : '\n' ∉ w) (hr : '\r' ∉ w) (t : Text) :
    cutAt? ('\n' :: w) (crlf t) =
      (cutAt? ('\n' :: w) t).map fun q ↦ (crlf q.1 ++ ['\r'], crlf q.2) := by
  induction t with
  | nil => rfl
  | cons c t ih =>
    have hfirst {d : Char} (hd : d ≠ '\n') (u : Text) : word? ('\n' :: w) (d :: u) = none := by
      rw [word?, if_neg (Ne.symm hd)]
    by_cases hc : c = '\n'
    · subst hc
      have hword (u : Text) : word? ('\n' :: w) ('\n' :: u) = word? w u := by rw [word?, if_pos rfl]
      rw [crlf_newline, cutAt?_cons (hfirst (by decide) _), cutAt?, hword, word?_crlf hn hr, cutAt?,
        hword]
      cases word? w t with
      | some r => rfl
      | none =>
        rw [Option.map_none, ih]
        cases cutAt? ('\n' :: w) t <;> rfl
    · rw [crlf_cons hc, cutAt?_cons (hfirst hc _), cutAt?_cons (hfirst hc _), ih]
      cases cutAt? ('\n' :: w) t with
      | none => rfl
      | some q => simp [crlf_cons hc]

/-! ## Lines -/

/-- The lines of a text do not show how they end. -/
theorem lines_crlf (h : '\r' ∉ t) : lines (crlf t) = lines t := by
  induction hn : t.length using Nat.strongRecOn generalizing t with
  | ind n ih =>
    subst hn
    by_cases hmem : '\n' ∈ t
    · obtain ⟨l, r, rfl, hl⟩ := List.eq_append_cons_of_mem hmem
      rw [List.mem_append, List.mem_cons, not_or, not_or] at h
      have hline : '\n' ∉ l ++ ['\r'] := by simpa using hl
      have hreturn : dropReturn (l ++ ['\r']) = l := by
        rw [dropReturn, if_pos List.getLast?_concat, List.dropLast_concat]
      have hself : dropReturn l = l :=
        dropReturn_eq_self fun hlast ↦ h.1 (List.mem_of_getLast? hlast)
      calc lines (crlf (l ++ '\n' :: r))
          = lines (l ++ ['\r'] ++ '\n' :: crlf r) := by
            rw [crlf_append, crlf_eq_self hl, crlf_newline, List.append_assoc]
            rfl
        _ = l :: lines (crlf r) := by rw [lines_append hline, hreturn]
        _ = l :: lines r := by
            rw [ih r.length (by simp only [List.length_append, List.length_cons]; omega) h.2.2 rfl]
        _ = lines (l ++ '\n' :: r) := by rw [lines_append hl, hself]
    · rw [crlf_eq_self hmem]

end PluginPack.Text

/-! ## Parts -/

namespace PluginPack

open Text

variable {α β : Type}

namespace Cut

/-- The cut of the text with other line ends, where the meanings of the parts change as given. -/
def crlf (f : α → α) (k : Cut (Part α)) : Cut (Part α) :=
  ⟨Text.crlf k.first, k.rest.map fun q ↦ (⟨Text.crlf q.1.lexeme, f q.1.value⟩, Text.crlf q.2)⟩

theorem substitute_crlf {f : α → α} {g : Part α → Text} {k : Cut (Part α)}
    (hg : ∀ p ∈ k.parts, g ⟨Text.crlf p.lexeme, f p.value⟩ = Text.crlf (g p)) :
    (k.crlf f).substitute g = Text.crlf (k.substitute g) := by
  obtain ⟨first, rest⟩ := k
  have hrest : (rest.map fun q ↦ (⟨Text.crlf q.1.lexeme, f q.1.value⟩, Text.crlf q.2)).flatMap
      (fun q : Part α × Text ↦ g q.1 ++ q.2) = Text.crlf (rest.flatMap fun q ↦ g q.1 ++ q.2) := by
    induction rest with
    | nil => rfl
    | cons q rest ih =>
      rw [List.map_cons, List.flatMap_cons, List.flatMap_cons, crlf_append, crlf_append,
        ih fun p hp ↦ hg p (List.mem_cons_of_mem q.1 hp), hg q.1 List.mem_cons_self]
  simp only [substitute, render, crlf, id, hrest, crlf_append]

end Cut

namespace Marker

variable {m : Marker α} {f : α → α} {b : Option Char} {t : Text}

/-- The marker finds the same parts in a text with other line ends. Between a carriage return and
its newline it finds nothing. -/
structure IsSteady (m : Marker α) (f : α → α) : Prop where
  find : ∀ {b t}, '\r' ∉ t → m.find? b (crlf t) = (m.find? b t).map (Prod.map f crlf)
  between : ∀ {t}, m.find? (some '\r') ('\n' :: t) = none

theorem IsSteady.cutFrom_crlf (hm : m.IsSteady f) (h : '\r' ∉ t) :
    m.cutFrom b (crlf t) = (m.cutFrom b t).crlf f := by
  induction hn : t.length using Nat.strongRecOn generalizing b t with
  | ind n ih =>
    subst hn
    cases t with
    | nil =>
      rw [crlf_nil, cutFrom_nil]
      rfl
    | cons c t =>
      have hfind := hm.find (b := b) h
      cases hc : m.find? b (c :: t) with
      | some a =>
        obtain ⟨a, r⟩ := a
        rw [hc] at hfind
        have hsuffix := m.suffix hc
        rw [cutFrom_of_some m hfind, cutFrom_of_some m hc, consumed_crlf hsuffix, getLast?_crlf,
          ih r.length (m.shorter hc) (fun hr ↦ h (hsuffix.subset hr)) rfl]
        rfl
      | none =>
        rw [hc] at hfind
        have htail (b : Option Char) : m.cutFrom b (crlf t) = (m.cutFrom b t).crlf f :=
          ih t.length (Nat.lt_succ_self _) (fun hr ↦ h (List.mem_cons_of_mem c hr)) rfl
        rw [cutFrom_of_none m hc]
        by_cases hline : c = '\n'
        · subst hline
          rw [crlf_newline] at hfind ⊢
          rw [cutFrom_of_none m hfind, cutFrom_of_none m hm.between, htail]
          rfl
        · rw [crlf_cons hline] at hfind ⊢
          rw [cutFrom_of_none m hfind, htail, Cut.crlf, Cut.push, Cut.crlf, Cut.push,
            crlf_cons hline]

/-- What is written for the parts changes with their meanings, so the outcome has the other line
ends too. -/
theorem IsSteady.replace_crlf {g : α → Text} (hm : m.IsSteady f) (hg : ∀ a, g (f a) = crlf (g a))
    (h : '\r' ∉ t) : m.replace g (crlf t) = crlf (m.replace g t) := by
  rw [replace, cut, hm.cutFrom_crlf h, Cut.substitute_crlf fun p _ ↦ hg p.value]
  rfl

theorem isSteady_ofLine {step : Text → Option (α × Text)}
    {hstep : ∀ {t a r}, step t = some (a, r) → r <:+ t ∧ r.length < t.length}
    (h : ∀ {t}, '\r' ∉ t → step (crlf t) = (step t).map (Prod.map f crlf)) :
    (ofLine step hstep).IsSteady f where
  find {b t} ht := by
    simp only [ofLine]
    split_ifs
    · exact h ht
    · rfl
  between := rfl

end Marker

end PluginPack
