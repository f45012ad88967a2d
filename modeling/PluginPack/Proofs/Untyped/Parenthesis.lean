import PluginPack.Proofs.Untyped.Tail

/-!
# In front of an opening parenthesis

In a script without types no list of type parameters stands in front of a parenthesis. Whether the
parenthesis may open parameters is told by the word at the end of the token in front of it.
-/

namespace PluginPack

open Text TypeSyntax

namespace Untyped

variable {c : Char} {k : Kind} {r w : Text} {t : Token} {ts : List Token}

/-! ## Type parameters -/

/-- What stands in front of white space, read backwards, is the last token. -/
theorem trimStart_reverse_write (ht : t.IsSpelled) (hw : ∀ c ∈ w, isWhite c = true)
    (ts : List Token) :
    trimStart (write (ts ++ [t]) ++ w).reverse =
      t.text.reverse ++ (t.gap.reverse ++ (write ts).reverse) := by
  have hne : t.text.reverse ≠ [] := by simpa using ne_nil_of_spells ht.2
  rw [write_append, write_cons, write_nil, List.append_nil]
  simp only [List.reverse_append, List.append_assoc]
  exact dropWhile_append_eq (fun c hc ↦ hw c (List.mem_reverse.mp hc))
    ((stops_isWhite_reverse ht.2).append hne)

theorem trimStart_reverse_of_white (hw : ∀ c ∈ w, isWhite c = true) : trimStart w.reverse = [] :=
  trimStart_of_white fun c hc ↦ hw c (List.mem_reverse.mp hc)

theorem kind_of_getLast?_angle (h : k.spells w = true) (hw : w.getLast? = some '>') :
    k = .arrow := by
  have hmem : '>' ∈ w := List.mem_of_mem_getLast? hw
  rcases spells_iff.mp h with ⟨-, h⟩ | ⟨-, h⟩ | ⟨rfl, -⟩ | h
  · exact absurd (all_of_isIdentifier h _ hmem) (by decide)
  · exact absurd (all_of_isNumber h _ hmem) (by decide)
  · rcases getLast?_of_isString h with hlast | hlast
    · rw [hw] at hlast
      cases hlast
    · rw [hw] at hlast
      cases hlast
  · have hall : ∀ k ∈ Kind.all, ∀ w ∈ k.spellings, w.getLast? = some '>' → k = .arrow := by
      decide
    exact hall k k.mem_all w h hw

/-- No list of type parameters stands in a script without types. -/
theorem beforeTypeParameters?_write (hts : ∀ t ∈ ts, t.IsSpelled) (hw : ∀ c ∈ w, isWhite c = true) :
    beforeTypeParameters? (write ts ++ w).reverse = none := by
  rw [beforeTypeParameters?]
  rcases List.eq_nil_or_concat ts with rfl | ⟨us, t, rfl⟩
  · rw [write_nil, List.nil_append, trimStart_reverse_of_white hw]
  · rw [List.concat_eq_append] at hts ⊢
    have ht := hts t (by simp)
    rw [trimStart_reverse_write ht hw]
    split
    · rfl
    · rename_i hnot heq
      have hlast : t.text.getLast? = some '>' := by
        obtain ⟨d, v, hd⟩ := List.exists_cons_of_ne_nil
          (show t.text.reverse ≠ [] by simpa using ne_nil_of_spells ht.2)
        rw [hd, List.cons_append] at heq
        rw [← List.head?_reverse, hd, (List.cons.inj heq).1]
        rfl
      have htext := text_of_arrow ht.2 (kind_of_getLast?_angle ht.2 hlast)
      rw [htext] at heq
      exact absurd (List.cons.inj heq).2.symm (hnot _)
    · rfl

/-! ## Words -/

/-- A character of a word in front of a parenthesis. -/
def isPart (c : Char) : Bool := isAlphanumeric c || c == '_' || c == '$'

theorem isWhite_of_isPart (h : isPart c = true) : isWhite c = false := by
  refine isWhite_of_wordRanges h (by decide) fun hcode ↦ ?_
  rw [isPart, isAlphanumeric, if_neg hcode] at h
  simp only [Bool.or_eq_true, beq_iff_eq] at h
  simp only [wordRanges, inRanges, List.any_append, Bool.or_eq_true]
  rcases h with (((h | h) | h) | rfl) | rfl
  · exact .inl (.inl (.inl h))
  · exact .inl (.inl (.inr h))
  · exact .inl (.inr h)
  · exact absurd (by decide) hcode
  · exact absurd (by decide) hcode

theorem isPart_of_isWhite (hc : isWhite c = true) : isPart c = false := by
  by_contra hpart
  rw [isWhite_of_isPart (by simpa using hpart)] at hc
  cases hc

theorem isPart_of_mem_symbols (hc : c ∈ symbols) : isPart c = false :=
  (show ∀ d ∈ symbols, isPart d = false by decide) c hc

/-- The word that a text ends in, if any. -/
def lastWord (t : Text) : Text := (t.reverse.takeWhile isPart).reverse

/-- A word ends where it does not go on in the text in front of its token. -/
theorem stops_isPart_before (hts : Laid (ts ++ [t])) (ht : t.kind.isWordlike = true) :
    Stops isPart (t.gap.reverse ++ (write ts).reverse) := by
  have hspelled := hts.of_append.1
  by_cases hgap : t.gap = []
  · rw [hgap, List.reverse_nil, List.nil_append]
    rcases List.eq_nil_or_concat ts with rfl | ⟨us, u, rfl⟩
    · exact stops_nil
    · rw [List.concat_eq_append, List.append_assoc] at hts
      have hpair : Laid [u, t] := hts.of_append
      have hu : u.kind.isWordlike = false := by
        by_contra hword
        exact hpair.adjacent.2 (by simpa using hword) ht hgap
      rw [List.concat_eq_append, write_append, write_cons, write_nil, List.append_nil]
      simp only [List.reverse_append, List.append_assoc]
      have hne : u.text.reverse ≠ [] := by simpa using ne_nil_of_spells hpair.spells
      refine Stops.append (fun c hc ↦ isPart_of_mem_symbols ?_) hne
      rw [List.head?_reverse] at hc
      exact getLast?_mem_symbols hu hpair.spells c hc
  · have hne : t.gap.reverse ≠ [] := by simpa using hgap
    refine Stops.append (fun c hc ↦ isPart_of_isWhite (hspelled.1 c ?_)) hne
    exact List.mem_reverse.mp (List.mem_of_mem_head? hc)

theorem takeWhile_append_of_stops {p : Char → Bool} (h : Stops p r) (w : Text) :
    (w ++ r).takeWhile p = w.takeWhile p := by
  rw [List.takeWhile_append, h.takeWhile_eq]
  split
  · rename_i heq
    rw [List.append_nil, (List.takeWhile_prefix p).eq_of_length heq]
  · rfl

/-- What is read backwards in front of a parenthesis is the end of the last token. -/
theorem takeWhile_isPart_write (hts : Laid (ts ++ [t])) (hw : ∀ c ∈ w, isWhite c = true) :
    (trimStart (write (ts ++ [t]) ++ w).reverse).takeWhile isPart = (lastWord t.text).reverse := by
  have ht := hts.of_append.1
  rw [trimStart_reverse_write ht hw, lastWord, List.reverse_reverse]
  by_cases hword : t.kind.isWordlike = true
  · exact takeWhile_append_of_stops (stops_isPart_before hts hword) _
  · have hstop : Stops isPart t.text.reverse := by
      intro c hc
      rw [List.head?_reverse] at hc
      exact isPart_of_mem_symbols (getLast?_mem_symbols (by simpa using hword) ht.2 c hc)
    have hne : t.text.reverse ≠ [] := by simpa using ne_nil_of_spells ht.2
    rw [hstop.takeWhile_eq]
    exact (hstop.append hne).takeWhile_eq

theorem wordBefore?_of_takeWhile (h : (trimStart r).takeWhile isPart = w.reverse) :
    (wordBefore? r).map Prod.fst = if w = [] then none else some w := by
  have hword : (trimStart r).takeWhile (fun c ↦ isAlphanumeric c || c == '_' || c == '$') =
      w.reverse := h
  simp only [wordBefore?, hword]
  rcases List.eq_nil_or_concat w with rfl | ⟨v, c, rfl⟩
  · rfl
  · simp

/-- A word that may take parameters stands in front of a parenthesis. -/
def TakesParameters (prev : Option Token) : Prop :=
  ∃ t ∈ prev, lastWord t.text ≠ [] ∧ lastWord t.text ∉ controlKeywords

instance (prev : Option Token) : Decidable (TakesParameters prev) :=
  inferInstanceAs (Decidable (∃ t ∈ prev, _))

theorem contextOf_of_wordBefore? (h : (wordBefore? r).map Prod.fst = some w) :
    contextOf r = .function ∨ contextOf r = .name ↔ w ∉ controlKeywords := by
  obtain ⟨⟨v, x⟩, hx, rfl⟩ := Option.map_eq_some_iff.mp h
  have hfunction : "function".toList ∉ controlKeywords := by decide
  rw [contextOf, hx]
  dsimp only
  split
  · rename_i hv
    simpa [hv] using hfunction
  · split
    · rename_i hv
      simpa using hv
    · rename_i hv
      split
      · split
        · simpa using hv
        · simpa using hv
      · simpa using hv

/-- **Words in front of a parenthesis.** The context is that of a parameter list just behind a word
that may take parameters. -/
theorem contextOf_write (hts : Laid ts) (hw : ∀ c ∈ w, isWhite c = true) :
    contextOf (write ts ++ w).reverse = .function ∨ contextOf (write ts ++ w).reverse = .name ↔
      TakesParameters ts.getLast? := by
  rcases List.eq_nil_or_concat ts with rfl | ⟨us, t, rfl⟩
  · have hnil : (wordBefore? (write [] ++ w).reverse).map Prod.fst = none := by
      refine wordBefore?_of_takeWhile (w := []) ?_
      rw [write_nil, List.nil_append, trimStart_reverse_of_white hw]
      rfl
    rw [contextOf, Option.map_eq_none_iff.mp hnil]
    simp [TakesParameters]
  · rw [List.concat_eq_append] at hts ⊢
    have hword := wordBefore?_of_takeWhile (takeWhile_isPart_write hts hw)
    rw [TakesParameters, List.getLast?_append, List.getLast?_singleton, Option.some_or]
    split at hword
    · rename_i hnil
      rw [contextOf, Option.map_eq_none_iff.mp hword]
      simp [hnil]
    · rename_i hne
      rw [contextOf_of_wordBefore? hword]
      simp [hne]

end Untyped

end PluginPack
