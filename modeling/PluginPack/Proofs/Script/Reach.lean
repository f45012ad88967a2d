import PluginPack.Proofs.Script.Passage

/-!
# How far a statement reaches

A dependency statement goes on to the end of a line, and its specifier stands at its end: nothing
but what may close the line comes behind it. Export syntax other than a list of exports is made of
keywords and white space.
-/

namespace PluginPack

open Text

/-! ## Where a statement ends -/

namespace Text

variable {r t : Text}

theorem exists_of_lineEnd?_eq_some (h : lineEnd? t = some r) :
    ∃ w, t = w ++ r ∧ (∀ c ∈ w, c = '\r' ∨ c = '\n') ∧ EndsLine w r := by
  unfold lineEnd? at h
  split at h
  · cases h
    exact ⟨[], rfl, by simp, .inr rfl⟩
  · cases h
    exact ⟨['\n'], rfl, by simp, .inl rfl⟩
  · cases h
    exact ⟨['\r'], rfl, by simp, .inr rfl⟩
  · cases h
    exact ⟨['\r', '\n'], rfl, by simp, .inl rfl⟩
  · cases h

/-- The characters that may stand between the end of a statement and the next line. -/
def closers : Text := " \t;\r\n".toList

theorem exists_of_closeLine?_eq_some (h : closeLine? t = some r) :
    ∃ w, t = w ++ r ∧ (∀ c ∈ w, c ∈ closers) ∧ EndsLine w r := by
  have hblank : ∀ s : Text, ∀ c ∈ s.takeWhile isBlank, c ∈ closers := by
    intro s c hc
    have hc := List.all_eq_true.mp List.all_takeWhile c hc
    simp only [isBlank, Bool.or_eq_true, beq_iff_eq] at hc
    rcases hc with rfl | rfl <;> decide
  have hsemicolon : ∀ s : Text, ∃ w,
      s = w ++ optionally (word? [';']) s ∧ ∀ c ∈ w, c ∈ closers := by
    intro s
    cases hs : word? [';'] s with
    | none => exact ⟨[], by rw [optionally, hs]; rfl, by simp⟩
    | some u =>
      refine ⟨[';'], ?_, by decide⟩
      rw [optionally, hs]
      exact word?_eq_some_iff.mp hs
  obtain ⟨w₁, h₁, hw₁⟩ := hsemicolon (t.dropWhile isBlank)
  obtain ⟨w₂, h₂, hw₂, hend⟩ := exists_of_lineEnd?_eq_some h
  set s := optionally (word? [';']) (t.dropWhile isBlank)
  refine ⟨t.takeWhile isBlank ++ (w₁ ++ (s.takeWhile isBlank ++ w₂)), ?_, ?_, ?_⟩
  · rw [List.append_assoc, List.append_assoc, List.append_assoc, ← h₂,
      List.takeWhile_append_dropWhile, ← h₁, List.takeWhile_append_dropWhile]
  · simp only [List.mem_append]
    rintro c (hc | hc | hc | hc)
    · exact hblank t c hc
    · exact hw₁ c hc
    · exact hblank s c hc
    · rcases hw₂ c hc with rfl | rfl <;> decide
  · rw [← List.append_assoc, ← List.append_assoc]
    exact hend.append_left _

end Text

namespace Script

variable {p : Text × Text} {s r t : Text}

/-! ## Where the specifier stands -/

theorem exists_of_specifier?_eq_some (h : specifier? t = some (s, r)) :
    ∃ q q', isSpecifierQuote q = true ∧ isSpecifierQuote q' = true ∧
      (∀ c ∈ s, isSpecifierChar c = true) ∧ t = q :: (s ++ q' :: r) := by
  unfold specifier? at h
  split at h
  · cases h
  · rename_i q u
    split at h
    · rename_i hq
      split at h
      · cases h
      · cases h
      · rename_i q' rest hd hne
        split at h
        · rename_i hq'
          cases h
          refine ⟨q, q', hq, hq', List.all_eq_true.mp List.all_takeWhile, ?_⟩
          rw [← hd, List.takeWhile_append_dropWhile]
        · cases h
    · cases h

/-- Reading a text led to a specifier and behind it to the end of a line. -/
def Names (t s r : Text) : Prop :=
  ∃ u a, u <:+ t ∧ specifier? u = some (s, a) ∧ closeLine? a = some r

theorem Names.of_suffix {u : Text} (h : Names u s r) (hu : u <:+ t) : Names t s r := by
  obtain ⟨v, a, hv, hs, hr⟩ := h
  exact ⟨v, a, hv.trans hu, hs, hr⟩

theorem names_of_specifier? (hp : specifier? t = some p) (h : closeStatement? p = some (s, r)) :
    Names t s r := by
  obtain ⟨a, ha, he⟩ := Option.map_eq_some_iff.mp h
  cases he
  exact ⟨t, p.2, List.suffix_refl t, hp, ha⟩

theorem names_of_fromSpecifier? (hp : fromSpecifier? t = some p)
    (h : closeStatement? p = some (s, r)) : Names t s r := by
  obtain ⟨u, hu, hp⟩ := Option.bind_eq_some_iff.mp hp
  exact (names_of_specifier? hp h).of_suffix (keyword?_suffix hu)

theorem names_of_importBody? (h : importBody? t = some (s, r)) : Names t s r := by
  obtain ⟨p, hp, h⟩ := Option.bind_eq_some_iff.mp h
  rcases Option.or_eq_some_iff.mp hp with hp | ⟨-, hp⟩
  · obtain ⟨a, ha, hp⟩ := Option.bind_eq_some_iff.mp hp
    obtain ⟨b, hb, hp⟩ := Option.bind_eq_some_iff.mp hp
    exact (names_of_fromSpecifier? hp h).of_suffix
      ((white?_suffix hb).trans (importClause?_suffix ha))
  · exact names_of_specifier? hp h

theorem names_of_importStatement? (h : importStatement? t = some (s, r)) : Names t s r := by
  obtain ⟨a, ha, h⟩ := Option.bind_eq_some_iff.mp h
  rcases Option.or_eq_some_iff.mp h with h | ⟨-, h⟩
  · obtain ⟨b, hb, h⟩ := Option.bind_eq_some_iff.mp h
    exact (names_of_importBody? h).of_suffix ((keyword?_suffix hb).trans (keyword?_suffix ha))
  · exact (names_of_importBody? h).of_suffix (keyword?_suffix ha)

theorem names_of_reexportSource? (h : reexportSource? t = some (s, r)) : Names t s r := by
  obtain ⟨p, hp, h⟩ := Option.bind_eq_some_iff.mp h
  exact (names_of_fromSpecifier? hp h).of_suffix (List.dropWhile_suffix _)

theorem names_of_reexportAll? (h : reexportAll? t = some (s, r)) : Names t s r := by
  unfold reexportAll? at h
  split at h
  · exact names_of_reexportSource? h
  · rename_i u hu
    obtain ⟨a, ha, hu⟩ := Option.bind_eq_some_iff.mp hu
    refine Names.of_suffix ?_ ((keyword?_suffix hu).trans (white?_suffix ha))
    dsimp only at h
    split at h
    · cases h
    · rcases Option.or_eq_some_iff.mp h with h | ⟨-, h⟩
      · exact (names_of_reexportSource? h).of_suffix (List.drop_suffix _ _)
      · split at h
        · cases h
        · exact (names_of_reexportSource? h).of_suffix (List.drop_suffix _ _)

theorem names_of_reexportStatement? (h : reexportStatement? t = some (s, r)) : Names t s r := by
  obtain ⟨a, ha, h⟩ := Option.bind_eq_some_iff.mp h
  refine Names.of_suffix ?_ ((optionally_suffix
    (fun {_ _} (h : keyword? "type".toList _ = _) ↦ keyword?_suffix h) a).trans
      (keyword?_suffix ha))
  rcases Option.or_eq_some_iff.mp h with h | ⟨-, h⟩
  · obtain ⟨b, hb, h⟩ := Option.bind_eq_some_iff.mp h
    exact (names_of_reexportAll? h).of_suffix (word?_suffix hb)
  · obtain ⟨b, hb, h⟩ := Option.bind_eq_some_iff.mp h
    exact (names_of_reexportSource? h).of_suffix (braces?_suffix hb)

/-- A dependency statement ends in its specifier, which closes a line. -/
theorem names_of_dependency? (h : dependency? t = some (s, r)) : Names t s r := by
  refine Names.of_suffix ?_ (List.dropWhile_suffix isBlank)
  rcases Option.or_eq_some_iff.mp h with h | ⟨-, h⟩
  · exact names_of_importStatement? h
  · exact names_of_reexportStatement? h

/-- What was read of such a text, piece by piece. -/
theorem Names.exists_eq {w : Text} (h : Names (w ++ r) s r) :
    ∃ x q q' v, w = x ++ q :: (s ++ q' :: v) ∧ isSpecifierQuote q = true ∧
      isSpecifierQuote q' = true ∧ (∀ c ∈ s, isSpecifierChar c = true) ∧
      (∀ c ∈ v, c ∈ closers) ∧ EndsLine v r := by
  obtain ⟨u, a, ⟨x, hx⟩, hs, hr⟩ := h
  obtain ⟨q, q', hq, hq', hchars, rfl⟩ := exists_of_specifier?_eq_some hs
  obtain ⟨v, rfl, hv, hend⟩ := exists_of_closeLine?_eq_some hr
  refine ⟨x, q, q', v, ?_, hq, hq', hchars, hv, hend⟩
  refine List.append_cancel_right (?_ : w ++ r = _ ++ r)
  rw [← hx]
  simp only [List.append_assoc, List.cons_append]

theorem Names.endsLine {w : Text} (h : Names (w ++ r) s r) : EndsLine w r := by
  obtain ⟨x, q, q', v, rfl, -, -, -, -, hend⟩ := h.exists_eq
  have hw : x ++ q :: (s ++ q' :: v) = x ++ q :: (s ++ [q']) ++ v := by
    simp only [List.append_assoc, List.cons_append, List.nil_append]
  rw [hw]
  exact hend.append_left _

/-! ## Export syntax -/

/-- The letters of the keywords. -/
def exportLetters : Text := "exportdefault".toList

/-- Keywords of export syntax, with white space between and behind them. -/
structure IsExportWord (l : Text) : Prop where
  letters : ∀ c ∈ l, isWhite c = true ∨ c ∈ exportLetters
  ends : ∀ c ∈ l.getLast?, isWhite c = true

theorem isExportWord_append {x w : Text} (hx : ∀ c ∈ x, isWhite c = true ∨ c ∈ exportLetters)
    (hne : w ≠ []) (hw : ∀ c ∈ w, isWhite c = true) : IsExportWord (x ++ w) where
  letters c hc := (List.mem_append.mp hc).elim (hx c) fun h ↦ .inl (hw c h)
  ends c hc := by
    rw [List.getLast?_append_of_ne_nil x hne] at hc
    exact hw c (List.mem_of_getLast? hc)

theorem IsExportWord.not_mem {l : Text} {c : Char} (h : IsExportWord l) (hc : isWhite c = false)
    (hletter : c ∉ exportLetters) : c ∉ l := fun hmem ↦
  (h.letters c hmem).elim (fun hwhite ↦ absurd (hwhite.symm.trans hc) (by decide)) hletter

theorem IsExportWord.misses_import {α : Type} {p : Part α} (h : IsExportWord p.lexeme) :
    Marker.Misses "import".toList p := by
  have hi : 'i' ∉ p.lexeme := h.not_mem (by decide) (by decide)
  have hblack : ∀ c ∈ "import".toList, isWhite c = false := by decide
  refine Marker.misses_of_getLast? (fun hin ↦ hi (hin.subset (by decide))) fun c hc hmem ↦ ?_
  exact absurd ((h.ends c hc).symm.trans (hblack c hmem)) (by decide)

theorem mem_exportLetters_of_blank {c : Char} (h : c ∈ t.takeWhile isBlank) :
    isWhite c = true ∨ c ∈ exportLetters :=
  .inl (isWhite_of_isBlank (List.all_eq_true.mp List.all_takeWhile c h))

theorem isExportWord_of_mem_exportDefault {before : Option Char} {p : Part Text}
    (hp : p ∈ (exportDefault.cutFrom before t).parts) : IsExportWord p.lexeme := by
  obtain ⟨b, u, r, hfind, hu⟩ := Marker.exists_find?_of_mem_parts hp
  obtain ⟨a, ha, he⟩ := Option.map_eq_some_iff.mp (Marker.of_find?_ofLine hfind)
  obtain ⟨c, hc, hr⟩ := Option.bind_eq_some_iff.mp ha
  obtain ⟨v, -, hv, -, hexport⟩ := exists_of_keyword?_eq_some hc
  obtain ⟨w, hne, hw, -, hdefault⟩ := exists_of_keyword?_eq_some hr
  obtain rfl : a = r := (Prod.mk.inj he).2
  have hlexeme : p.lexeme =
      u.takeWhile isBlank ++ ("export".toList ++ (v ++ "default".toList)) ++ w := by
    refine List.append_cancel_right (?_ : _ ++ a = _ ++ a)
    rw [← hu]
    conv_lhs => rw [← List.takeWhile_append_dropWhile (p := isBlank) (l := u), hexport, hdefault]
    simp only [List.append_assoc]
  have hletters : ∀ d ∈ "export".toList ++ "default".toList, d ∈ exportLetters := by decide
  rw [hlexeme]
  refine isExportWord_append ?_ hne hw
  simp only [List.mem_append] at hletters ⊢
  rintro d (hd | hd | hd | hd)
  · exact mem_exportLetters_of_blank hd
  · exact .inr (hletters d (.inl hd))
  · exact .inl (hv d hd)
  · exact .inr (hletters d (.inr hd))

theorem isExportWord_of_mem_exportKeyword {before : Option Char} {p : Part Text}
    (hp : p ∈ (exportKeyword.cutFrom before t).parts) : IsExportWord p.lexeme := by
  obtain ⟨b, u, r, hfind, hu⟩ := Marker.exists_find?_of_mem_parts hp
  obtain ⟨a, ha, he⟩ := Option.map_eq_some_iff.mp (Marker.of_find?_ofLine hfind)
  obtain ⟨w, hne, hw, -, hexport⟩ := exists_of_keyword?_eq_some ha
  obtain rfl : a = r := (Prod.mk.inj he).2
  have hlexeme : p.lexeme = u.takeWhile isBlank ++ "export".toList ++ w := by
    refine List.append_cancel_right (?_ : _ ++ a = _ ++ a)
    rw [← hu]
    conv_lhs => rw [← List.takeWhile_append_dropWhile (p := isBlank) (l := u), hexport]
    simp only [List.append_assoc]
  have hletters : ∀ d ∈ "export".toList, d ∈ exportLetters := by decide
  rw [hlexeme]
  refine isExportWord_append (fun d hd ↦ ?_) hne hw
  exact (List.mem_append.mp hd).elim mem_exportLetters_of_blank fun hd ↦ .inr (hletters d hd)

end Script

end PluginPack
