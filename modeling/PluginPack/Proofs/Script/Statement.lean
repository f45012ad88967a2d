import PluginPack.Proofs.Script.ImportLayout
import PluginPack.Proofs.Script.Reach

/-!
# What is read as a dependency statement

The texts that are read as imports and re-exports, as a grammar of their own: a keyword, a heading
that says what is taken from the module, the specifier in quotes, and nothing behind it but what may
close the line. A text is read exactly when it is of this grammar.

The grammar is wider than the language in four places. The closing quote need not be the opening
one, a binding may stand in the place of a default name, `type` may stand in front of a specifier
alone, and `from` may stand right behind the name that a re-export gives. It is narrower in one: no
quote may stand in a specifier.
-/

namespace PluginPack

open Text

/-! ## White space -/

namespace Script

/-- White space, of which there is some. -/
def IsSpace (t : Text) : Prop := IsGap t ∧ t ≠ []

instance (t : Text) : Decidable (IsSpace t) := inferInstanceAs (Decidable (_ ∧ _))

/-! ## Statements -/

/-- What stands between the keyword of a statement and its specifier. -/
inductive Heading where
  | imports (h : Head)
  /-- The word `type` with the white space after it. -/
  | bare (gap : Text)
  /-- A first binding in the place of the default name of an import. -/
  | bindings (type : Option Text) (first : Binding) (space space' : Text) (second : Binding)
    (before after : Text)
  /-- A binding, or the star without a name, that a re-export passes on. -/
  | reexports (type : Option Text) (b : Option Binding) (before after : Text)
deriving DecidableEq, Repr

namespace Heading

def keyword : Heading → Text
  | imports _ | bare _ | bindings .. => "import".toList
  | reexports .. => "export".toList

/-- What a re-export passes on. -/
def exported : Option Binding → Text
  | none => ['*']
  | some b => b.text

def text : Heading → Text
  | imports h => h.text
  | bare gap => "type".toList ++ gap
  | bindings type b space space' b' before after =>
    typeText type ++ (b.text ++ (space ++ ',' :: (space' ++
      (b'.text ++ (before ++ ("from".toList ++ after))))))
  | reexports type b before after =>
    typeText type ++ (exported b ++ (before ++ ("from".toList ++ after)))

def IsRead : Heading → Prop
  | imports h => h.IsWellFormed ∧ h.IsPlain
  | bare gap => IsSpace gap
  | bindings type b space space' b' before after =>
    (∀ g ∈ type, IsSpace g) ∧ (b.IsWellFormed ∧ b.IsPlain) ∧ IsGap space ∧ IsGap space' ∧
      (b'.IsWellFormed ∧ b'.IsPlain) ∧ IsSpace before ∧ IsSpace after
  | reexports type b before after =>
    (∀ g ∈ type, IsSpace g) ∧ (∀ b' ∈ b, b'.IsWellFormed ∧ b'.IsPlain) ∧ IsGap before ∧
      IsSpace after

instance : (h : Heading) → Decidable h.IsRead
  | imports _ => inferInstanceAs (Decidable (_ ∧ _))
  | bare gap => inferInstanceAs (Decidable (IsSpace gap))
  | bindings .. => inferInstanceAs (Decidable (_ ∧ (_ ∧ _) ∧ _ ∧ _ ∧ (_ ∧ _) ∧ _ ∧ _))
  | reexports .. => inferInstanceAs (Decidable (_ ∧ _ ∧ _ ∧ _))

end Heading

/-- A dependency statement without the newline at its end. -/
structure Statement where
  indent : Text
  /-- The white space after the keyword. -/
  gap : Text
  heading : Heading
  opening : Char
  specifier : Text
  closing : Char
  /-- What follows the specifier on its line. -/
  tail : Text
deriving DecidableEq, Repr

namespace Statement

def text (s : Statement) : Text :=
  s.indent ++ (s.heading.keyword ++ (s.gap ++ (s.heading.text ++
    s.opening :: (s.specifier ++ s.closing :: s.tail))))

structure IsRead (s : Statement) : Prop where
  indent : ∀ c ∈ s.indent, isBlank c = true
  gap : IsSpace s.gap
  heading : s.heading.IsRead
  opening : isSpecifierQuote s.opening = true
  specifier : s.specifier ≠ [] ∧ ∀ c ∈ s.specifier, isSpecifierChar c = true
  closing : isSpecifierQuote s.closing = true
  tail : '\n' ∉ s.tail ∧ IsClosing s.tail

instance (s : Statement) : Decidable s.IsRead :=
  decidable_of_iff ((∀ c ∈ s.indent, isBlank c = true) ∧ IsSpace s.gap ∧ s.heading.IsRead ∧
    isSpecifierQuote s.opening = true ∧
    (s.specifier ≠ [] ∧ ∀ c ∈ s.specifier, isSpecifierChar c = true) ∧
    isSpecifierQuote s.closing = true ∧ '\n' ∉ s.tail ∧ IsClosing s.tail)
    ⟨fun ⟨h₁, h₂, h₃, h₄, h₅, h₆, h₇⟩ ↦ ⟨h₁, h₂, h₃, h₄, h₅, h₆, h₇⟩,
      fun ⟨h₁, h₂, h₃, h₄, h₅, h₆, h₇⟩ ↦ ⟨h₁, h₂, h₃, h₄, h₅, h₆, h₇⟩⟩

end Statement

/-! ## From a statement to its reading -/

variable {b b' : Binding} {h : Heading} {s : Statement} {type : Option Text}
  {before after gap space space' n r t u v : Text} {p : Text × Text} {q : Char}

theorem IsSpace.white?_append (hw : IsSpace v) (ht : Stops isWhite t) :
    white? (v ++ t) = some t := by
  rw [white?_gap hw.1 ht, if_neg hw.2]

theorem IsSpace.keyword?_append (hw : IsSpace v) (ht : Stops isWhite t) :
    keyword? n (n ++ (v ++ t)) = some t :=
  Text.keyword?_append hw.2 hw.1 ht

theorem IsSpace.stops (hw : IsSpace v) : Stops isNameChar (v ++ t) :=
  stops_isNameChar_of_isGap hw.1 hw.2

theorem stops_binding (b : Binding) (z : Text) : Stops isWhite (b.text ++ z) := by
  obtain ⟨d, u, hcons, hd⟩ := exists_binding_text_eq_cons b
  rw [hcons]
  exact stops_cons.mpr (by rcases hd with rfl | rfl <;> rfl)

theorem stops_from : Stops isWhite ("from".toList ++ t) := stops_cons.mpr (by decide)

theorem exists_eq_quote_cons (hread : (specifier? u).bind closeStatement? = some p) :
    ∃ q v, u = q :: v ∧ isSpecifierQuote q = true := by
  cases u with
  | nil => cases hread
  | cons c u =>
    refine ⟨c, u, rfl, ?_⟩
    by_contra hc
    rw [specifier?_eq_none (by simpa using hc)] at hread
    cases hread

theorem stops_source (hread : (specifier? u).bind closeStatement? = some p) : Stops isWhite u := by
  obtain ⟨q, v, rfl, hq⟩ := exists_eq_quote_cons hread
  exact stops_quote hq

theorem fromSpecifier?_append (hafter : IsSpace after)
    (hread : (specifier? u).bind closeStatement? = some p) :
    (fromSpecifier? ("from".toList ++ (after ++ u))).bind closeStatement? = some p := by
  rw [fromSpecifier?, hafter.keyword?_append (stops_source hread), Option.bind_some, hread]

/-- Two bindings lead to the specifier. -/
theorem importBody?_bindings (hb : b.IsWellFormed ∧ b.IsPlain) (hspace : IsGap space)
    (hspace' : IsGap space') (hb' : b'.IsWellFormed ∧ b'.IsPlain) (hbefore : IsSpace before)
    (hafter : IsSpace after) (hread : (specifier? u).bind closeStatement? = some p) :
    importBody? (b.text ++ (space ++ ',' :: (space' ++
      (b'.text ++ (before ++ ("from".toList ++ (after ++ u))))))) = some p := by
  have hclause : importClause? (b.text ++ (space ++ ',' :: (space' ++
      (b'.text ++ (before ++ ("from".toList ++ (after ++ u))))))) =
      some (before ++ ("from".toList ++ (after ++ u))) := by
    rw [importClause?, binding?_text hb.1 hb.2 fun _ ↦ stops_isNameChar_comma hspace,
      Option.some_or, Option.map_some, optionally, secondBinding?_comma b' hspace hspace',
      binding?_text hb'.1 hb'.2 fun _ ↦ hbefore.stops, Option.getD_some]
  have hspecifier : ∀ z, specifier? (b.text ++ z) = none := fun z ↦
    specifier?_clause (c := .binding b) hb.1 z
  rw [importBody?, hclause, hspecifier, Option.or_none, Option.bind_some,
    hbefore.white?_append stops_from, Option.bind_some, fromSpecifier?_append hafter hread]

/-- The word `type` in front of a text is passed, and without it the text stays. -/
theorem optionally_type (htype : ∀ g ∈ type, IsSpace g) (ht : Stops isWhite t)
    (hnone : keyword? "type".toList t = none) :
    optionally (keyword? "type".toList) (typeText type ++ t) = t := by
  cases type with
  | none => rw [typeText, List.nil_append, optionally, hnone, Option.getD_none]
  | some g =>
    rw [typeText, List.append_assoc, optionally, (htype g rfl).keyword?_append ht, Option.getD_some]

theorem keyword?_type_binding (b : Binding) (z : Text) :
    keyword? "type".toList (b.text ++ z) = none := by
  obtain ⟨d, u, hcons, hd⟩ := exists_binding_text_eq_cons b
  rw [hcons]
  rcases hd with rfl | rfl <;> rfl

theorem importStatement?_bindings (hgap : IsSpace gap)
    (hh : (Heading.bindings type b space space' b' before after).IsRead)
    (hread : (specifier? u).bind closeStatement? = some p) :
    importStatement? ("import".toList ++ (gap ++
      ((Heading.bindings type b space space' b' before after).text ++ u))) = some p := by
  obtain ⟨htype, hb, hspace, hspace', hb', hbefore, hafter⟩ := hh
  have hbody := importBody?_bindings hb hspace hspace' hb' hbefore hafter hread
  have hstop : ∀ z, Stops isWhite (typeText type ++ (b.text ++ z)) := by
    intro z
    cases type with
    | none => exact stops_binding b z
    | some g => exact stops_cons.mpr (by decide)
  have htext : (Heading.bindings type b space space' b' before after).text ++ u =
      typeText type ++ (b.text ++ (space ++ ',' :: (space' ++
        (b'.text ++ (before ++ ("from".toList ++ (after ++ u))))))) := by
    simp only [Heading.text, List.append_assoc, List.cons_append]
  rw [htext, importStatement?, hgap.keyword?_append (hstop _), Option.bind_some]
  cases type with
  | none =>
    rw [typeText, List.nil_append, keyword?_type_binding, Option.bind_none, Option.none_or, hbody]
  | some g =>
    rw [typeText, List.append_assoc, (htype g rfl).keyword?_append (stops_binding b _),
      Option.bind_some, hbody, Option.some_or]

theorem importStatement?_bare (hgap : IsSpace gap) (hspace : IsSpace space)
    (hread : (specifier? u).bind closeStatement? = some p) :
    importStatement? ("import".toList ++ (gap ++ ("type".toList ++ (space ++ u)))) = some p := by
  have hstop : Stops isWhite ("type".toList ++ (space ++ u)) := stops_cons.mpr (by decide)
  have hclause : importClause? u = none := by
    obtain ⟨q, v, rfl, hq⟩ := exists_eq_quote_cons hread
    rcases eq_of_isSpecifierQuote hq with rfl | rfl <;> rfl
  rw [importStatement?, hgap.keyword?_append hstop, Option.bind_some,
    hspace.keyword?_append (stops_source hread), Option.bind_some, importBody?, hclause,
    Option.bind_none, Option.none_or, hread, Option.some_or]

/-! ### Re-exports -/

theorem reexportSource?_append (hbefore : IsGap before) (hafter : IsSpace after)
    (hread : (specifier? u).bind closeStatement? = some p) :
    reexportSource? (before ++ ("from".toList ++ (after ++ u))) = some p := by
  rw [reexportSource?, trimStart, dropWhile_append_eq hbefore stops_from,
    fromSpecifier?_append hafter hread]

theorem reexportAll?_star (hbefore : IsGap before) (hafter : IsSpace after)
    (hread : (specifier? u).bind closeStatement? = some p) :
    reexportAll? (before ++ ("from".toList ++ (after ++ u))) = some p := by
  have hnone : (white? (before ++ ("from".toList ++ (after ++ u)))).bind (keyword? "as".toList) =
      none := by
    rw [white?_gap hbefore stops_from]
    split_ifs <;> rfl
  rw [reexportAll?, hnone]
  exact reexportSource?_append hbefore hafter hread

theorem reexportSource?_gap (hafter : IsGap after)
    (hread : (specifier? u).bind closeStatement? = some p) :
    reexportSource? (after ++ u) = none := by
  obtain ⟨q, v, rfl, hq⟩ := exists_eq_quote_cons hread
  rw [reexportSource?, trimStart, dropWhile_append_eq hafter (stops_quote hq),
    fromSpecifier?_quote hq, Option.bind_none]

/-- After a name the word `from` is found, also when no white space stands between the two. -/
theorem reexportAll?_name (hspace : IsSpace space) (hspace' : IsSpace space') (hn : IsName n)
    (hbefore : IsGap before) (hafter : IsSpace after)
    (hread : (specifier? u).bind closeStatement? = some p) :
    reexportAll? (space ++ ("as".toList ++ (space' ++
      (n ++ (before ++ ("from".toList ++ (after ++ u))))))) = some p := by
  have hsource := reexportSource?_append hbefore hafter hread
  have has : Stops isWhite ("as".toList ++ (space' ++
      (n ++ (before ++ ("from".toList ++ (after ++ u)))))) := stops_cons.mpr (by decide)
  rw [reexportAll?, hspace.white?_append has, Option.bind_some,
    hspace'.keyword?_append (stops_isWhite_of_isName hn)]
  simp only
  by_cases hne : before = []
  · subst hne
    have hname : ∀ c ∈ n ++ "from".toList, isNameChar c = true := fun c hc ↦
      (List.mem_append.mp hc).elim (hn.2 c) fun hc ↦ by
        revert hc
        exact (by decide : ∀ d ∈ "from".toList, isNameChar d = true) c
    have hsplit : n ++ ([] ++ ("from".toList ++ (after ++ u))) =
        n ++ "from".toList ++ (after ++ u) := by
      rw [List.nil_append, List.append_assoc]
    have hlength : (n ++ "from".toList).length = n.length + 4 := List.length_append
    have hpos : 0 < n.length := List.length_pos_of_ne_nil hn.1
    have hlast : (n ++ "from".toList ++ (after ++ u)).drop n.length =
        [] ++ ("from".toList ++ (after ++ u)) := by
      rw [List.append_assoc, List.drop_left, List.nil_append]
    rw [hsplit, takeWhile_append_eq hname hafter.stops, List.drop_left,
      reexportSource?_gap hafter.1 hread, Option.none_or, hlength, if_neg (by omega),
      if_neg (by omega), Nat.add_sub_cancel, hlast, hsource]
  · rw [takeWhile_append_eq hn.2 (stops_isNameChar_of_isGap hbefore hne), List.drop_left, hsource,
      if_neg fun hnil ↦ hn.1 (List.length_eq_zero_iff.mp hnil), Option.some_or]

theorem reexportStatement?_text {x : Option Binding} (hgap : IsSpace gap)
    (hh : (Heading.reexports type x before after).IsRead)
    (hread : (specifier? u).bind closeStatement? = some p) :
    reexportStatement? ("export".toList ++ (gap ++
      ((Heading.reexports type x before after).text ++ u))) = some p := by
  obtain ⟨htype, hx, hbefore, hafter⟩ := hh
  obtain ⟨d, v, hcons, hd⟩ : ∃ d v, Heading.exported x = d :: v ∧ (d = '{' ∨ d = '*') := by
    cases x with
    | none => exact ⟨'*', [], rfl, .inr rfl⟩
    | some b => exact exists_binding_text_eq_cons b
  have hopen : ∀ z, Stops isWhite (Heading.exported x ++ z) ∧
      keyword? "type".toList (Heading.exported x ++ z) = none := by
    intro z
    rw [hcons]
    rcases hd with rfl | rfl <;> exact ⟨stops_cons.mpr rfl, rfl⟩
  have hstop : ∀ z, Stops isWhite (typeText type ++ (Heading.exported x ++ z)) := by
    intro z
    cases type with
    | none => exact (hopen z).1
    | some g => exact stops_cons.mpr (by decide)
  have htext : (Heading.reexports type x before after).text ++ u =
      typeText type ++ (Heading.exported x ++ (before ++ ("from".toList ++ (after ++ u)))) := by
    simp only [Heading.text, List.append_assoc]
  rw [htext, reexportStatement?, hgap.keyword?_append (hstop _), Option.bind_some,
    optionally_type htype (hopen _).1 (hopen _).2]
  simp only
  have hstar : ∀ z, word? ['*'] ('*' :: z) = some z := fun _ ↦ rfl
  cases x with
  | none =>
    rw [Heading.exported, List.singleton_append, hstar, Option.bind_some,
      reexportAll?_star hbefore hafter hread, Option.some_or]
  | some b =>
    obtain ⟨hb, hplain⟩ := hx b rfl
    cases b with
    | names inside =>
      have hnone : ∀ z, word? ['*'] ('{' :: z) = none := fun _ ↦ rfl
      rw [Heading.exported, Binding.text, List.cons_append, List.append_assoc,
        List.singleton_append, hnone, braces?_append hb, Option.bind_none, Option.none_or,
        Option.bind_some, reexportSource?_append hbefore hafter hread]
    | all space space' name =>
      obtain ⟨hspace, hspace', hne, hname⟩ := hb
      rw [Heading.exported, Binding.text, List.cons_append, hstar, Option.bind_some,
        List.append_assoc, List.append_assoc, List.append_assoc,
        reexportAll?_name ⟨hspace, hplain⟩ ⟨hspace', hne⟩ hname hbefore hafter hread,
        Option.some_or]

/-! ### Whole statements -/

theorem source_read (hs : s.IsRead) (hr : t = '\n' :: r ∨ t = [] ∧ r = []) :
    (specifier? (s.opening :: (s.specifier ++ s.closing :: (s.tail ++ t)))).bind closeStatement? =
      some (s.specifier, r) := by
  rw [specifier?_quoted hs.opening hs.specifier.1 hs.specifier.2 hs.closing, Option.bind_some,
    closeStatement?, closeLine?_append hs.tail.1 hr, if_pos hs.tail.2, Option.map_some]

theorem heading_read (hgap : IsSpace gap) (hh : h.IsRead)
    (hread : (specifier? u).bind closeStatement? = some p) :
    (importStatement? (h.keyword ++ (gap ++ (h.text ++ u)))).or
      (reexportStatement? (h.keyword ++ (gap ++ (h.text ++ u)))) = some p := by
  cases h with
  | imports h =>
    obtain ⟨q, v, rfl, hq⟩ := exists_eq_quote_cons hread
    have himport := importStatement?_head (u := v) hh.1 hgap.1 hq
    rw [if_pos ⟨hgap.2, hh.2⟩, hread] at himport
    exact Option.or_eq_some_iff.mpr (.inl himport)
  | bare g =>
    have hbare := importStatement?_bare hgap hh hread
    rw [← List.append_assoc] at hbare
    exact Option.or_eq_some_iff.mpr (.inl hbare)
  | bindings type b space space' b' before after =>
    exact Option.or_eq_some_iff.mpr (.inl (importStatement?_bindings hgap hh hread))
  | reexports type x before after =>
    have hnone : ∀ z, importStatement? ("export".toList ++ z) = none := fun _ ↦ rfl
    exact Option.or_eq_some_iff.mpr (.inr ⟨hnone _, reexportStatement?_text hgap hh hread⟩)

/-- A statement of the grammar is read, up to the end of its last line. -/
theorem Statement.dependency?_text_append (hs : s.IsRead) (hr : t = '\n' :: r ∨ t = [] ∧ r = []) :
    dependency? (s.text ++ t) = some (s.specifier, r) := by
  have htext : s.text ++ t = s.indent ++ (s.heading.keyword ++ (s.gap ++ (s.heading.text ++
      s.opening :: (s.specifier ++ s.closing :: (s.tail ++ t))))) := by
    simp only [Statement.text, List.append_assoc, List.cons_append]
  have hopen : ∀ z, Stops isBlank (s.heading.keyword ++ z) := by
    intro z
    cases s.heading <;> exact stops_cons.mpr (by decide)
  rw [htext, dependency?, dropWhile_append_eq hs.indent (hopen _)]
  exact heading_read hs.gap hs.heading (source_read hs hr)

/-! ## From a reading to its statement -/

theorem exists_of_closeLine? (h : closeLine? t = some r) :
    ∃ x t', t = x ++ t' ∧ '\n' ∉ x ∧ IsClosing x ∧ (t' = '\n' :: r ∨ t' = [] ∧ r = []) := by
  obtain ⟨x, t', rfl, hx, ht'⟩ : ∃ x t', t = x ++ t' ∧ '\n' ∉ x ∧
      ∃ r', t' = '\n' :: r' ∨ t' = [] ∧ r' = [] := by
    by_cases ht : '\n' ∈ t
    · obtain ⟨x, r', rfl, hx⟩ := List.eq_append_cons_of_mem ht
      exact ⟨x, _, rfl, hx, r', .inl rfl⟩
    · exact ⟨t, [], (List.append_nil t).symm, ht, [], .inr ⟨rfl, rfl⟩⟩
  obtain ⟨r', hr'⟩ := ht'
  rw [closeLine?_append hx hr'] at h
  split_ifs at h with hclosing
  obtain rfl := Option.some.inj h
  exact ⟨x, t', rfl, hx, hclosing, hr'⟩

theorem ne_nil_of_specifier? (h : specifier? t = some (n, r)) : n ≠ [] := by
  unfold specifier? at h
  split at h
  · cases h
  · split at h
    · split at h
      · cases h
      · cases h
      · rename_i hne
        split at h
        · cases h
          exact hne
        · cases h
    · cases h

theorem exists_of_source (h : (specifier? u).bind closeStatement? = some (n, r)) :
    ∃ q q' x t', u = q :: (n ++ q' :: (x ++ t')) ∧ isSpecifierQuote q = true ∧
      (n ≠ [] ∧ ∀ c ∈ n, isSpecifierChar c = true) ∧ isSpecifierQuote q' = true ∧
      ('\n' ∉ x ∧ IsClosing x) ∧ (t' = '\n' :: r ∨ t' = [] ∧ r = []) := by
  obtain ⟨⟨n', v⟩, hn, hclose⟩ := Option.bind_eq_some_iff.mp h
  obtain ⟨r', hr', heq⟩ := Option.map_eq_some_iff.mp hclose
  cases heq
  obtain ⟨q, q', hq, hq', hchars, rfl⟩ := exists_of_specifier?_eq_some hn
  obtain ⟨x, t', rfl, hx, hclosing, ht'⟩ := exists_of_closeLine? hr'
  exact ⟨q, q', x, t', rfl, hq, ⟨ne_nil_of_specifier? hn, hchars⟩, hq', ⟨hx, hclosing⟩, ht'⟩

theorem exists_of_name (h : some? isNameChar t = some r) : ∃ n, IsName n ∧ t = n ++ r := by
  obtain ⟨n, hne, hn, -, rfl⟩ := exists_of_some?_eq_some h
  exact ⟨n, ⟨hne, hn⟩, rfl⟩

theorem exists_of_white? (h : white? t = some r) : ∃ w, IsSpace w ∧ t = w ++ r := by
  obtain ⟨w, hne, hw, -, rfl⟩ := exists_of_some?_eq_some h
  exact ⟨w, ⟨hw, hne⟩, rfl⟩

theorem exists_of_keyword? {k : Text} (h : keyword? k t = some r) :
    ∃ w, IsSpace w ∧ t = k ++ (w ++ r) := by
  obtain ⟨w, hne, hw, -, rfl⟩ := exists_of_keyword?_eq_some h
  exact ⟨w, ⟨hw, hne⟩, rfl⟩

theorem exists_of_binding? (h : binding? t = some r) :
    ∃ b : Binding, (b.IsWellFormed ∧ b.IsPlain) ∧ t = b.text ++ r := by
  rcases Option.or_eq_some_iff.mp h with h | ⟨-, h⟩
  · obtain ⟨w, hw, rfl⟩ := exists_of_braces?_eq_some h
    refine ⟨.names w, ⟨hw, trivial⟩, ?_⟩
    rw [Binding.text, List.cons_append, List.append_assoc, List.singleton_append]
  · obtain ⟨t₁, hstar, h₁⟩ := Option.bind_eq_some_iff.mp h
    obtain ⟨t₂, hbefore, h₂⟩ := Option.bind_eq_some_iff.mp h₁
    obtain ⟨t₃, has, h₃⟩ := Option.bind_eq_some_iff.mp h₂
    obtain ⟨n, hn, rfl⟩ := exists_of_name h₃
    obtain ⟨after, hspace', rfl⟩ := exists_of_keyword? has
    obtain ⟨before, hspace, rfl⟩ := exists_of_white? hbefore
    refine ⟨.all before after n, ⟨⟨hspace.1, hspace'.1, hspace'.2, hn⟩, hspace.2⟩, ?_⟩
    rw [word?_eq_some_iff.mp hstar]
    simp only [Binding.text, List.append_assoc, List.cons_append, List.nil_append]

theorem exists_of_secondBinding? (h : secondBinding? t = some r) :
    ∃ (w w' : Text) (b : Binding), IsGap w ∧ IsGap w' ∧ (b.IsWellFormed ∧ b.IsPlain) ∧
      t = w ++ ',' :: (w' ++ (b.text ++ r)) := by
  have hgap : ∀ t : Text, IsGap (t.takeWhile isWhite) :=
    fun t ↦ List.all_eq_true.mp List.all_takeWhile
  obtain ⟨u, hcomma, h⟩ := Option.bind_eq_some_iff.mp h
  obtain ⟨b, hb, hu⟩ := exists_of_binding? h
  refine ⟨t.takeWhile isWhite, u.takeWhile isWhite, b, hgap t, hgap u, hb, ?_⟩
  rw [← hu, trimStart, List.takeWhile_append_dropWhile]
  have hcomma := word?_eq_some_iff.mp hcomma
  rw [List.singleton_append] at hcomma
  rw [← hcomma, trimStart, List.takeWhile_append_dropWhile]

theorem exists_of_importClause? (h : importClause? t = some r) :
    (∃ c : Clause, (c.IsWellFormed ∧ c.IsPlain) ∧ t = c.text ++ r) ∨
      ∃ (b : Binding) (w w' : Text) (b' : Binding), (b.IsWellFormed ∧ b.IsPlain) ∧ IsGap w ∧
        IsGap w' ∧ (b'.IsWellFormed ∧ b'.IsPlain) ∧
          t = b.text ++ (w ++ ',' :: (w' ++ (b'.text ++ r))) := by
  obtain ⟨u, hu, hr⟩ := Option.map_eq_some_iff.mp h
  rw [optionally] at hr
  have hfirst := Option.or_eq_some_iff.mp hu
  cases hsecond : secondBinding? u with
  | none =>
    rw [hsecond, Option.getD_none] at hr
    subst hr
    refine .inl ?_
    rcases hfirst with hbinding | ⟨-, hname⟩
    · obtain ⟨b, hb, rfl⟩ := exists_of_binding? hbinding
      exact ⟨.binding b, hb, rfl⟩
    · obtain ⟨n, hn, rfl⟩ := exists_of_name hname
      exact ⟨.name n, ⟨hn, trivial⟩, rfl⟩
  | some v =>
    rw [hsecond, Option.getD_some] at hr
    subst hr
    obtain ⟨w, w', b', hw, hw', hb', rfl⟩ := exists_of_secondBinding? hsecond
    rcases hfirst with hbinding | ⟨-, hname⟩
    · obtain ⟨b, hb, rfl⟩ := exists_of_binding? hbinding
      exact .inr ⟨b, w, w', b', hb, hw, hw', hb', rfl⟩
    · obtain ⟨n, hn, rfl⟩ := exists_of_name hname
      refine .inl ⟨.both n w w' b', ⟨⟨hn, hw, hw', hb'.1⟩, hb'.2⟩, ?_⟩
      simp only [Clause.text, List.append_assoc, List.cons_append]

theorem exists_of_fromSpecifier? (h : (fromSpecifier? t).bind closeStatement? = some p) :
    ∃ w u, IsSpace w ∧ t = "from".toList ++ (w ++ u) ∧
      (specifier? u).bind closeStatement? = some p := by
  obtain ⟨q, hq, hclose⟩ := Option.bind_eq_some_iff.mp h
  obtain ⟨u, hu, hspecifier⟩ := Option.bind_eq_some_iff.mp hq
  obtain ⟨w, hw, rfl⟩ := exists_of_keyword? hu
  exact ⟨w, u, hw, rfl, by rw [hspecifier, Option.bind_some, hclose]⟩

/-- What was read of an import behind its keyword, or behind the word `type`. -/
theorem exists_of_importBody? (htype : ∀ g ∈ type, IsSpace g) (h : importBody? t = some p) :
    ∃ (h : Heading) (u : Text), h.keyword = "import".toList ∧ h.IsRead ∧
      typeText type ++ t = h.text ++ u ∧ (specifier? u).bind closeStatement? = some p := by
  obtain ⟨q, hq, hclose⟩ := Option.bind_eq_some_iff.mp h
  rcases Option.or_eq_some_iff.mp hq with hq | ⟨-, hq⟩
  · obtain ⟨r, hclause, hq⟩ := Option.bind_eq_some_iff.mp hq
    obtain ⟨v, hwhite, hq⟩ := Option.bind_eq_some_iff.mp hq
    obtain ⟨after, u, hafter, rfl, hread⟩ :=
      exists_of_fromSpecifier? (t := v) (p := p) (by rw [hq, Option.bind_some, hclose])
    obtain ⟨before, hbefore, rfl⟩ := exists_of_white? hwhite
    rcases exists_of_importClause? hclause with
      ⟨c, ⟨hc, hplain⟩, rfl⟩ | ⟨b, w, w', b', hb, hw, hw', hb', rfl⟩
    · have hspaces : ∀ g ∈ type, IsGap g ∧ (c.BeginsWithName → g ≠ []) :=
        fun g hg ↦ ⟨(htype g hg).1, fun _ ↦ (htype g hg).2⟩
      have hnil : type ≠ some [] := fun hnil ↦ (htype [] hnil).2 rfl
      refine ⟨.imports (.clause type c before after), u, rfl,
        ⟨⟨hspaces, hc, hbefore.1, fun _ ↦ hbefore.2, hafter.1⟩, hnil, hplain, hbefore.2, hafter.2⟩,
        ?_, hread⟩
      simp only [Heading.text, Head.text, List.append_assoc]
    · refine ⟨.bindings type b w w' b' before after, u, rfl,
        ⟨htype, hb, hw, hw', hb', hbefore, hafter⟩, ?_, hread⟩
      simp only [Heading.text, List.append_assoc, List.cons_append]
  · have hread : (specifier? t).bind closeStatement? = some p := by
      rw [hq, Option.bind_some, hclose]
    cases type with
    | none => exact ⟨.imports .nothing, t, rfl, ⟨trivial, trivial⟩, rfl, hread⟩
    | some g => exact ⟨.bare g, t, rfl, htype g rfl, rfl, hread⟩

theorem exists_of_importStatement? (h : importStatement? t = some p) :
    ∃ (gap : Text) (h : Heading) (u : Text), IsSpace gap ∧ h.IsRead ∧
      t = h.keyword ++ (gap ++ (h.text ++ u)) ∧ (specifier? u).bind closeStatement? = some p := by
  obtain ⟨v, hv, hbody⟩ := Option.bind_eq_some_iff.mp h
  obtain ⟨gap, hgap, rfl⟩ := exists_of_keyword? hv
  rcases Option.or_eq_some_iff.mp hbody with hword | ⟨-, hbody⟩
  · obtain ⟨w, hw, htyped⟩ := Option.bind_eq_some_iff.mp hword
    obtain ⟨g, hg, rfl⟩ := exists_of_keyword? hw
    have htype : ∀ g' ∈ some g, IsSpace g' := by
      rintro g' ⟨⟩
      exact hg
    obtain ⟨h, u, hkeyword, hread, htext, hu⟩ := exists_of_importBody? htype htyped
    refine ⟨gap, h, u, hgap, hread, ?_, hu⟩
    rw [hkeyword, ← htext, typeText, List.append_assoc]
  · have htype : ∀ g' ∈ (none : Option Text), IsSpace g' := by rintro _ ⟨⟩
    obtain ⟨h, u, hkeyword, hread, htext, hu⟩ := exists_of_importBody? htype hbody
    exact ⟨gap, h, u, hgap, hread, by rw [hkeyword, ← htext]; rfl, hu⟩

theorem exists_of_reexportSource? (h : reexportSource? t = some p) :
    ∃ before after u, IsGap before ∧ IsSpace after ∧
      t = before ++ ("from".toList ++ (after ++ u)) ∧
        (specifier? u).bind closeStatement? = some p := by
  obtain ⟨w, u, hw, htrim, hread⟩ := exists_of_fromSpecifier? h
  refine ⟨t.takeWhile isWhite, w, u, List.all_eq_true.mp List.all_takeWhile, hw, ?_, hread⟩
  rw [← htrim, trimStart, List.takeWhile_append_dropWhile]

/-- What was read of a re-export behind its star. -/
theorem exists_of_reexportAll? (h : reexportAll? t = some p) :
    ∃ (x : Option Binding) (before after u : Text), (∀ b ∈ x, b.IsWellFormed ∧ b.IsPlain) ∧
      IsGap before ∧ IsSpace after ∧
        '*' :: t = Heading.exported x ++ (before ++ ("from".toList ++ (after ++ u))) ∧
          (specifier? u).bind closeStatement? = some p := by
  unfold reexportAll? at h
  split at h
  · obtain ⟨before, after, u, hbefore, hafter, rfl, hread⟩ := exists_of_reexportSource? h
    exact ⟨none, before, after, u, by rintro _ ⟨⟩, hbefore, hafter, rfl, hread⟩
  · next v has =>
    obtain ⟨w, hw, has⟩ := Option.bind_eq_some_iff.mp has
    obtain ⟨space', hspace', rfl⟩ := exists_of_keyword? has
    obtain ⟨space, hspace, rfl⟩ := exists_of_white? hw
    -- The name goes on for as many letters as were left out of what follows it.
    obtain ⟨k, hk, hpos, hsource⟩ : ∃ k ≤ (v.takeWhile isNameChar).length, 0 < k ∧
        reexportSource? (v.drop k) = some p := by
      simp only at h
      split_ifs at h with hnil hshort
      · exact ⟨_, le_rfl, Nat.pos_of_ne_zero hnil, (Option.or_none ▸ h :)⟩
      · rcases Option.or_eq_some_iff.mp h with h | ⟨-, h⟩
        · exact ⟨_, le_rfl, Nat.pos_of_ne_zero hnil, h⟩
        · exact ⟨_, Nat.sub_le _ 4, by omega, h⟩
    obtain ⟨before, after, u, hbefore, hafter, hdrop, hread⟩ := exists_of_reexportSource? hsource
    have htaken : v.take k <+: v.takeWhile isNameChar :=
      List.prefix_of_prefix_length_le (List.take_prefix k v) (List.takeWhile_prefix _)
        ((List.length_take_le k v).trans hk)
    have hname : IsName (v.take k) := by
      constructor
      · have hlength := (List.takeWhile_prefix (l := v) isNameChar).length_le
        refine List.ne_nil_of_length_pos ?_
        rw [List.length_take]
        omega
      · exact fun c hc ↦ List.all_eq_true.mp List.all_takeWhile c (htaken.subset hc)
    refine ⟨some (.all space space' (v.take k)), before, after, u, ?_, hbefore, hafter, ?_, hread⟩
    · rintro b ⟨⟩
      exact ⟨⟨hspace.1, hspace'.1, hspace'.2, hname⟩, hspace.2⟩
    · rw [← hdrop]
      simp only [Heading.exported, Binding.text, List.cons_append, List.append_assoc,
        List.take_append_drop]

theorem exists_of_reexportStatement? (h : reexportStatement? t = some p) :
    ∃ (gap : Text) (h : Heading) (u : Text), IsSpace gap ∧ h.IsRead ∧
      t = h.keyword ++ (gap ++ (h.text ++ u)) ∧ (specifier? u).bind closeStatement? = some p := by
  obtain ⟨v, hv, hrest⟩ := Option.bind_eq_some_iff.mp h
  obtain ⟨gap, hgap, rfl⟩ := exists_of_keyword? hv
  obtain ⟨type, w, htype, rfl, hw⟩ : ∃ type w, (∀ g ∈ type, IsSpace g) ∧ v = typeText type ++ w ∧
      optionally (keyword? "type".toList) v = w := by
    cases htype : keyword? "type".toList v with
    | none =>
      exact ⟨none, v, by rintro _ ⟨⟩, rfl, by rw [optionally, htype, Option.getD_none]⟩
    | some w =>
      obtain ⟨g, hg, rfl⟩ := exists_of_keyword? htype
      refine ⟨some g, w, ?_, (List.append_assoc ..).symm, ?_⟩
      swap
      · rw [optionally, htype, Option.getD_some]
      rintro g' ⟨⟩
      exact hg
  simp only [hw] at hrest
  obtain ⟨x, before, after, u, hx, hbefore, hafter, rfl, hread⟩ :
      ∃ (x : Option Binding) (before after u : Text), (∀ b ∈ x, b.IsWellFormed ∧ b.IsPlain) ∧
        IsGap before ∧ IsSpace after ∧
          w = Heading.exported x ++ (before ++ ("from".toList ++ (after ++ u))) ∧
            (specifier? u).bind closeStatement? = some p := by
    rcases Option.or_eq_some_iff.mp hrest with hstar | ⟨-, hbraces⟩
    · obtain ⟨z, hz, hstar⟩ := Option.bind_eq_some_iff.mp hstar
      rw [word?_eq_some_iff.mp hz]
      exact exists_of_reexportAll? hstar
    · obtain ⟨z, hz, hsource⟩ := Option.bind_eq_some_iff.mp hbraces
      obtain ⟨inside, hinside, rfl⟩ := exists_of_braces?_eq_some hz
      obtain ⟨before, after, u, hbefore, hafter, rfl, hread⟩ := exists_of_reexportSource? hsource
      refine ⟨some (.names inside), before, after, u, ?_, hbefore, hafter, ?_, hread⟩
      · rintro b ⟨⟩
        exact ⟨hinside, trivial⟩
      · simp only [Heading.exported, Binding.text, List.cons_append, List.append_assoc,
          List.nil_append]
  have htext : (Heading.reexports type x before after).text ++ u =
      typeText type ++ (Heading.exported x ++ (before ++ ("from".toList ++ (after ++ u)))) := by
    simp only [Heading.text, List.append_assoc]
  exact ⟨gap, .reexports type x before after, u, hgap, ⟨htype, hx, hbefore, hafter⟩,
    congrArg (fun z ↦ "export".toList ++ (gap ++ z)) htext.symm, hread⟩

/-- **What is read as a dependency statement.** A text begins with a statement as it is read, if and
only if it begins with a statement of the grammar that ends its line. -/
theorem dependency?_eq_some_iff :
    dependency? t = some (n, r) ↔ ∃ (s : Statement) (t' : Text), s.IsRead ∧ s.specifier = n ∧
      t = s.text ++ t' ∧ (t' = '\n' :: r ∨ t' = [] ∧ r = []) := by
  constructor
  · intro h
    obtain ⟨gap, h, u, hgap, hh, htext, hread⟩ :
        ∃ (gap : Text) (h : Heading) (u : Text), IsSpace gap ∧ h.IsRead ∧
          t.dropWhile isBlank = h.keyword ++ (gap ++ (h.text ++ u)) ∧
            (specifier? u).bind closeStatement? = some (n, r) :=
      (Option.or_eq_some_iff.mp h).elim exists_of_importStatement?
        fun h ↦ exists_of_reexportStatement? h.2
    obtain ⟨q, q', x, t', rfl, hq, hn, hq', hx, ht'⟩ := exists_of_source hread
    refine ⟨⟨t.takeWhile isBlank, gap, h, q, n, q', x⟩, t',
      ⟨List.all_eq_true.mp List.all_takeWhile, hgap, hh, hq, hn, hq', hx⟩, rfl, ?_, ht'⟩
    conv_lhs => rw [← List.takeWhile_append_dropWhile (p := isBlank) (l := t), htext]
    simp only [Statement.text, List.append_assoc, List.cons_append]
  · rintro ⟨s, t', hs, rfl, rfl, ht'⟩
    exact s.dependency?_text_append hs ht'

end Script

end PluginPack
