import PluginPack.Proofs.Script.Passage

/-!
# Layouts of import statements

An import statement with all the freedom that its author has: what it binds, how much white space
stands at every place where some may stand, which quotes there are, and what follows it on its last
line. The statement is recognised exactly in the plain layouts, those with white space at each of
these places and with nothing behind but blanks, one semicolon at most, and a carriage return.
-/

namespace PluginPack.Script

open Text

/-! ## Statements as they are written -/

/-- What an import binds besides a default name. -/
inductive Binding where
  /-- Names in braces. -/
  | names (inside : Text)
  /-- All names, as `* as name` with white space before and after `as`. -/
  | all (before after name : Text)
deriving DecidableEq, Repr

/-- What stands between `import` and `from`. -/
inductive Clause where
  | binding (b : Binding)
  | name (n : Text)
  /-- A default name and a binding, with white space before and after the comma between them. -/
  | both (n before after : Text) (b : Binding)
deriving DecidableEq, Repr

/-- What an import statement takes from the module that it names. -/
inductive Head where
  | nothing
  /-- A clause, the white space before and after `from`, and the white space after `type` when that
  word stands in front. -/
  | clause (type : Option Text) (c : Clause) (before after : Text)
deriving DecidableEq, Repr

/-- An import statement in some layout, without the newline at its end. -/
structure ImportLayout where
  indent : Text
  /-- The white space after `import`. -/
  gap : Text
  head : Head
  opening : Char
  specifier : Text
  closing : Char
  /-- What follows the specifier on its line. -/
  tail : Text
deriving DecidableEq, Repr

def Binding.text : Binding → Text
  | names inside => '{' :: (inside ++ ['}'])
  | all before after name => '*' :: (before ++ ("as".toList ++ (after ++ name)))

def Clause.text : Clause → Text
  | binding b => b.text
  | name n => n
  | both n before after b => n ++ (before ++ ',' :: (after ++ b.text))

/-- The word `type` with the white space after it. -/
def typeText : Option Text → Text
  | none => []
  | some gap => "type".toList ++ gap

def Head.text : Head → Text
  | nothing => []
  | clause type c before after =>
    typeText type ++ (c.text ++ (before ++ ("from".toList ++ after)))

namespace ImportLayout

/-- The specifier in its quotes and the rest of the line. -/
def source (s : ImportLayout) : Text :=
  s.opening :: (s.specifier ++ s.closing :: s.tail)

def text (s : ImportLayout) : Text :=
  s.indent ++ ("import".toList ++ (s.gap ++ (s.head.text ++ s.source)))

end ImportLayout

/-! ## Well-formed statements -/

/-- White space, of which there may be none. -/
def IsGap (t : Text) : Prop := ∀ c ∈ t, isWhite c = true

instance (t : Text) : Decidable (IsGap t) := inferInstanceAs (Decidable (∀ c ∈ t, _))

/-- The name of something that is imported. -/
def IsName (t : Text) : Prop := t ≠ [] ∧ ∀ c ∈ t, isNameChar c = true

instance (t : Text) : Decidable (IsName t) := inferInstanceAs (Decidable (_ ∧ _))

def Binding.IsWellFormed : Binding → Prop
  | names inside => '}' ∉ inside
  | all before after name => IsGap before ∧ IsGap after ∧ after ≠ [] ∧ IsName name

instance : (b : Binding) → Decidable b.IsWellFormed
  | .names _ => inferInstanceAs (Decidable (¬_))
  | .all .. => inferInstanceAs (Decidable (_ ∧ _ ∧ _ ∧ _))

def Clause.IsWellFormed : Clause → Prop
  | binding b => b.IsWellFormed
  | name n => IsName n
  | both n before after b => IsName n ∧ IsGap before ∧ IsGap after ∧ b.IsWellFormed

instance : (c : Clause) → Decidable c.IsWellFormed
  | .binding b => inferInstanceAs (Decidable b.IsWellFormed)
  | .name n => inferInstanceAs (Decidable (IsName n))
  | .both .. => inferInstanceAs (Decidable (_ ∧ _ ∧ _ ∧ _))

/-- The clause begins with a name, so that a word in front of it needs white space. -/
def Clause.BeginsWithName (c : Clause) : Prop := c.text.head?.any isNameChar = true

instance (c : Clause) : Decidable c.BeginsWithName := inferInstanceAs (Decidable (_ = _))

/-- The clause ends in a name, so that a word behind it needs white space. -/
def Clause.EndsInName (c : Clause) : Prop := c.text.getLast?.any isNameChar = true

instance (c : Clause) : Decidable c.EndsInName := inferInstanceAs (Decidable (_ = _))

/-- Words are set off from names. -/
def Head.IsWellFormed : Head → Prop
  | nothing => True
  | clause type c before after =>
    (∀ gap ∈ type, IsGap gap ∧ (c.BeginsWithName → gap ≠ [])) ∧ c.IsWellFormed ∧ IsGap before ∧
      (c.EndsInName → before ≠ []) ∧ IsGap after

instance : (h : Head) → Decidable h.IsWellFormed
  | .nothing => inferInstanceAs (Decidable True)
  | .clause .. => inferInstanceAs (Decidable (_ ∧ _ ∧ _ ∧ _ ∧ _))

/-- No line of the statement but its first begins with a keyword of such statements. -/
structure ImportLayout.IsWellFormed (s : ImportLayout) : Prop where
  indent : ∀ c ∈ s.indent, isBlank c = true
  gap : IsGap s.gap
  head : s.head.IsWellFormed
  opening : isSpecifierQuote s.opening = true
  specifier : s.specifier ≠ [] ∧ ∀ c ∈ s.specifier, isSpecifierChar c = true
  closing : isSpecifierQuote s.closing = true
  tail : '\n' ∉ s.tail
  lacksImport : LacksBelow "import".toList s.text
  lacksExport : LacksBelow "export".toList s.text

instance (s : ImportLayout) : Decidable s.IsWellFormed :=
  decidable_of_iff ((∀ c ∈ s.indent, isBlank c = true) ∧ IsGap s.gap ∧ s.head.IsWellFormed ∧
    isSpecifierQuote s.opening = true ∧
    (s.specifier ≠ [] ∧ ∀ c ∈ s.specifier, isSpecifierChar c = true) ∧
    isSpecifierQuote s.closing = true ∧ '\n' ∉ s.tail ∧ LacksBelow "import".toList s.text ∧
    LacksBelow "export".toList s.text)
    ⟨fun ⟨h₁, h₂, h₃, h₄, h₅, h₆, h₇, h₈, h₉⟩ ↦ ⟨h₁, h₂, h₃, h₄, h₅, h₆, h₇, h₈, h₉⟩,
      fun ⟨h₁, h₂, h₃, h₄, h₅, h₆, h₇, h₈, h₉⟩ ↦ ⟨h₁, h₂, h₃, h₄, h₅, h₆, h₇, h₈, h₉⟩⟩

/-! ## Plain layouts -/

def Binding.IsPlain : Binding → Prop
  | names _ => True
  | all before _ _ => before ≠ []

instance : (b : Binding) → Decidable b.IsPlain
  | .names _ => inferInstanceAs (Decidable True)
  | .all .. => inferInstanceAs (Decidable (_ ≠ _))

def Clause.IsPlain : Clause → Prop
  | binding b => b.IsPlain
  | name _ => True
  | both _ _ _ b => b.IsPlain

instance : (c : Clause) → Decidable c.IsPlain
  | .binding b => inferInstanceAs (Decidable b.IsPlain)
  | .name _ => inferInstanceAs (Decidable True)
  | .both _ _ _ b => inferInstanceAs (Decidable b.IsPlain)

def Head.IsPlain : Head → Prop
  | nothing => True
  | clause type c before after => type ≠ some [] ∧ c.IsPlain ∧ before ≠ [] ∧ after ≠ []

instance : (h : Head) → Decidable h.IsPlain
  | .nothing => inferInstanceAs (Decidable True)
  | .clause .. => inferInstanceAs (Decidable (_ ∧ _ ∧ _ ∧ _))

/-- Besides blanks and a carriage return at its end the text is at most a semicolon. -/
def IsClosing (t : Text) : Prop :=
  (dropReturn t).filter (!isBlank ·) = [] ∨ (dropReturn t).filter (!isBlank ·) = [';']

instance (t : Text) : Decidable (IsClosing t) := inferInstanceAs (Decidable (_ ∨ _))

/-- There is white space wherever some may stand, except around commas, and nothing follows on the
last line. -/
def ImportLayout.IsPlain (s : ImportLayout) : Prop :=
  s.gap ≠ [] ∧ s.head.IsPlain ∧ IsClosing s.tail

instance (s : ImportLayout) : Decidable s.IsPlain := inferInstanceAs (Decidable (_ ∧ _ ∧ _))

/-! ## Names and quotes -/

variable {k n r t x y z : Text} {q q' d : Char}

theorem eq_of_isSpecifierQuote (h : isSpecifierQuote q = true) : q = '"' ∨ q = '\'' := by
  simpa [isSpecifierQuote] using h

theorem stops_isNameChar_of_isGap {w : Text} (hw : IsGap w) (hne : w ≠ []) :
    Stops isNameChar (w ++ t) := by
  refine Stops.append (fun c hc ↦ ?_) hne
  have hwhite := hw c (List.mem_of_mem_head? hc)
  by_contra hname
  rw [isWhite_of_isNameChar (Bool.not_eq_false _ ▸ hname)] at hwhite
  cases hwhite

theorem stops_isNameChar_comma {w : Text} (hw : IsGap w) : Stops isNameChar (w ++ ',' :: t) := by
  by_cases hne : w = []
  · rw [hne]
    exact stops_cons.mpr (by decide)
  · exact stops_isNameChar_of_isGap hw hne

theorem stops_isWhite_of_isName (hn : IsName n) : Stops isWhite (n ++ t) :=
  Stops.append (fun c hc ↦ isWhite_of_isNameChar (hn.2 c (List.mem_of_mem_head? hc))) hn.1

/-- A word is found where a whole name is that word, and not in front of a longer name. -/
theorem keyword?_name (hk : ∀ c ∈ k, isNameChar c = true) (hn : ∀ c ∈ n, isNameChar c = true)
    (hy : Stops isNameChar y) : keyword? k (n ++ y) = if n = k then white? y else none := by
  split
  · rename_i heq
    rw [heq, keyword?, word?_append, Option.bind_some]
  · rename_i hne
    refine Option.eq_none_iff_forall_ne_some.mpr fun r hr ↦ hne ?_
    obtain ⟨w, hw, hwhite, -, heq⟩ := exists_of_keyword?_eq_some hr
    have htake := congrArg (List.takeWhile isNameChar) heq
    rwa [takeWhile_append_eq hn hy,
      takeWhile_append_eq hk (stops_isNameChar_of_isGap hwhite hw)] at htake

theorem white?_gap {w : Text} (hw : IsGap w) (ht : Stops isWhite t) :
    white? (w ++ t) = if w = [] then none else some t := by
  split
  · rename_i hnil
    rw [hnil, List.nil_append, white?, some?_eq_none ht]
  · rename_i hne
    exact some?_append hne hw ht

theorem specifier?_quoted (hq : isSpecifierQuote q = true) (hne : n ≠ [])
    (hn : ∀ c ∈ n, isSpecifierChar c = true) (hq' : isSpecifierQuote q' = true) (x : Text) :
    specifier? (q :: (n ++ q' :: x)) = some (n, x) := by
  have hstop : Stops isSpecifierChar (q' :: x) := by
    rcases eq_of_isSpecifierQuote hq' with rfl | rfl <;> exact stops_cons.mpr rfl
  obtain ⟨c, cs, rfl⟩ := List.exists_cons_of_ne_nil hne
  rw [specifier?, if_pos hq, takeWhile_append_eq hn hstop, dropWhile_append_eq hn hstop]
  exact if_pos hq'

theorem specifier?_eq_none (h : isSpecifierQuote d = false) : specifier? (d :: t) = none := by
  rw [specifier?, if_neg (by simpa using h)]

theorem isSpecifierQuote_of_isNameChar (h : isNameChar d = true) : isSpecifierQuote d = false := by
  by_contra hq
  rcases eq_of_isSpecifierQuote (by simpa using hq) with rfl | rfl <;> exact absurd h (by decide)

theorem secondBinding?_eq_none (h : ∀ c ∈ (trimStart t).head?, c ≠ ',') :
    secondBinding? t = none := by
  have hword : word? [','] (trimStart t) = none := by
    refine word?_eq_none_iff.mpr fun hpre ↦ ?_
    obtain ⟨u, hu⟩ := hpre
    rw [← hu] at h
    exact h ',' rfl rfl
  rw [secondBinding?, hword, Option.bind_none]

/-! ## Bindings and clauses -/

theorem binding?_name (hn : IsName n) (y : Text) : binding? (n ++ y) = none := by
  obtain ⟨c, cs, rfl⟩ := List.exists_cons_of_ne_nil hn.1
  have hc := hn.2 c List.mem_cons_self
  have hbrace : c ≠ '{' := by
    rintro rfl
    exact absurd hc (by decide)
  have hstar : word? ['*'] (c :: cs ++ y) = none := by
    refine word?_eq_none_iff.mpr fun hpre ↦ ?_
    rw [← (List.cons_prefix_cons.mp hpre).1] at hc
    exact absurd hc (by decide)
  rw [binding?, namespaceBinding?, hstar, List.cons_append, braces?_eq_none hbrace]
  rfl

/-- A name that no comma follows is all of its clause. -/
theorem importBody?_name (hn : IsName n) (hy : Stops isNameChar y)
    (hcomma : ∀ c ∈ (trimStart y).head?, c ≠ ',') :
    importBody? (n ++ y) = ((white? y).bind fromSpecifier?).bind closeStatement? := by
  have hclause : importClause? (n ++ y) = some y := by
    rw [importClause?, binding?_name hn, Option.none_or, some?_append hn.1 hn.2 hy, Option.map_some,
      optionally, secondBinding?_eq_none hcomma, Option.getD_none]
  have hspecifier : specifier? (n ++ y) = none := by
    obtain ⟨c, cs, rfl⟩ := List.exists_cons_of_ne_nil hn.1
    exact specifier?_eq_none (isSpecifierQuote_of_isNameChar (hn.2 c List.mem_cons_self))
  rw [importBody?, hclause, hspecifier, Option.bind_some, Option.or_none]

/-- A binding begins with a brace or a star. -/
theorem exists_binding_text_eq_cons (b : Binding) :
    ∃ d u, b.text = d :: u ∧ (d = '{' ∨ d = '*') := by
  cases b with
  | names inside => exact ⟨'{', _, rfl, .inl rfl⟩
  | all before after name => exact ⟨'*', _, rfl, .inr rfl⟩

theorem any_getLast?_of_isName (hn : IsName n) (u : Text) :
    (u ++ n).getLast?.any isNameChar = true := by
  obtain ⟨c, hc⟩ := Option.ne_none_iff_exists'.mp (mt List.getLast?_eq_none_iff.mp hn.1)
  rw [List.getLast?_append_of_ne_nil u hn.1, hc]
  exact hn.2 c (List.mem_of_getLast? hc)

theorem binding?_text {b : Binding} (hb : b.IsWellFormed) (hplain : b.IsPlain)
    (hz : b.text.getLast?.any isNameChar = true → Stops isNameChar z) :
    binding? (b.text ++ z) = some z := by
  cases b with
  | names inside =>
    have hbraces : braces? ('{' :: (inside ++ '}' :: z)) = some z := braces?_append hb z
    rw [Binding.text, List.cons_append, List.append_assoc, List.singleton_append, binding?,
      hbraces, Option.some_or]
  | all before after name =>
    obtain ⟨hbefore, hafter, hne, hname⟩ := hb
    have hlast : (Binding.all before after name).text.getLast?.any isNameChar = true := by
      have hsplit : (Binding.all before after name).text =
          '*' :: (before ++ ("as".toList ++ after)) ++ name := by
        simp only [Binding.text, List.append_assoc, List.cons_append]
      rw [hsplit]
      exact any_getLast?_of_isName hname _
    have hword : ∀ u, word? ['*'] ('*' :: u) = some u := fun _ ↦ rfl
    have has : Stops isWhite ("as".toList ++ (after ++ (name ++ z))) := stops_cons.mpr (by decide)
    have hnone : braces? ('*' :: (before ++ ("as".toList ++ (after ++ (name ++ z))))) = none := rfl
    rw [Binding.text, List.cons_append, List.append_assoc, List.append_assoc, List.append_assoc,
      binding?, hnone, Option.none_or, namespaceBinding?, hword, Option.bind_some,
      white?_gap hbefore has, if_neg hplain, Option.bind_some,
      keyword?_append hne hafter (stops_isWhite_of_isName hname), Option.bind_some,
      some?_append hname.1 hname.2 (hz hlast)]

theorem binding?_text_eq_none {b : Binding} (hplain : ¬b.IsPlain) (z : Text) :
    binding? (b.text ++ z) = none := by
  cases b with
  | names inside => exact absurd trivial hplain
  | all before after name =>
    obtain rfl : before = [] := not_not.mp hplain
    rfl

theorem trimStart_binding_text (b : Binding) {w : Text} (hw : IsGap w) (z : Text) :
    trimStart (w ++ (b.text ++ z)) = b.text ++ z := by
  obtain ⟨d, u, hb, hd⟩ := exists_binding_text_eq_cons b
  rw [trimStart_append hw, hb]
  exact trimStart_cons (by rcases hd with rfl | rfl <;> rfl) _

theorem secondBinding?_comma (b : Binding) {before after : Text} (hbefore : IsGap before)
    (hafter : IsGap after) (z : Text) :
    secondBinding? (before ++ ',' :: (after ++ (b.text ++ z))) = binding? (b.text ++ z) := by
  have hword : ∀ u, word? [','] (',' :: u) = some u := fun _ ↦ rfl
  rw [secondBinding?, trimStart_append hbefore, trimStart_cons (by decide), hword,
    Option.bind_some, trimStart_binding_text b hafter]

theorem importClause?_text {c : Clause} (hc : c.IsWellFormed) (hplain : c.IsPlain)
    (hz : c.EndsInName → Stops isNameChar z) (hcomma : ∀ c ∈ (trimStart z).head?, c ≠ ',') :
    importClause? (c.text ++ z) = some z := by
  have hsecond := secondBinding?_eq_none hcomma
  cases c with
  | binding b =>
    rw [Clause.text, importClause?, binding?_text hc hplain hz, Option.some_or, Option.map_some,
      optionally, hsecond, Option.getD_none]
  | name n =>
    have hstop := hz (any_getLast?_of_isName hc [])
    rw [Clause.text, importClause?, binding?_name hc, Option.none_or,
      some?_append hc.1 hc.2 hstop, Option.map_some, optionally, hsecond, Option.getD_none]
  | both n before after b =>
    obtain ⟨hn, hbefore, hafter, hb⟩ := hc
    have hlast : (Clause.both n before after b).EndsInName =
        (b.text.getLast?.any isNameChar = true) := by
      have hsplit : (Clause.both n before after b).text =
          n ++ (before ++ ',' :: after) ++ b.text := by
        simp only [Clause.text, List.append_assoc, List.cons_append]
      obtain ⟨d, u, hcons, -⟩ := exists_binding_text_eq_cons b
      rw [Clause.EndsInName, hsplit, List.getLast?_append_of_ne_nil _ (by simp [hcons])]
    rw [hlast] at hz
    have hstop : Stops isNameChar (before ++ ',' :: (after ++ (b.text ++ z))) :=
      stops_isNameChar_comma hbefore
    rw [Clause.text, List.append_assoc, List.append_assoc, List.cons_append, List.append_assoc,
      importClause?, binding?_name hn, Option.none_or, some?_append hn.1 hn.2 hstop,
      Option.map_some, optionally, secondBinding?_comma b hbefore hafter,
      binding?_text hb hplain hz, Option.getD_some]

/-- A clause begins with a brace, a star or a name. -/
theorem exists_clause_text_eq_cons {c : Clause} (hc : c.IsWellFormed) :
    ∃ d u, c.text = d :: u ∧ (d = '{' ∨ d = '*' ∨ isNameChar d = true) := by
  cases c with
  | binding b =>
    obtain ⟨d, u, hb, hd⟩ := exists_binding_text_eq_cons b
    exact ⟨d, u, hb, hd.imp_right .inl⟩
  | name n =>
    obtain ⟨d, u, rfl⟩ := List.exists_cons_of_ne_nil hc.1
    exact ⟨d, u, rfl, .inr (.inr (hc.2 d List.mem_cons_self))⟩
  | both n before after b =>
    obtain ⟨d, u, rfl⟩ := List.exists_cons_of_ne_nil hc.1.1
    exact ⟨d, _, rfl, .inr (.inr (hc.1.2 d List.mem_cons_self))⟩

theorem stops_clause {c : Clause} (hc : c.IsWellFormed) : Stops isWhite (c.text ++ z) := by
  obtain ⟨d, u, hcons, hd⟩ := exists_clause_text_eq_cons hc
  rw [hcons]
  refine stops_cons.mpr ?_
  rcases hd with rfl | rfl | hd
  · rfl
  · rfl
  · exact isWhite_of_isNameChar hd

theorem specifier?_clause {c : Clause} (hc : c.IsWellFormed) (z : Text) :
    specifier? (c.text ++ z) = none := by
  obtain ⟨d, u, hcons, hd⟩ := exists_clause_text_eq_cons hc
  rw [hcons]
  refine specifier?_eq_none ?_
  rcases hd with rfl | rfl | hd
  · rfl
  · rfl
  · exact isSpecifierQuote_of_isNameChar hd

/-! ## From the clause to the specifier -/

variable {c : Clause} {before after gap u : Text}

/-- What follows a clause: `from` between white space, and a text that begins with a quote. -/
def fromText (before after : Text) (q : Char) (u : Text) : Text :=
  before ++ ("from".toList ++ (after ++ q :: u))

theorem trimStart_fromText (hbefore : IsGap before) :
    trimStart (fromText before after q u) = "from".toList ++ (after ++ q :: u) :=
  dropWhile_append_eq hbefore (stops_cons.mpr (by decide))

theorem white?_fromText (hbefore : IsGap before) :
    white? (fromText before after q u) =
      if before = [] then none else some ("from".toList ++ (after ++ q :: u)) :=
  white?_gap hbefore (stops_cons.mpr (by decide))

theorem stops_fromText (hends : c.EndsInName → before ≠ []) (hbefore : IsGap before) :
    c.EndsInName → Stops isNameChar (fromText before after q u) :=
  fun h ↦ stops_isNameChar_of_isGap hbefore (hends h)

theorem stops_quote (hq : isSpecifierQuote q = true) : Stops isWhite (q :: u) := by
  rcases eq_of_isSpecifierQuote hq with rfl | rfl <;> exact stops_cons.mpr rfl

theorem fromSpecifier?_quote (hq : isSpecifierQuote q = true) (u : Text) :
    fromSpecifier? (q :: u) = none := by
  rcases eq_of_isSpecifierQuote hq with rfl | rfl <;> rfl

theorem bind_fromSpecifier?_fromText (hbefore : IsGap before) (hafter : IsGap after)
    (hq : isSpecifierQuote q = true) :
    (white? (fromText before after q u)).bind fromSpecifier? =
      if before ≠ [] ∧ after ≠ [] then specifier? (q :: u) else none := by
  rw [white?_fromText hbefore]
  by_cases hb : before = []
  · rw [if_pos hb, if_neg fun h ↦ h.1 hb, Option.bind_none]
  rw [if_neg hb, Option.bind_some, fromSpecifier?]
  by_cases ha : after = []
  · rw [if_neg fun h ↦ h.2 ha, ha, List.nil_append, keyword?_append_eq_none (stops_quote hq),
      Option.bind_none]
  · rw [if_pos ⟨hb, ha⟩, keyword?_append ha hafter (stops_quote hq), Option.bind_some]

/-- No import leads through a clause in another layout. -/
theorem bind_importClause?_eq_none (hc : c.IsWellFormed) (hplain : ¬c.IsPlain) (z : Text) :
    ((importClause? (c.text ++ z)).bind fun r ↦ (white? r).bind fromSpecifier?) = none := by
  cases c with
  | binding b =>
    obtain ⟨d, u, hcons, hd⟩ := exists_binding_text_eq_cons b
    have hname : some? isNameChar (b.text ++ z) = none := by
      rw [hcons]
      exact some?_eq_none (stops_cons.mpr (by rcases hd with rfl | rfl <;> decide))
    rw [Clause.text, importClause?, binding?_text_eq_none hplain, hname]
    rfl
  | name n => exact absurd trivial hplain
  | both n before after b =>
    obtain ⟨hn, hbefore, hafter, -⟩ := hc
    have hcomma : Stops isWhite (',' :: (after ++ (b.text ++ z))) := stops_cons.mpr rfl
    rw [Clause.text, List.append_assoc, List.append_assoc, List.cons_append, List.append_assoc,
      importClause?, binding?_name hn, Option.none_or,
      some?_append hn.1 hn.2 (stops_isNameChar_comma hbefore), Option.map_some, optionally,
      secondBinding?_comma b hbefore hafter, binding?_text_eq_none hplain, Option.getD_none,
      Option.bind_some, white?_gap hbefore hcomma]
    split <;> rfl

theorem importBody?_clause (hc : c.IsWellFormed) (hbefore : IsGap before)
    (hends : c.EndsInName → before ≠ []) (hafter : IsGap after) (hq : isSpecifierQuote q = true) :
    importBody? (c.text ++ fromText before after q u) =
      if c.IsPlain ∧ before ≠ [] ∧ after ≠ [] then (specifier? (q :: u)).bind closeStatement?
      else none := by
  have hcomma : ∀ d ∈ (trimStart (fromText before after q u)).head?, d ≠ ',' := by
    rw [trimStart_fromText hbefore]
    intro d hd
    cases hd
    decide
  rw [importBody?, specifier?_clause hc, Option.or_none]
  by_cases hplain : c.IsPlain
  · rw [importClause?_text hc hplain (stops_fromText hends hbefore) hcomma, Option.bind_some,
      bind_fromSpecifier?_fromText hbefore hafter hq]
    by_cases hgaps : before ≠ [] ∧ after ≠ []
    · rw [if_pos hgaps, if_pos ⟨hplain, hgaps⟩]
    · rw [if_neg hgaps, if_neg fun h ↦ hgaps h.2, Option.bind_none]
  · rw [bind_importClause?_eq_none hc hplain, if_neg fun h ↦ hplain h.1, Option.bind_none]

/-! ## The word `type` -/

theorem fromSpecifier?_clause (hc : c.IsWellFormed) (hbefore : IsGap before)
    (hends : c.EndsInName → before ≠ []) :
    fromSpecifier? (c.text ++ fromText before after q u) = none := by
  have hfrom : ∀ d ∈ "from".toList, isNameChar d = true := by decide
  cases c with
  | binding b =>
    obtain ⟨d, v, hcons, hd⟩ := exists_binding_text_eq_cons b
    rw [Clause.text, hcons]
    rcases hd with rfl | rfl <;> rfl
  | name n =>
    have hstop : Stops isNameChar (fromText before after q u) :=
      stops_fromText hends hbefore (any_getLast?_of_isName hc [])
    rw [Clause.text, fromSpecifier?, keyword?_name hfrom hc.2 hstop, white?_fromText hbefore]
    split
    · split <;> rfl
    · rfl
  | both n before' after' b =>
    obtain ⟨hn, hbefore', -, -⟩ := hc
    rw [Clause.text, List.append_assoc, List.append_assoc, List.cons_append, fromSpecifier?,
      keyword?_name hfrom hn.2 (stops_isNameChar_comma hbefore'),
      white?_gap hbefore' (stops_cons.mpr rfl)]
    split
    · split <;> rfl
    · rfl

/-- A word is not read as a name that is imported when no `from` stands behind it. -/
theorem importBody?_word {w : Text} (hw : IsName w) (hgap : IsGap gap)
    (hstop : gap = [] → Stops isNameChar t) (ht : Stops isWhite t)
    (hcomma : ∀ d ∈ t.head?, d ≠ ',') (hfrom : fromSpecifier? t = none) :
    importBody? (w ++ (gap ++ t)) = none := by
  have hstop : Stops isNameChar (gap ++ t) := by
    by_cases hne : gap = []
    · rw [hne]
      exact hstop hne
    · exact stops_isNameChar_of_isGap hgap hne
  rw [← dropWhile_append_eq hgap ht] at hcomma
  rw [importBody?_name hw hstop hcomma, white?_gap hgap ht]
  split
  · rfl
  · rw [Option.bind_some, hfrom, Option.bind_none]

/-- The word in front of a clause is not read as a name that is imported. -/
theorem importBody?_type (hgap : IsGap gap) (hname : c.BeginsWithName → gap ≠ [])
    (hc : c.IsWellFormed) (hbefore : IsGap before) (hends : c.EndsInName → before ≠ []) :
    importBody? ("type".toList ++ (gap ++ (c.text ++ fromText before after q u))) = none := by
  obtain ⟨d, v, hcons, hd⟩ := exists_clause_text_eq_cons hc
  refine importBody?_word (by decide) hgap (fun hne ↦ ?_) (stops_clause hc) ?_
    (fromSpecifier?_clause hc hbefore hends)
  · rw [hcons]
    refine stops_cons.mpr ?_
    by_contra hd'
    refine hname ?_ hne
    rw [Clause.BeginsWithName, hcons]
    exact Bool.not_eq_false _ ▸ hd'
  · rw [hcons]
    intro e he
    cases he
    rintro rfl
    rcases hd with hd | hd | hd <;> exact absurd hd (by decide)

theorem importBody?_from (hafter : IsGap after) (hq : isSpecifierQuote q = true) :
    importBody? ("from".toList ++ (after ++ q :: u)) = none := by
  refine importBody?_word (by decide) hafter (fun _ ↦ ?_) (stops_quote hq) ?_
    (fromSpecifier?_quote hq u)
  · rcases eq_of_isSpecifierQuote hq with rfl | rfl <;> exact stops_cons.mpr (by decide)
  · intro d hd
    cases hd
    rcases eq_of_isSpecifierQuote hq with rfl | rfl <;> decide

/-- A default name `type` is not taken for the word. -/
theorem bind_keyword?_type_clause (hc : c.IsWellFormed) (hbefore : IsGap before)
    (hends : c.EndsInName → before ≠ []) (hafter : IsGap after) (hq : isSpecifierQuote q = true) :
    (keyword? "type".toList (c.text ++ fromText before after q u)).bind importBody? = none := by
  have htype : ∀ d ∈ "type".toList, isNameChar d = true := by decide
  cases c with
  | binding b =>
    obtain ⟨d, v, hcons, hd⟩ := exists_binding_text_eq_cons b
    rw [Clause.text, hcons]
    rcases hd with rfl | rfl <;> rfl
  | name n =>
    have hstop : Stops isNameChar (fromText before after q u) :=
      stops_fromText hends hbefore (any_getLast?_of_isName hc [])
    rw [Clause.text, keyword?_name htype hc.2 hstop, white?_fromText hbefore]
    split
    · split
      · rfl
      · rw [Option.bind_some, importBody?_from hafter hq]
    · rfl
  | both n before' after' b =>
    obtain ⟨hn, hbefore', -, -⟩ := hc
    rw [Clause.text, List.append_assoc, List.append_assoc, List.cons_append,
      keyword?_name htype hn.2 (stops_isNameChar_comma hbefore'),
      white?_gap hbefore' (stops_cons.mpr rfl)]
    split
    · split <;> rfl
    · rfl

/-! ## The end of the line -/

theorem lineEnd?_append (hx : '\n' ∉ x) (hr : t = '\n' :: r ∨ t = [] ∧ r = []) :
    lineEnd? (x ++ t) = if x = [] ∨ x = ['\r'] then some r else none := by
  rcases x with _ | ⟨c, _ | ⟨d, x⟩⟩
  · rcases hr with rfl | ⟨rfl, rfl⟩ <;> rfl
  · have hc : c ≠ '\n' := fun hc ↦ hx (hc ▸ List.mem_cons_self)
    by_cases hret : c = '\r'
    · subst hret
      rcases hr with rfl | ⟨rfl, rfl⟩ <;> rfl
    · rw [if_neg (by simp [hret]), List.singleton_append]
      exact lineEnd?.eq_5 _ (by simp) (by simp [hc]) (by simp [hret]) (by simp [hret])
  · have hc : c ≠ '\n' := fun hc ↦ hx (hc ▸ List.mem_cons_self)
    have hd : d ≠ '\n' := fun hd ↦ hx (hd ▸ List.mem_cons_of_mem _ List.mem_cons_self)
    rw [if_neg (by simp), List.cons_append, List.cons_append]
    exact lineEnd?.eq_5 _ (by simp) (by simp [hc]) (by simp) (by simp [hd])

/-- Every text is read as blanks, perhaps a semicolon with blanks behind it, and what is left. -/
theorem exists_closing_split (x : Text) :
    ∃ b s y, x = b ++ (s ++ y) ∧ (∀ c ∈ b, isBlank c = true) ∧ Stops isBlank y ∧
      (s = [] ∧ y.head? ≠ some ';' ∨ ∃ b', s = ';' :: b' ∧ ∀ c ∈ b', isBlank c = true) := by
  have hblank : ∀ t : Text, ∀ c ∈ t.takeWhile isBlank, isBlank c = true :=
    fun t ↦ List.all_eq_true.mp List.all_takeWhile
  have hstop := stops_dropWhile isBlank x
  have hx : x = x.takeWhile isBlank ++ x.dropWhile isBlank := List.takeWhile_append_dropWhile.symm
  by_cases hc : (x.dropWhile isBlank).head? = some ';'
  · obtain ⟨u, hu⟩ := List.head?_eq_some_iff.mp hc
    refine ⟨_, ';' :: u.takeWhile isBlank, u.dropWhile isBlank, ?_, hblank x,
      stops_dropWhile isBlank u, .inr ⟨_, rfl, hblank u⟩⟩
    rw [List.cons_append, List.takeWhile_append_dropWhile, ← hu]
    exact hx
  · exact ⟨_, [], _, hx, hblank x, hstop, .inl ⟨rfl, hc⟩⟩

theorem dropReturn_append (u : Text) (hy : y ≠ []) : dropReturn (u ++ y) = u ++ dropReturn y := by
  rw [dropReturn, List.getLast?_append_of_ne_nil u hy, List.dropLast_append_of_ne_nil hy,
    dropReturn]
  split <;> rfl

theorem filter_blank_eq_nil {b : Text} (hb : ∀ c ∈ b, isBlank c = true) :
    b.filter (!isBlank ·) = [] :=
  List.filter_eq_nil_iff.mpr fun c hc ↦ by simp [hb c hc]

theorem isClosing_iff {b s : Text} (hb : ∀ c ∈ b, isBlank c = true) (hy : Stops isBlank y)
    (hs : s = [] ∧ y.head? ≠ some ';' ∨ ∃ b', s = ';' :: b' ∧ ∀ c ∈ b', isBlank c = true) :
    IsClosing (b ++ (s ++ y)) ↔ y = [] ∨ y = ['\r'] := by
  have hfilter : ∀ u : Text, (b ++ (s ++ u)).filter (!isBlank ·) =
      (if s = [] then [] else [';']) ++ u.filter (!isBlank ·) := by
    intro u
    rw [List.filter_append, List.filter_append, filter_blank_eq_nil hb, List.nil_append]
    rcases hs with ⟨rfl, -⟩ | ⟨b', rfl, hb'⟩
    · rfl
    · rw [if_neg (List.cons_ne_nil _ _), List.filter_cons_of_pos (by decide),
        filter_blank_eq_nil hb']
  rcases y with _ | ⟨c, y⟩
  · -- Nothing is left, and blanks and semicolons are no carriage return.
    have hreturn : (b ++ (s ++ [])).getLast? ≠ some '\r' := by
      intro hlast
      rw [List.append_nil] at hlast
      rcases List.mem_append.mp (List.mem_of_getLast? hlast) with hmem | hmem
      · exact absurd (hb _ hmem) (by decide)
      · rcases hs with ⟨rfl, -⟩ | ⟨b', rfl, hb'⟩
        · exact absurd hmem List.not_mem_nil
        · rcases List.mem_cons.mp hmem with hmem | hmem
          · exact absurd hmem (by decide)
          · exact absurd (hb' _ hmem) (by decide)
    refine ⟨fun _ ↦ .inl rfl, fun _ ↦ ?_⟩
    rw [IsClosing, dropReturn_eq_self hreturn, hfilter]
    split <;> decide
  · have hc : isBlank c = false := stops_cons.mp hy
    have hreturn : dropReturn (b ++ (s ++ c :: y)) = b ++ (s ++ dropReturn (c :: y)) := by
      rw [dropReturn_append b (by simp), dropReturn_append s (List.cons_ne_nil c y)]
    rw [IsClosing, hreturn, hfilter]
    by_cases hret : c :: y = ['\r']
    · rw [hret]
      refine iff_of_true ?_ (.inr rfl)
      split <;> decide
    · -- The first character that is left is neither a blank nor the semicolon.
      have hcons : ∃ y', dropReturn (c :: y) = c :: y' := by
        rcases y with _ | ⟨d, y⟩
        · exact ⟨[], dropReturn_eq_self fun h ↦ hret (by simpa using h)⟩
        · rw [dropReturn]
          split
          · exact ⟨_, List.dropLast_cons_cons⟩
          · exact ⟨_, rfl⟩
      obtain ⟨y', hy'⟩ := hcons
      rw [hy', List.filter_cons_of_pos (by simp [hc])]
      refine iff_of_false ?_ (by simpa using hret)
      rcases hs with ⟨rfl, hsemicolon⟩ | ⟨b', rfl, -⟩
      · rintro (h | h)
        · exact absurd h (by simp)
        · exact hsemicolon (by simpa using (List.cons.inj h).1)
      · rintro (h | h) <;> simp at h

theorem closeLine?_append (hx : '\n' ∉ x) (hr : t = '\n' :: r ∨ t = [] ∧ r = []) :
    closeLine? (x ++ t) = if IsClosing x then some r else none := by
  have ht : Stops isBlank t ∧ t.head? ≠ some ';' := by
    rcases hr with rfl | ⟨rfl, -⟩
    · exact ⟨stops_cons.mpr rfl, by simp⟩
    · exact ⟨stops_nil, by simp⟩
  obtain ⟨b, s, y, rfl, hb, hy, hs⟩ := exists_closing_split x
  have hstop : Stops isBlank (y ++ t) := by
    by_cases hnil : y = []
    · rw [hnil]
      exact ht.1
    · exact hy.append hnil
  have hread : closeLine? (b ++ (s ++ y) ++ t) = lineEnd? (y ++ t) := by
    rw [List.append_assoc, List.append_assoc, closeLine?]
    rcases hs with ⟨rfl, hsemicolon⟩ | ⟨b', rfl, hb'⟩
    · have hnone : word? [';'] (y ++ t) = none := by
        refine word?_eq_none_iff.mpr ?_
        rintro ⟨u, hu⟩
        rcases y with _ | ⟨c, y⟩
        · rw [List.nil_append] at hu
          rw [← hu] at ht
          exact ht.2 rfl
        · exact hsemicolon (congrArg some (List.cons.inj hu).1.symm)
      rw [List.nil_append, dropWhile_append_eq hb hstop, optionally, hnone, Option.getD_none,
        hstop.dropWhile_eq]
    · have hsome : word? [';'] (';' :: b' ++ (y ++ t)) = some (b' ++ (y ++ t)) := rfl
      have hopen : Stops isBlank (';' :: b' ++ (y ++ t)) := stops_cons.mpr rfl
      rw [dropWhile_append_eq hb hopen, optionally, hsome, Option.getD_some,
        dropWhile_append_eq hb' hstop]
  have hy' : '\n' ∉ y := fun hmem ↦
    hx (List.mem_append_right b (List.mem_append_right s hmem))
  rw [hread, lineEnd?_append hy' hr]
  simp only [isClosing_iff hb hy hs]

/-! ## Recognition -/

theorem stops_head (hq : isSpecifierQuote q = true) {h : Head} (hh : h.IsWellFormed) :
    Stops isWhite (h.text ++ q :: u) := by
  rcases h with _ | ⟨_ | g, c, before, after⟩
  · exact stops_quote hq
  · rw [Head.text, typeText, List.nil_append, List.append_assoc]
    exact stops_clause hh.2.1
  · exact stops_cons.mpr (by decide)

/-- Behind `import` and white space a head in a plain layout leads to its specifier, and no other
does. -/
theorem importStatement?_head {h : Head} (hh : h.IsWellFormed) (hgap : IsGap gap)
    (hq : isSpecifierQuote q = true) :
    importStatement? ("import".toList ++ (gap ++ (h.text ++ q :: u))) =
      if gap ≠ [] ∧ h.IsPlain then (specifier? (q :: u)).bind closeStatement? else none := by
  have hstop := stops_head (u := u) hq hh
  by_cases hne : gap = []
  · rw [if_neg fun h ↦ h.1 hne, hne, List.nil_append, importStatement?,
      keyword?_append_eq_none hstop, Option.bind_none]
  rw [importStatement?, keyword?_append hne hgap hstop, Option.bind_some]
  rcases h with _ | ⟨type, c, before, after⟩
  · have htype : keyword? "type".toList (q :: u) = none := by
      rcases eq_of_isSpecifierQuote hq with rfl | rfl <;> rfl
    have hclause : importClause? (q :: u) = none := by
      rcases eq_of_isSpecifierQuote hq with rfl | rfl <;> rfl
    rw [if_pos ⟨hne, trivial⟩, Head.text, List.nil_append, htype, Option.bind_none, Option.none_or,
      importBody?, hclause, Option.bind_none, Option.none_or]
  · obtain ⟨htype, hc, hbefore, hends, hafter⟩ := hh
    have hbody := importBody?_clause (u := u) hc hbefore hends hafter hq
    have htext : (Head.clause type c before after).text ++ q :: u =
        typeText type ++ (c.text ++ fromText before after q u) := by
      simp only [Head.text, fromText, List.append_assoc]
    rw [htext]
    rcases type with _ | g
    · rw [typeText, List.nil_append, bind_keyword?_type_clause hc hbefore hends hafter hq,
        Option.none_or, hbody]
      simp [Head.IsPlain, hne]
    · obtain ⟨hg, hname⟩ := htype g rfl
      rw [typeText, List.append_assoc, importBody?_type hg hname hc hbefore hends, Option.or_none]
      by_cases hgne : g = []
      · rw [hgne, List.nil_append, keyword?_append_eq_none (stops_clause hc), Option.bind_none,
          if_neg fun h ↦ h.2.1 rfl]
      · rw [keyword?_append hgne hg (stops_clause hc), Option.bind_some, hbody]
        simp [Head.IsPlain, hne, hgne]

namespace ImportLayout

variable {s : ImportLayout}

theorem text_eq (s : ImportLayout) (t : Text) : s.text ++ t = s.indent ++ ("import".toList ++
    (s.gap ++ (s.head.text ++ s.opening :: (s.specifier ++ s.closing :: (s.tail ++ t))))) := by
  simp only [text, source, List.append_assoc, List.cons_append]

/-- **Which layouts are recognised.** An import statement is recognised where its layout is plain,
and only there. -/
theorem dependency?_text (hs : s.IsWellFormed) (hr : t = '\n' :: r ∨ t = [] ∧ r = []) :
    dependency? (s.text ++ t) = if s.IsPlain then some (s.specifier, r) else none := by
  have hopen : Stops isBlank ("import".toList ++ (s.gap ++ (s.head.text ++
      s.opening :: (s.specifier ++ s.closing :: (s.tail ++ t))))) := stops_cons.mpr (by decide)
  have hexport : ∀ u, reexportStatement? ("import".toList ++ u) = none := fun _ ↦ rfl
  rw [text_eq, dependency?, dropWhile_append_eq hs.indent hopen, hexport, Option.or_none,
    importStatement?_head hs.head hs.gap hs.opening,
    specifier?_quoted hs.opening hs.specifier.1 hs.specifier.2 hs.closing, Option.bind_some,
    closeStatement?, closeLine?_append hs.tail hr]
  by_cases hplain : s.gap ≠ [] ∧ s.head.IsPlain
  · rw [if_pos hplain]
    by_cases htail : IsClosing s.tail
    · rw [if_pos htail, if_pos ⟨hplain.1, hplain.2, htail⟩]
      rfl
    · rw [if_neg htail, if_neg fun h ↦ htail h.2.2]
      rfl
  · rw [if_neg hplain, if_neg fun h ↦ hplain ⟨h.1, h.2.1⟩]

end ImportLayout

end PluginPack.Script
