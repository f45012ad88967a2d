import PluginPack.Proofs.Script.ImportLayout
import PluginPack.Proofs.Script.KeptLiteral
import PluginPack.Proofs.Script.Nesting

/-!
# Declarations stay

A declaration outside all brackets, literals and comments goes through the removal of module syntax:
it is left in the body of its script, and outside again. For this the script has to close what it
opens, the removed statements and lists have to close what they open, and none of them may reach
into the declaration. The keyword `export` in front of the declaration may go or stay.
-/

namespace PluginPack

open Text

namespace Script

/-! ## Declarations -/

/-- The words that declare what a module exports. -/
def declaringWords : List Text := ["function".toList, "const".toList, "class".toList]

/-- The words that begin module syntax. -/
def moduleWords : List Text := ["import".toList, "export".toList]

/-- The beginning of a declaration: the word that declares, the white space behind it, the name, and
the character behind the name. -/
structure DeclarationHead where
  word : Text
  gap : Text
  name : Text
  next : Char
deriving DecidableEq, Repr

namespace DeclarationHead

def text (d : DeclarationHead) : Text := d.word ++ (d.gap ++ (d.name ++ [d.next]))

theorem text_append (d : DeclarationHead) (r : Text) :
    d.text ++ r = d.word ++ (d.gap ++ (d.name ++ d.next :: r)) := by
  simp only [text, List.append_assoc, List.singleton_append]

structure IsWellFormed (d : DeclarationHead) : Prop where
  word : d.word ∈ declaringWords
  gap : d.gap ≠ [] ∧ IsGap d.gap
  name : IsName d.name
  unreserved : d.name ∉ moduleWords
  next : isNameChar d.next = false

end DeclarationHead

/-- A script declares at the top what it exports: the keyword `export` stands outside of all
brackets, literals and comments, with the declaration behind it. -/
def Exports (source : Text) (d : DeclarationHead) : Prop :=
  ∃ x w r, nesting x = .code 0 ∧ w ≠ [] ∧ IsGap w ∧
    source = x ++ ("export".toList ++ (w ++ (d.text ++ r)))

/-- Whether a text begins with a declaration of a name. -/
def opensDeclaration (name t : Text) : Bool :=
  declaringWords.any fun k ↦ ((keyword? k t).bind (word? name)).any fun r ↦
    !r.head?.any isNameChar

/-- A text declares a name at the top: a declaration of it stands outside of all brackets, literals
and comments. -/
def Declares (t name : Text) : Prop :=
  ∃ x r, t = x ++ r ∧ nesting x = .code 0 ∧ opensDeclaration name r = true

instance (t name : Text) : Decidable (Declares t name) :=
  decidable_of_iff (∃ x ∈ t.inits, nesting x = .code 0 ∧
      opensDeclaration name (t.drop x.length) = true) <| by
    constructor
    · rintro ⟨x, hx, hcode, hopens⟩
      obtain ⟨r, rfl⟩ := (List.mem_inits _ _).mp hx
      rw [List.drop_left] at hopens
      exact ⟨x, r, rfl, hcode, hopens⟩
    · rintro ⟨x, r, rfl, hcode, hopens⟩
      refine ⟨x, (List.mem_inits _ _).mpr ⟨r, rfl⟩, hcode, ?_⟩
      rwa [List.drop_left]

/-- A text holds a declaration of a name, at the top or anywhere else. -/
def HoldsDeclaration (t name : Text) : Prop :=
  ∃ r, r <:+ t ∧ opensDeclaration name r = true

variable {d : DeclarationHead} {k l n r t w x : Text} {c : Char}

namespace DeclarationHead.IsWellFormed

theorem isNameChar_of_mem_word (h : d.IsWellFormed) : ∀ c ∈ d.word, isNameChar c = true := by
  have hwords : ∀ k ∈ declaringWords, ∀ c ∈ k, isNameChar c = true := by decide
  exact hwords d.word h.word

theorem word_ne_nil (h : d.IsWellFormed) : d.word ≠ [] := by
  have hwords : ∀ k ∈ declaringWords, k ≠ [] := by decide
  exact hwords d.word h.word

theorem stops_name (h : d.IsWellFormed) (r : Text) : Stops isWhite (d.name ++ r) := by
  obtain ⟨hne, hname⟩ := h.name
  obtain ⟨c, n, hn⟩ := List.exists_cons_of_ne_nil hne
  rw [hn] at hname ⊢
  exact stops_cons.mpr (isWhite_of_isNameChar (hname c List.mem_cons_self))

/-- The beginning of a declaration is one also when what follows the name is cut off. -/
theorem opensDeclaration_append (h : d.IsWellFormed) (hr : ∀ c ∈ r.head?, isNameChar c = false) :
    opensDeclaration d.name (d.word ++ (d.gap ++ (d.name ++ r))) = true := by
  refine List.any_eq_true.mpr ⟨d.word, h.word, ?_⟩
  rw [keyword?_append h.gap.1 h.gap.2 (h.stops_name r), Option.bind_some, word?_append,
    Option.any_some, Bool.not_eq_true', Option.any_eq_false]
  exact hr

end DeclarationHead.IsWellFormed

/-! ## No module syntax in a declaration -/

/-- A name that is not the keyword is not read as one. -/
theorem keyword?_name_eq_none (hname : ∀ c ∈ n, isNameChar c = true)
    (hkeyword : ∀ c ∈ k, isNameChar c = true) (hne : n ≠ k) (hc : isNameChar c = false)
    (r : Text) : keyword? k (n ++ c :: r) = none := by
  rw [keyword?_eq_none_iff]
  intro e he hpre
  have hn : e ∉ n := fun hmem ↦ by
    rw [isWhite_of_isNameChar (hname e hmem)] at he
    cases he
  rcases List.prefix_or_prefix_of_prefix hpre (List.prefix_append n (c :: r)) with h | ⟨z, hz⟩
  · exact hn (h.subset (List.mem_append_right k List.mem_cons_self))
  · rw [← hz, List.prefix_append_right_inj] at hpre
    cases z with
    | nil =>
      rw [List.append_nil] at hz
      exact hn (hz ▸ List.mem_append_right k List.mem_cons_self)
    | cons c' z =>
      obtain ⟨rfl, -⟩ := List.cons_prefix_cons.mp hpre
      rcases List.eq_nil_or_concat z with rfl | ⟨z, e', rfl⟩
      · exact hne (List.append_inj_left' hz rfl)
      -- The character behind the name would stand in the keyword.
      · rw [List.concat_eq_append, ← List.cons_append, ← List.append_assoc] at hz
        have hk := List.append_inj_left' hz rfl
        have hmem : c' ∈ k := hk ▸ List.mem_append_right n List.mem_cons_self
        rw [hkeyword c' hmem] at hc
        cases hc

theorem keyword?_gap_eq_none (hw : IsGap w) (hstop : Stops isWhite t) (hk : Stops isWhite k)
    (hne : k ≠ []) (ht : keyword? k t = none) : keyword? k ((w ++ t).dropWhile isBlank) = none := by
  induction w with
  | nil =>
    have hblank : Stops isBlank t := fun c hc ↦ by
      by_contra hblank
      have hwhite := isWhite_of_isBlank (by simpa using hblank)
      rw [hstop c hc] at hwhite
      cases hwhite
    rwa [List.nil_append, hblank.dropWhile_eq]
  | cons c w ih =>
    rw [List.cons_append, List.dropWhile_cons]
    split
    · exact ih fun d hd ↦ hw d (List.mem_cons_of_mem c hd)
    · obtain ⟨e, k, rfl⟩ := List.exists_cons_of_ne_nil hne
      refine keyword?_eq_none fun hpre ↦ ?_
      obtain ⟨rfl, -⟩ := List.cons_prefix_cons.mp hpre
      have hwhite := hw e List.mem_cons_self
      rw [stops_cons.mp hk] at hwhite
      cases hwhite

/-- A character that does not stand in the front of a text stands behind it. -/
theorem exists_eq_append_of_not_mem {y u v : Text} (hx : c ∉ x) (h : x ++ y = u ++ c :: v) :
    ∃ u', u = x ++ u' ∧ y = u' ++ c :: v := by
  rcases List.append_eq_append_iff.mp h with ⟨u', hu, hy⟩ | ⟨z, hz, hv⟩
  · exact ⟨u', hu, hy⟩
  · cases z with
    | nil => exact ⟨[], by rw [hz, List.append_nil, List.append_nil], hv.symm⟩
    | cons e z =>
      obtain ⟨rfl, -⟩ := List.cons.inj hv
      exact absurd (hz ▸ List.mem_append_right u List.mem_cons_self) hx

namespace DeclarationHead.IsWellFormed

/-- A line that begins below the first one in the head of a declaration begins in the gap. -/
theorem exists_gap_of_newline (h : d.IsWellFormed) {u v : Text} (huv : d.text = u ++ '\n' :: v)
    (hv : v ≠ []) : ∃ g, IsGap g ∧ v = g ++ (d.name ++ [d.next]) := by
  have hnewline : isNameChar '\n' ≠ true := by decide
  obtain ⟨u', -, hbehind⟩ :=
    exists_eq_append_of_not_mem (fun hmem ↦ hnewline (h.isNameChar_of_mem_word _ hmem)) huv
  rcases List.append_eq_append_iff.mp hbehind with ⟨z, -, hz⟩ | ⟨z, hz, hrest⟩
  · obtain ⟨z', -, hz'⟩ :=
      exists_eq_append_of_not_mem (fun hmem ↦ hnewline (h.name.2 _ hmem)) hz
    cases z' with
    | nil => exact absurd (List.cons.inj hz').2.symm hv
    | cons e z' => simp at hz'
  · cases z with
    | nil =>
      obtain ⟨e, n, hn⟩ := List.exists_cons_of_ne_nil h.name.1
      have hchars := h.name.2
      rw [hn] at hrest hchars
      obtain ⟨rfl, -⟩ := List.cons.inj hrest
      exact absurd (hchars _ List.mem_cons_self) hnewline
    | cons e g =>
      refine ⟨g, fun f hf ↦ h.gap.2 f ?_, (List.cons.inj hrest).2⟩
      rw [hz]
      exact List.mem_append_right u' (List.mem_cons_of_mem e hf)

/-- Wherever a line begins in the head of a declaration, it does not begin as module syntax does. -/
theorem keyword?_eq_none (h : d.IsWellFormed) (hk : k ∈ moduleWords) :
    (∀ r, keyword? k ((d.text ++ r).dropWhile isBlank) = none) ∧
      ∀ u v, d.text = u ++ '\n' :: v → v ≠ [] → ∀ r,
        keyword? k ((v ++ r).dropWhile isBlank) = none := by
  have hwords : ∀ k ∈ moduleWords, k ≠ [] ∧ (∀ c ∈ k, isNameChar c = true) := by decide
  obtain ⟨hne, hchars⟩ := hwords k hk
  have hstop : Stops isWhite k := fun c hc ↦
    isWhite_of_isNameChar (hchars c (List.mem_of_mem_head? hc))
  constructor
  · intro r
    have hfirst : ∀ k ∈ moduleWords, ∀ w ∈ declaringWords, ∀ t,
        keyword? k ((w ++ t).dropWhile isBlank) = none := by
      intro k hk w hw t
      simp only [moduleWords, List.mem_cons, List.not_mem_nil, or_false] at hk
      simp only [declaringWords, List.mem_cons, List.not_mem_nil, or_false] at hw
      rcases hk with rfl | rfl <;> rcases hw with rfl | rfl | rfl <;> rfl
    rw [text_append]
    exact hfirst k hk d.word h.word _
  · intro u v huv hv r
    obtain ⟨g, hg, rfl⟩ := h.exists_gap_of_newline huv hv
    rw [List.append_assoc, List.append_assoc, List.singleton_append]
    exact keyword?_gap_eq_none hg (h.stops_name _) hstop hne
      (keyword?_name_eq_none h.name.2 hchars (fun hn ↦ h.unreserved (hn ▸ hk)) h.next r)

end DeclarationHead.IsWellFormed

/-! ## Passes -/

/-- The step finds nothing where a line does not begin with a word of module syntax. -/
def NeedsModuleWord {α : Type} (step : Text → Option (α × Text)) : Prop :=
  ∀ t, (∀ k ∈ moduleWords, keyword? k (t.dropWhile isBlank) = none) → step t = none

theorem needsModuleWord_dependency? : NeedsModuleWord dependency? := by
  intro t h
  rw [dependency?, importStatement?, reexportStatement?, h "import".toList (by decide),
    h "export".toList (by decide)]
  rfl

theorem needsModuleWord_of_needsKeyword {α : Type} {step : Text → Option (α × Text)}
    (h : Marker.NeedsKeyword step "export".toList) : NeedsModuleWord step :=
  fun t ht ↦ h t (ht _ (by decide))

/-- The head of a declaration goes through a pass that leaves what surrounds every place as it is,
if every part that is found misses it, and it is surrounded by the same behind the pass. -/
theorem DeclarationHead.IsWellFormed.exists_substitute_eq {α : Type}
    {step : Text → Option (α × Text)}
    {hstep : ∀ {t a r}, step t = some (a, r) → r <:+ t ∧ r.length < t.length}
    {f : Part α → Text} (h : d.IsWellFormed) (hneeds : NeedsModuleWord step)
    (hmiss : ∀ p ∈ (Marker.ofLine step hstep).findAll (x ++ (d.text ++ r)),
      Marker.Misses d.text p)
    (heven : ((Marker.ofLine step hstep).cut (x ++ (d.text ++ r))).Even f (nesting [])) :
    ∃ x' r', ((Marker.ofLine step hstep).cut (x ++ (d.text ++ r))).substitute f =
      x' ++ (d.text ++ r') ∧ nesting x' = nesting x := by
  have hne : d.text ≠ [] := fun hnil ↦ h.word_ne_nil (List.append_eq_nil_iff.mp hnil).1
  have hpass : ∀ b, (Marker.ofLine step hstep).cutFrom b (d.text ++ r) =
      ((Marker.ofLine step hstep).cutFrom d.text.getLast? r).prepend d.text :=
    fun b ↦ Marker.cutFrom_ofLine_append hne
      (fun _ ↦ hneeds _ fun k hk ↦ (h.keyword?_eq_none hk).1 r)
      fun u v huv hv ↦ hneeds _ fun k hk ↦ (h.keyword?_eq_none hk).2 u v huv hv r
  obtain ⟨front, rfl, hcut⟩ := Marker.exists_cutFrom_append List.prefix_rfl hpass x hmiss
  rw [Marker.cut, hcut] at heven ⊢
  rw [Cut.substitute_append, Cut.substitute_prepend]
  exact ⟨_, _, rfl, heven.of_append.run_substitute⟩

/-! ## Export syntax -/

/-- Keywords of export syntax with white space behind them leave code in code. -/
theorem IsExportWord.run_code {m : Nat} (hl : IsExportWord l) :
    Nesting.run (.code m) l = .code m := by
  have hletters : ∀ c ∈ exportLetters, c ≠ '/' ∧ isQuote c = false ∧ isOpening c = false ∧
      isClosing c = false ∧ isNameChar c = true := by decide
  have hstep : ∀ c, isWhite c = true ∨ c ∈ exportLetters →
      Nesting.stepCode m c = .code m ∨ Nesting.stepCode m c = .word m := by
    rintro c (hc | hc)
    · exact .inl (Nesting.stepCode_of_isWhite hc)
    · obtain ⟨hslash, hquote, hopening, hclosing, hname⟩ := hletters c hc
      right
      simp [Nesting.stepCode, hslash, hquote, hopening, hclosing, hname]
  -- Letters lead into a word, and the white space at the end leads out of it.
  have hrun : ∀ t, (∀ c ∈ t, isWhite c = true ∨ c ∈ exportLetters) →
      Nesting.run (.code m) t = .code m ∨ Nesting.run (.code m) t = .word m := by
    intro t ht
    induction t using List.reverseRecOn with
    | nil => exact .inl rfl
    | append_singleton t c ih =>
      rw [Nesting.run_append]
      have hc := hstep c (ht c (List.mem_append_right t List.mem_cons_self))
      rcases ih fun e he ↦ ht e (List.mem_append_left [c] he) with h | h <;> rw [h] <;> exact hc
  rcases List.eq_nil_or_concat l with rfl | ⟨t, c, rfl⟩
  · rfl
  · rw [List.concat_eq_append] at hl ⊢
    have hwhite := Nesting.stepCode_of_isWhite (n := m) (hl.ends c (by simp))
    rw [Nesting.run_append]
    rcases hrun t fun e he ↦ hl.letters e (List.mem_append_left [c] he) with h | h <;> rw [h] <;>
      exact hwhite

/-- At the beginning of a line such keywords change nothing, unless the reading is lost. -/
theorem IsExportWord.run_eq {s : Nesting} (hl : IsExportWord l) (hs : s.BeginsLine) :
    s.run l = s ∨ s.run l = .lost := by
  have hnot : ∀ c, isWhite c = false → c ∉ exportLetters → c ∉ l := fun c ↦ hl.not_mem
  cases s with
  | code m => exact .inl hl.run_code
  | quoted q m =>
    refine (Nesting.run_quoted fun c hc ↦ ⟨?_, hl.isQuote_eq_false c hc⟩).imp_right And.right
    rintro rfl
    exact hnot '\\' (by decide) (by decide) hc
  | blockComment m => exact .inl (Nesting.run_blockComment (hnot '*' (by decide) (by decide)))
  | lost => exact .inl (Nesting.run_lost l)
  | word | slash | escaped | lineComment | asterisk => exact hs.elim

/-- A script closes what it opens. The newline ends a comment on the last line. -/
def Closes (t : Text) : Prop := nesting (t ++ ['\n']) = .code 0

instance (t : Text) : Decidable (Closes t) := inferInstanceAs (Decidable (_ = _))

/-- Taking keywords of export syntax from a script that closes what it opens leaves what surrounds
every place as it is. -/
theorem even_exportWords {step : Text → Option (Text × Text)}
    {hstep : ∀ {t a r}, step t = some (a, r) → r <:+ t ∧ r.length < t.length}
    (hword : ∀ p ∈ (Marker.ofLine step hstep).findAll t, IsExportWord p.lexeme)
    (hblank : ∀ {u b r}, step u = some (b, r) → ∀ c ∈ b, isBlank c = true) (ht : Closes t) :
    ((Marker.ofLine step hstep).cut t).Even (fun p ↦ p.value) (nesting []) := by
  refine Marker.even_cut fun sp hsp a r hsplit _ hfind ↦ ?_
  have hbegins := beginsLine_nesting (Marker.beginsLine_of_find?_ofLine hfind)
  have hpart : IsExportWord sp.text := hword _ <| by
    rw [← Marker.map_part_spans]
    exact List.mem_map_of_mem hsp
  rw [Nesting.run_blanks hbegins (hblank (Marker.of_find?_ofLine hfind))]
  rcases hpart.run_eq hbegins with h | h
  · exact h.symm
  · rw [Closes, hsplit, List.append_assoc, nesting_append, List.append_assoc, Nesting.run_append, h,
      Nesting.run_lost] at ht
    cases ht

/-! ## Bodies -/

/-- The script without its local statements and without the words `export default`. Lists of exports
are taken from this text. -/
def withoutDefaults (source : Text) : Text := exportDefault.replace id (detachLocal source).code

def withoutLists (source : Text) : Text := exportList.erase (withoutDefaults source)

theorem body_eq (source : Text) :
    Bundle.body source = exportKeyword.replace id (withoutLists source) := rfl

/-- What surrounds the end of a part is what surrounds its beginning. -/
def KeepsNesting {α : Type} (t : Text) (sp : Span α) : Prop :=
  nesting (t.take sp.ends) = nesting (t.take sp.offset)

instance {α : Type} (t : Text) (sp : Span α) : Decidable (KeepsNesting t sp) :=
  inferInstanceAs (Decidable (_ = _))

/-- A script that closes what it opens, from which no part of it is removed that does not. -/
structure IsEven (source : Text) : Prop where
  closes : Closes source
  statements : ∀ st ∈ localSpans source, KeepsNesting source st
  lists : ∀ p ∈ exportList.spans (withoutDefaults source), KeepsNesting (withoutDefaults source) p

instance (source : Text) : Decidable (IsEven source) :=
  decidable_of_iff (Closes source ∧ (∀ st ∈ localSpans source, KeepsNesting source st) ∧
      ∀ p ∈ exportList.spans (withoutDefaults source), KeepsNesting (withoutDefaults source) p)
    ⟨fun ⟨hcloses, hstatements, hlists⟩ ↦ ⟨hcloses, hstatements, hlists⟩,
      fun h ↦ ⟨h.closes, h.statements, h.lists⟩⟩

/-- Nothing that is removed from a script reaches into a text. -/
structure Spares (source t : Text) : Prop where
  statements : ∀ p ∈ dependency.findAll source, Marker.Misses t p
  lists : ∀ p ∈ exportList.findAll (withoutDefaults source), Marker.Misses t p

instance (source t : Text) : Decidable (Spares source t) :=
  decidable_of_iff ((∀ p ∈ dependency.findAll source, Marker.Misses t p) ∧
      ∀ p ∈ exportList.findAll (withoutDefaults source), Marker.Misses t p)
    ⟨fun ⟨hstatements, hlists⟩ ↦ ⟨hstatements, hlists⟩, fun h ↦ ⟨h.statements, h.lists⟩⟩

theorem KeepsNesting.run_eq {α : Type} {sp : Span α} {a : Text}
    (h : KeepsNesting (a ++ (sp.text ++ r)) sp) (ho : sp.offset = a.length) :
    (nesting a).run sp.text = nesting a := by
  rw [KeepsNesting, Span.ends, ho, List.take_left, ← List.length_append, ← List.append_assoc,
    List.take_left, nesting_append] at h
  exact h

theorem Closes.of_nesting_eq {t' : Text} (ht : Closes t) (h : nesting t' = nesting t) :
    Closes t' := by
  rw [Closes, nesting_append] at ht ⊢
  rwa [h]

theorem isBlank_of_mem_takeWhile (t : Text) : ∀ c ∈ t.takeWhile isBlank, isBlank c = true :=
  List.all_eq_true.mp List.all_takeWhile

namespace IsEven

variable {source : Text} (h : IsEven source)

include h

theorem even_dependency : (dependency.cut source).Even keepForeign (nesting []) := by
  refine Marker.even_cut fun sp hsp a r hsplit ho _ ↦ ?_
  rw [keepForeign]
  split
  · rename_i hlocal
    have hkeeps := h.statements sp (List.mem_filter.mpr ⟨hsp, hlocal⟩)
    rw [hsplit] at hkeeps
    exact (hkeeps.run_eq ho).symm
  · rfl

theorem closes_detachLocal : Closes (detachLocal source).code :=
  h.closes.of_nesting_eq (Marker.nesting_substitute_cut h.even_dependency)

theorem even_exportDefault :
    (exportDefault.cut (detachLocal source).code).Even (fun p ↦ p.value) (nesting []) := by
  refine even_exportWords (fun p hp ↦ isExportWord_of_mem_exportDefault hp) (fun {u b r} hu ↦ ?_)
    h.closes_detachLocal
  obtain ⟨a, -, he⟩ := Option.map_eq_some_iff.mp hu
  rw [← (Prod.mk.inj he).1]
  exact isBlank_of_mem_takeWhile u

theorem closes_withoutDefaults : Closes (withoutDefaults source) :=
  h.closes_detachLocal.of_nesting_eq (Marker.nesting_substitute_cut h.even_exportDefault)

theorem even_exportList :
    (exportList.cut (withoutDefaults source)).Even (fun _ ↦ []) (nesting []) := by
  refine Marker.even_cut fun sp hsp a r hsplit ho _ ↦ ?_
  have hkeeps := h.lists sp hsp
  rw [hsplit] at hkeeps
  exact (hkeeps.run_eq ho).symm

theorem closes_withoutLists : Closes (withoutLists source) :=
  h.closes_withoutDefaults.of_nesting_eq (Marker.nesting_substitute_cut h.even_exportList)

theorem even_exportKeyword :
    (exportKeyword.cut (withoutLists source)).Even (fun p ↦ p.value) (nesting []) := by
  refine even_exportWords (fun p hp ↦ isExportWord_of_mem_exportKeyword hp) (fun {u b r} hu ↦ ?_)
    h.closes_withoutLists
  obtain ⟨a, -, he⟩ := Option.map_eq_some_iff.mp hu
  rw [← (Prod.mk.inj he).1]
  exact isBlank_of_mem_takeWhile u

/-- The body of a script closes what it opens. -/
theorem closes_body : Closes (Bundle.body source) :=
  h.closes_withoutLists.of_nesting_eq (Marker.nesting_substitute_cut h.even_exportKeyword)

end IsEven

/-- Keywords of export syntax do not reach into a declaration: each word that declares has a letter
that does not stand in these keywords. -/
theorem DeclarationHead.IsWellFormed.misses_exportWord {α : Type} {p : Part α}
    (h : d.IsWellFormed) (hp : IsExportWord p.lexeme) : Marker.Misses d.text p := by
  have hwords : ∀ k ∈ declaringWords, 'c' ∈ k := by decide
  have hletter := hwords d.word h.word
  have hnot : 'c' ∉ p.lexeme := hp.not_mem (by decide) (by decide)
  refine ⟨fun hin ↦ hnot (hin.subset (List.mem_append_left _ hletter)), fun y hy hsuffix ↦ ?_⟩
  rcases List.prefix_or_prefix_of_prefix hy (List.prefix_append d.word _) with hpre | hpre
  · rcases List.eq_nil_or_concat y with rfl | ⟨y, c, rfl⟩
    · rfl
    · obtain ⟨z, hz⟩ := hsuffix
      rw [List.concat_eq_append] at hz hpre
      have hwhite := hp.ends c (by rw [← hz, ← List.append_assoc]; simp)
      have hname := h.isNameChar_of_mem_word c
        (hpre.subset (List.mem_append_right y List.mem_cons_self))
      rw [isWhite_of_isNameChar hname] at hwhite
      cases hwhite
  · exact absurd (hsuffix.subset (hpre.subset hletter)) hnot

/-- **Declarations stay.** A declaration in a script that closes what it opens is left in the body
of the script, surrounded by the same, if nothing that is removed reaches into it. -/
theorem IsEven.exists_body_eq {source : Text} (h : IsEven source) (hd : d.IsWellFormed)
    (hspares : Spares source d.text) (hsource : source = x ++ (d.text ++ r)) :
    ∃ x' r', Bundle.body source = x' ++ (d.text ++ r') ∧ nesting x' = nesting x := by
  have hdependency := h.even_dependency
  have hdefault := h.even_exportDefault
  have hlist := h.even_exportList
  have hkeyword := h.even_exportKeyword
  obtain ⟨x₁, r₁, h₁, hx₁⟩ : ∃ x₁ r₁, (detachLocal source).code = x₁ ++ (d.text ++ r₁) ∧
      nesting x₁ = nesting x := by
    have hmiss := hspares.statements
    rw [hsource] at hmiss hdependency
    rw [hsource]
    exact hd.exists_substitute_eq needsModuleWord_dependency? hmiss hdependency
  obtain ⟨x₂, r₂, h₂, hx₂⟩ : ∃ x₂ r₂, withoutDefaults source = x₂ ++ (d.text ++ r₂) ∧
      nesting x₂ = nesting x₁ := by
    rw [h₁] at hdefault
    rw [withoutDefaults, h₁]
    exact hd.exists_substitute_eq (needsModuleWord_of_needsKeyword needsKeyword_exportDefault?)
      (fun p hp ↦ hd.misses_exportWord (isExportWord_of_mem_exportDefault hp)) hdefault
  obtain ⟨x₃, r₃, h₃, hx₃⟩ : ∃ x₃ r₃, withoutLists source = x₃ ++ (d.text ++ r₃) ∧
      nesting x₃ = nesting x₂ := by
    have hmiss := hspares.lists
    rw [h₂] at hmiss hlist
    rw [withoutLists, h₂]
    exact hd.exists_substitute_eq (needsModuleWord_of_needsKeyword needsKeyword_exportList?) hmiss
      hlist
  obtain ⟨x₄, r₄, h₄, hx₄⟩ : ∃ x₄ r₄, Bundle.body source = x₄ ++ (d.text ++ r₄) ∧
      nesting x₄ = nesting x₃ := by
    rw [h₃] at hkeyword
    rw [body_eq, h₃]
    exact hd.exists_substitute_eq (needsModuleWord_of_needsKeyword needsKeyword_exportKeyword?)
      (fun p hp ↦ hd.misses_exportWord (isExportWord_of_mem_exportKeyword hp)) hkeyword
  exact ⟨x₄, r₄, h₄, hx₄.trans (hx₃.trans (hx₂.trans hx₁))⟩

/-! ## What is declared -/

/-- Behind the keyword `export` at the top, a declaration is at the top. -/
theorem Exports.exists_eq {source : Text} (h : Exports source d) :
    ∃ x r, source = x ++ (d.text ++ r) ∧ nesting x = .code 0 := by
  obtain ⟨x, w, r, hx, hne, hw, rfl⟩ := h
  have hletters : ∀ c ∈ "export".toList, c ∈ exportLetters := by decide
  have hword : IsExportWord ("export".toList ++ w) :=
    isExportWord_append (fun c hc ↦ .inr (hletters c hc)) hne hw
  refine ⟨x ++ ("export".toList ++ w), r, by simp only [List.append_assoc], ?_⟩
  rw [nesting_append, hx, hword.run_code]

namespace DeclarationHead.IsWellFormed

variable (h : d.IsWellFormed)

include h

theorem declares (hx : nesting x = .code 0) (r : Text) :
    Declares (x ++ (d.text ++ r)) d.name := by
  refine ⟨x, d.text ++ r, rfl, hx, ?_⟩
  rw [text_append]
  exact h.opensDeclaration_append fun c hc ↦ Option.some_inj.mp hc ▸ h.next

theorem stops_text (r : Text) : Stops isWhite (d.text ++ r) := by
  obtain ⟨c, k, hk⟩ := List.exists_cons_of_ne_nil h.word_ne_nil
  have hchars := h.isNameChar_of_mem_word
  rw [hk] at hchars
  rw [text_append, hk]
  exact stops_cons.mpr (isWhite_of_isNameChar (hchars c List.mem_cons_self))

theorem trimEnd_text (x r : Text) :
    trimEnd (x ++ (d.text ++ r)) =
      x ++ (d.word ++ (d.gap ++ (d.name ++ trimEnd (d.next :: r)))) := by
  obtain ⟨n, c, hn⟩ : ∃ n c, d.name = n ++ [c] := by
    rcases List.eq_nil_or_concat d.name with hnil | ⟨n, c, hn⟩
    · exact absurd hnil h.name.1
    · exact ⟨n, c, by rw [hn, List.concat_eq_append]⟩
  have hmem : c ∈ d.name := hn ▸ List.mem_append_right n List.mem_cons_self
  have hsplit : x ++ (d.text ++ r) = x ++ (d.word ++ (d.gap ++ n)) ++ c :: d.next :: r := by
    rw [text_append, hn]
    simp only [List.append_assoc, List.singleton_append]
  rw [hsplit, trimEnd_append_cons (isWhite_of_isNameChar (h.name.2 c hmem)), hn]
  simp only [List.append_assoc, List.singleton_append]

/-- Trimming a text leaves the beginning of a declaration, perhaps up to its name. -/
theorem exists_trim_eq (x r : Text) :
    ∃ r', trim (x ++ (d.text ++ r)) = trimStart x ++ r' ∧ opensDeclaration d.name r' = true := by
  rw [trim, trimStart_append_of_stops (h.stops_text r), h.trimEnd_text]
  refine ⟨_, rfl, h.opensDeclaration_append fun c hc ↦ ?_⟩
  have hpre : trimEnd (d.next :: r) <+: d.next :: r := List.rdropWhile_prefix isWhite _
  obtain ⟨z, hz⟩ := List.head?_eq_some_iff.mp hc
  rw [hz] at hpre
  rw [(List.cons_prefix_cons.mp hpre).1, h.next]

/-- Trimming a text leaves what it declares. -/
theorem declares_trim (hx : nesting x = .code 0) (r : Text) :
    Declares (trim (x ++ (d.text ++ r))) d.name := by
  have hstart : nesting (trimStart x) = .code 0 := by
    have hwhite : ∀ c ∈ x.takeWhile isWhite, isWhite c = true :=
      List.all_eq_true.mp List.all_takeWhile
    rwa [← List.takeWhile_append_dropWhile (p := isWhite) (l := x), nesting_append, nesting,
      Nesting.run_white hwhite] at hx
  obtain ⟨r', htrim, hopens⟩ := h.exists_trim_eq x r
  exact ⟨trimStart x, r', htrim, hstart, hopens⟩

/-- What a text declares it still holds when it is trimmed. -/
theorem holdsDeclaration_trim (ht : d.text <:+: t) : HoldsDeclaration (trim t) d.name := by
  obtain ⟨x, r, rfl⟩ := ht
  obtain ⟨r', htrim, hopens⟩ := h.exists_trim_eq x r
  rw [List.append_assoc, htrim]
  exact ⟨r', List.suffix_append _ _, hopens⟩

end DeclarationHead.IsWellFormed

end Script

end PluginPack
