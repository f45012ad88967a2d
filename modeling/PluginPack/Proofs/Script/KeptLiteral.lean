import PluginPack.Bundle.Basic
import PluginPack.Proofs.Script.Reach
import PluginPack.Script.Literal

/-!
# Literals stay

What becomes of the string literals and template literals of a script when module syntax is removed
from it. The passes look at the beginnings of lines and not at what a line belongs to, so they take
text out of a literal of more than one line, too. Where no line inside of a literal is taken for
module syntax, and no removed statement reaches over a literal that is not its specifier, all
literals but the specifiers of removed statements are kept, in their order.
-/

namespace PluginPack

open Text

/-! ## Keywords -/

namespace Text

variable {k t v : Text} {c : Char}

theorem keyword?_eq_none_iff :
    keyword? k t = none ↔ ∀ d, isWhite d = true → ¬k ++ [d] <+: t := by
  constructor
  · rintro h d hd ⟨u, rfl⟩
    rw [List.append_assoc, List.singleton_append, keyword?, word?_append, Option.bind_some, white?,
      some?, if_pos hd] at h
    cases h
  · intro h
    rw [Option.eq_none_iff_forall_ne_some]
    intro r hr
    obtain ⟨w, hne, hw, -, rfl⟩ := exists_of_keyword?_eq_some hr
    obtain ⟨d, w, rfl⟩ := List.exists_cons_of_ne_nil hne
    exact h d (hw d List.mem_cons_self) ⟨w ++ r, by simp⟩

/-- Whether a line begins with a keyword is decided before a character that is neither white nor
stands in the keyword. -/
theorem keyword?_append_cons_eq_none (hwhite : isWhite c = false) (hk : c ∉ k) (r r' : Text)
    (h : keyword? k ((v ++ c :: r).dropWhile isBlank) = none) :
    keyword? k ((v ++ c :: r').dropWhile isBlank) = none := by
  have hblank : isBlank c = false := by
    by_contra hc
    rw [isWhite_of_isBlank (by simpa using hc)] at hwhite
    cases hwhite
  rw [keyword?_eq_none_iff] at h ⊢
  intro d hd
  have hkd : c ∉ k ++ [d] := by
    rw [List.mem_append, List.mem_singleton, not_or]
    refine ⟨hk, ?_⟩
    rintro rfl
    exact absurd (hd.symm.trans hwhite) (by decide)
  exact (opens_append_cons hblank hkd).not.mpr ((opens_append_cons hblank hkd).not.mp (h d hd))

/-- Whatever follows, no line that begins in the text begins with a keyword and white space. -/
structure NeverOpens (k l : Text) : Prop where
  ne_nil : l ≠ []
  first : ∀ r, keyword? k ((l ++ r).dropWhile isBlank) = none
  below : ∀ u v, l = u ++ '\n' :: v → ∀ r, keyword? k ((v ++ r).dropWhile isBlank) = none

end Text

namespace Marker

variable {α : Type} {step : Text → Option (α × Text)}
  {hstep : ∀ {t a r}, step t = some (a, r) → r <:+ t ∧ r.length < t.length}
  {before : Option Char} {k t : Text}

theorem beginsLine_of_find?_ofLine {q : α × Text}
    (h : (ofLine step hstep).find? before t = some q) : beginsLine before = true := by
  by_contra hb
  rw [find?_ofLine_eq_none fun hb' ↦ absurd hb' hb] at h
  cases h

theorem NeedsKeyword.cutFrom_append (hk : NeedsKeyword step k) {l : Text} (hl : NeverOpens k l)
    (r : Text) :
    (ofLine step hstep).cutFrom before (l ++ r) =
      ((ofLine step hstep).cutFrom l.getLast? r).prepend l :=
  cutFrom_ofLine_append hl.ne_nil (fun _ ↦ hk _ (hl.first r)) fun u v huv _ ↦
    hk _ (hl.below u v huv r)

end Marker

/-- Texts that go through a pass are still there behind it, if every part that is found misses
them. -/
theorem Holds.substitute {α : Type} {step : Text → Option (α × Text)}
    {hstep : ∀ {t a r}, step t = some (a, r) → r <:+ t ∧ r.length < t.length} {k t : Text}
    (hk : Marker.NeedsKeyword step k) (f : Part α → Text) {ls : List Text}
    (hls : ∀ l ∈ ls, NeverOpens k l) (h : Holds ls t) {before : Option Char}
    (hmiss : ∀ p ∈ ((Marker.ofLine step hstep).cutFrom before t).parts, ∀ l ∈ ls,
      Marker.Misses l p) :
    Holds ls (((Marker.ofLine step hstep).cutFrom before t).substitute f) := by
  induction h generalizing before with
  | nil t => exact .nil _
  | @cons l t ls a h ih =>
    have hpass : ∀ b, (Marker.ofLine step hstep).cutFrom b (l ++ t) =
        ((Marker.ofLine step hstep).cutFrom l.getLast? t).prepend l :=
      fun b ↦ hk.cutFrom_append (hls l List.mem_cons_self) t
    obtain ⟨⟨a', ha'⟩, hsub⟩ := Marker.exists_substitute_cutFrom_append f List.prefix_rfl hpass a
      fun p hp ↦ hmiss p hp l List.mem_cons_self
    rw [ha']
    exact .cons a' (ih (fun m hm ↦ hls m (List.mem_cons_of_mem l hm))
      fun p hp m hm ↦ hmiss p (hsub hp) m (List.mem_cons_of_mem l hm))

namespace Script

/-! ## Literals and statements in their places -/

/-- The string literals and template literals of a script. -/
def literalSpans (source : Text) : List (Span Text) :=
  (inert.spans source).filter fun l ↦ l.text.head?.any isQuote

/-- The dependency statements that are removed from a script. -/
def localSpans (source : Text) : List (Span Text) :=
  (dependency.spans source).filter fun s ↦ isLocalSpecifier s.part.value

/-- Where the specifier of a statement begins, with its quote: behind it stands nothing but what may
close the line. -/
def specifierOffset (s : Span Text) : Nat :=
  s.offset + ((s.text.rdropWhile (· ∈ closers)).length - (s.part.value.length + 2))

/-- The literals of a script that are not the specifiers of removed statements. -/
def keptSpans (source : Text) : List (Span Text) :=
  (literalSpans source).filter fun l ↦
    (localSpans source).all fun s ↦ l.offset != specifierOffset s

def keptLiterals (source : Text) : List Text := (keptSpans source).map Span.text

/-- A literal that ends in the quote that it begins with. -/
def IsClosed (l : Text) : Prop := 2 ≤ l.length ∧ l.getLast? = l.head?

instance (l : Text) : Decidable (IsClosed l) := inferInstanceAs (Decidable (_ ∧ _))

theorem IsClosed.getLast?_eq {q : Char} {t : Text} (h : IsClosed (q :: t)) :
    t.getLast? = some q := by
  obtain ⟨hlength, hlast⟩ := h
  obtain ⟨d, u, rfl⟩ := List.exists_cons_of_length_pos (Nat.lt_of_succ_lt_succ hlength)
  rwa [List.getLast?_cons_cons, List.head?_cons] at hlast

/-- Whether text at the beginning of a line is taken for syntax that is removed: a local statement
or the keyword `export`. -/
def readsSyntax (t : Text) : Bool :=
  (dependency? t).any (fun p ↦ isLocalSpecifier p.1) ||
    (keyword? "export".toList (t.dropWhile isBlank)).isSome

/-- A script with literals from which module syntax can be told by the beginnings of lines. -/
structure IsTidy (source : Text) : Prop where
  /-- Every literal is closed. -/
  closed : ∀ l ∈ literalSpans source, IsClosed l.text
  /-- No line that begins inside of a literal is taken for module syntax. -/
  unread : ∀ l ∈ literalSpans source, ∀ i < l.text.length, l.text[i]? = some '\n' →
    readsSyntax (source.drop (l.offset + i + 1)) = false
  /-- A literal that begins inside of a removed statement begins where its specifier does. -/
  statements : ∀ s ∈ localSpans source, ∀ l ∈ literalSpans source,
    s.offset ≤ l.offset → l.offset < s.ends → l.offset = specifierOffset s
  /-- No list of exports that is removed holds a literal, or ends in the beginning of one. -/
  lists : ∀ p ∈ exportList.findAll (exportDefault.replace id (detachLocal source).code),
    ∀ l ∈ keptLiterals source, Marker.Misses l p

variable {source r s z : Text} {q q' : Char} {l st : Span Text}

theorem eq_of_isQuote (hq : isQuote q = true) : q = '"' ∨ q = '\'' ∨ q = '\x60' := by
  simpa [isQuote, or_assoc] using hq

/-- A literal is read off from its quote on. -/
theorem exists_of_mem_literalSpans (h : l ∈ literalSpans source) :
    ∃ a q t r, source = a ++ (l.text ++ r) ∧ l.offset = a.length ∧ isQuote q = true ∧
      l.text ++ r = q :: t ∧ l.text = q :: (splitQuoted q t).1 := by
  obtain ⟨hspan, hquote⟩ := List.mem_filter.mp h
  obtain ⟨a, r, hsource, ho, hfind⟩ := Marker.exists_find?_of_mem_spans hspan
  have hfind : inert? (l.text ++ r) = some (l.part.value, r) := hfind
  cases hl : l.text with
  | nil =>
    rw [hl] at hquote
    cases hquote
  | cons q m =>
    rw [hl] at hquote hsource hfind
    have hq : isQuote q = true := hquote
    refine ⟨a, q, m ++ r, r, hsource, ho, hq, rfl, ?_⟩
    have hlexeme := List.append_cancel_right (inert?_append hfind)
    rw [List.cons_append, inert?_of_isQuote hq, Option.some_inj] at hfind
    rw [← hlexeme, ← (Prod.mk.inj hfind).1]

theorem exists_of_mem_localSpans (h : st ∈ localSpans source) :
    ∃ a r, source = a ++ (st.text ++ r) ∧ st.offset = a.length ∧
      Marker.beginsLine a.getLast? = true ∧
      dependency? (st.text ++ r) = some (st.part.value, r) ∧
      isLocalSpecifier st.part.value = true := by
  obtain ⟨hspan, hlocal⟩ := List.mem_filter.mp h
  obtain ⟨a, r, hsource, ho, hfind⟩ := Marker.exists_find?_of_mem_spans hspan
  exact ⟨a, r, hsource, ho, Marker.beginsLine_of_find?_ofLine hfind,
    Marker.of_find?_ofLine hfind, hlocal⟩

/-! ## A specifier and its literal -/

/-- A literal that is not closed on its line does not end in its quote. -/
theorem not_mem_splitQuoted {w : Text} (hw : ∀ c ∈ w, c ∈ closers) (hend : EndsLine w r)
    (hq : isSpecifierQuote q = true) : q ∉ (splitQuoted q (w ++ r)).1 := by
  have hclosers : ∀ c ∈ closers, c ≠ '\\' ∧ isSpecifierQuote c = false := by decide
  have hquote : q ≠ '\x60' := by
    rintro rfl
    cases hq
  induction w with
  | nil =>
    rw [hend.resolve_left (by simp)]
    exact List.not_mem_nil
  | cons c w ih =>
    obtain ⟨hslash, hother⟩ := hclosers c (hw c List.mem_cons_self)
    by_cases hc : c = '\n'
    -- The reading stops at a newline.
    · rw [hc, List.cons_append, splitQuoted, if_pos ⟨rfl, hquote⟩]
      · exact List.not_mem_nil
      · rintro ⟨⟩
      · rintro _ _ ⟨⟩
    · have hcq : c ≠ q := by
        rintro rfl
        rw [hq] at hother
        cases hother
      have hend' : EndsLine w r := by
        by_cases hw' : w = []
        · subst hw'
          exact .inr (hend.resolve_left fun hlast ↦ hc (Option.some_inj.mp hlast))
        · exact EndsLine.of_suffix (u := [c]) hend hw'
      rw [List.cons_append, splitQuoted_cons hslash hc hcq, List.mem_cons, not_or]
      exact ⟨hcq.symm, ih (fun d hd ↦ hw d (List.mem_cons_of_mem c hd)) hend'⟩

theorem getLast?_cons_eq_some {c : Char} {t : Text} (h : (c :: t).getLast? = some q)
    (hc : c ≠ q) : t.getLast? = some q := by
  cases t with
  | nil => exact absurd (Option.some_inj.mp h) hc
  | cons d t => rwa [List.getLast?_cons_cons] at h

theorem ne_of_isSpecifierQuote (hq : isSpecifierQuote q = true) : q ≠ '\\' ∧ q ≠ '\n' := by
  constructor <;> rintro rfl <;> cases hq

theorem ne_of_isSpecifierChar {c : Char} (hc : isSpecifierChar c = true)
    (hq : isSpecifierQuote q = true) : c ≠ '\n' ∧ c ≠ q := by
  simp only [isSpecifierChar, Bool.and_eq_true, bne_iff_ne] at hc
  refine ⟨hc.2, ?_⟩
  rintro rfl
  simp only [isSpecifierQuote, Bool.or_eq_true, beq_iff_eq] at hq
  exact hq.elim hc.1.1 hc.1.2

/-- A closed literal that begins where a specifier does ends with it. -/
theorem splitQuoted_specifier (hq : isSpecifierQuote q = true) (hq' : isSpecifierQuote q' = true)
    (hs : ∀ c ∈ s, isSpecifierChar c = true) (hz : q ∉ (splitQuoted q z).1)
    (h : (splitQuoted q (s ++ q' :: z)).1.getLast? = some q) :
    (splitQuoted q (s ++ q' :: z)).1 = s ++ [q] := by
  obtain ⟨hslash, hnewline⟩ := ne_of_isSpecifierQuote hq
  obtain ⟨hslash', hnewline'⟩ := ne_of_isSpecifierQuote hq'
  have hchar : ∀ c ∈ s, c ≠ '\n' ∧ c ≠ q := fun c hc ↦ ne_of_isSpecifierChar (hs c hc) hq
  -- The cases are those of the reading: a backslash takes the next character along.
  fun_induction splitQuoted q s with
  | case1 =>
    by_cases heq : q' = q
    · rw [heq, List.nil_append, splitQuoted_self hslash hnewline]
      rfl
    · rw [List.nil_append, splitQuoted_cons hslash' hnewline' heq] at h
      exact absurd (List.mem_of_getLast? (getLast?_cons_eq_some h heq)) hz
  | case2 =>
    rw [List.cons_append, List.nil_append, splitQuoted] at h ⊢
    have h := getLast?_cons_eq_some h hslash.symm
    by_cases heq : q' = q
    · cases hnil : (splitQuoted q z).1 with
      | nil => rw [heq]; rfl
      | cons d t =>
        rw [hnil, List.getLast?_cons_cons] at h
        exact absurd (hnil ▸ List.mem_of_getLast? h) hz
    · exact absurd (List.mem_of_getLast? (getLast?_cons_eq_some h heq)) hz
  | case3 c s _ ih =>
    have hsub : ∀ d ∈ s, d ∈ '\\' :: c :: s :=
      fun d hd ↦ List.mem_cons_of_mem _ (List.mem_cons_of_mem _ hd)
    rw [List.cons_append, List.cons_append, splitQuoted] at h ⊢
    have h := getLast?_cons_eq_some (getLast?_cons_eq_some h hslash.symm)
      (hchar c (List.mem_cons_of_mem _ List.mem_cons_self)).2
    rw [ih (fun d hd ↦ hs d (hsub d hd)) h fun d hd ↦ hchar d (hsub d hd)]
    rfl
  | case4 c s _ _ hc => exact absurd hc.1 (hchar c List.mem_cons_self).1
  | case5 s => exact absurd rfl (hchar q List.mem_cons_self).2
  | case6 c s hnil hcons _ hcq _ ih =>
    have hc : c ≠ '\\' := by
      cases s with
      | nil => exact fun heq ↦ hnil heq rfl
      | cons d s => exact fun heq ↦ hcons d s heq rfl
    rw [List.cons_append, splitQuoted_cons hc (hchar c List.mem_cons_self).1 hcq] at h ⊢
    have hsub : ∀ d ∈ s, d ∈ c :: s := fun d hd ↦ List.mem_cons_of_mem c hd
    rw [ih (fun d hd ↦ hs d (hsub d hd)) (getLast?_cons_eq_some h hcq)
      fun d hd ↦ hchar d (hsub d hd)]
    rfl

/-- The specifier of a statement, where it is looked for. -/
theorem specifierOffset_eq {x v : Text} (hq' : isSpecifierQuote q' = true)
    (hv : ∀ c ∈ v, c ∈ closers)
    (htext : st.text = x ++ q :: (st.part.value ++ q' :: v)) :
    specifierOffset st = st.offset + x.length := by
  have hother : q' ∉ closers := by
    intro hmem
    have hclosers : ∀ c ∈ closers, isSpecifierQuote c = false := by decide
    rw [hclosers q' hmem] at hq'
    cases hq'
  have hdrop : st.text.rdropWhile (· ∈ closers) = x ++ q :: st.part.value ++ [q'] := by
    have hsplit : st.text = x ++ q :: st.part.value ++ [q'] ++ v := by
      rw [htext]
      simp only [List.append_assoc, List.cons_append, List.nil_append]
    have hv' : ∀ c ∈ v.reverse, decide (c ∈ closers) = true :=
      fun c hc ↦ decide_eq_true (hv c (List.mem_reverse.mp hc))
    rw [hsplit, List.rdropWhile, List.reverse_append, List.dropWhile_append_of_pos hv',
      ← List.rdropWhile, List.rdropWhile_concat_neg _ _ _ (by simpa using hother)]
  rw [specifierOffset, hdrop]
  simp only [List.length_append, List.length_cons, List.length_nil]
  omega

/-- A closed literal that begins where the specifier of a removed statement does is this specifier
in its quotes. -/
theorem text_eq_of_offset_eq (hst : st ∈ localSpans source) (hl : l ∈ literalSpans source)
    (hclosed : IsClosed l.text) (ho : l.offset = specifierOffset st) :
    ∃ q, isSpecifierQuote q = true ∧ l.text = q :: (st.part.value ++ [q]) := by
  obtain ⟨a, q₀, t, r₀, hsource₀, ho₀, -, hread, htext⟩ := exists_of_mem_literalSpans hl
  obtain ⟨b, r, hsource, hb, -, hfind, -⟩ := exists_of_mem_localSpans hst
  obtain ⟨x, q, q', v, hst', hq, hq', hchars, hv, hend⟩ := (names_of_dependency? hfind).exists_eq
  rw [specifierOffset_eq hq' hv hst', ho₀, hb, ← List.length_append] at ho
  rw [hsource, hst'] at hsource₀
  have hplace : b ++ x ++ q :: (st.part.value ++ q' :: (v ++ r)) = a ++ (l.text ++ r₀) := by
    rw [← hsource₀]
    simp only [List.append_assoc, List.cons_append]
  obtain ⟨-, hrest⟩ := List.append_inj hplace ho.symm
  rw [hread] at hrest
  obtain ⟨rfl, rfl⟩ := List.cons.inj hrest
  rw [htext] at hclosed
  refine ⟨q, hq, ?_⟩
  rw [htext, splitQuoted_specifier hq hq' hchars (not_mem_splitQuoted hv hend hq)
    hclosed.getLast?_eq]

/-! ## Literals and removed statements keep apart -/

namespace IsTidy

variable (h : IsTidy source)

include h

/-- What is said of the lines in a literal, for a literal that is split at a newline. -/
theorem readsSyntax_eq_false {a u v : Text} (hl : l ∈ literalSpans source)
    (hsource : source = a ++ (l.text ++ r)) (ho : l.offset = a.length)
    (htext : l.text = u ++ '\n' :: v) : readsSyntax (v ++ r) = false := by
  have hdrop : source.drop (l.offset + u.length + 1) = v ++ r := by
    have hsplit : source = a ++ u ++ ['\n'] ++ (v ++ r) := by
      rw [hsource, htext]
      simp only [List.append_assoc, List.cons_append, List.nil_append]
    rw [hsplit, ho]
    exact List.drop_left' (by simp [Nat.add_assoc])
  rw [← hdrop]
  refine h.unread l hl u.length ?_ ?_
  · rw [htext, List.length_append, List.length_cons]
    omega
  · rw [htext, List.getElem?_append_right (Nat.le_refl _), Nat.sub_self, List.getElem?_cons_zero]

/-- No statement that is removed begins inside of a literal. -/
theorem not_begins_inside (hst : st ∈ localSpans source) (hl : l ∈ literalSpans source)
    (hlt : l.offset < st.offset) : l.ends ≤ st.offset := by
  by_contra hends
  obtain ⟨a, q, t, r₀, hsource₀, ho₀, -, -, -⟩ := exists_of_mem_literalSpans hl
  obtain ⟨b, r, hsource, hb, hbegins, hfind, hlocal⟩ := exists_of_mem_localSpans hst
  rw [Span.ends] at hends
  have hpre : a <+: b := List.prefix_of_prefix_length_le ⟨_, hsource₀.symm⟩ ⟨_, hsource.symm⟩
    (by omega)
  obtain ⟨u, rfl⟩ := hpre
  have hrest : l.text ++ r₀ = u ++ (st.text ++ r) := by
    rw [hsource₀, List.append_assoc, List.append_cancel_left_eq] at hsource
    exact hsource
  rw [List.length_append] at hb
  have hpre : u <+: l.text := List.prefix_of_prefix_length_le ⟨_, hrest.symm⟩
    (List.prefix_append _ _) (by omega)
  obtain ⟨v, hv⟩ := hpre
  rcases List.eq_nil_or_concat u with rfl | ⟨u, c, rfl⟩
  · simp only [List.length_nil] at hb
    omega
  · have hc : c = '\n' := by
      rw [List.concat_eq_append, ← List.append_assoc, List.getLast?_concat] at hbegins
      simpa [Marker.beginsLine] using hbegins
    have htext : l.text = u ++ '\n' :: v := by
      rw [← hv, hc, List.concat_eq_append, List.append_assoc, List.singleton_append]
    have hread := h.readsSyntax_eq_false hl hsource₀ ho₀ htext
    rw [← hv, List.append_assoc, List.append_cancel_left_eq] at hrest
    rw [hrest, readsSyntax, hfind, Option.any_some, hlocal, Bool.true_or] at hread
    cases hread

/-- A literal keeps apart from a removed statement, or is its specifier. -/
theorem apart_or_specifier (hst : st ∈ localSpans source) (hl : l ∈ literalSpans source) :
    l.Apart st ∨ l.offset = specifierOffset st ∧
      ∃ q, isSpecifierQuote q = true ∧ l.text = q :: (st.part.value ++ [q]) := by
  by_cases hlt : l.offset < st.offset
  · exact .inl (.inl (h.not_begins_inside hst hl hlt))
  · by_cases hbehind : st.ends ≤ l.offset
    · exact .inl (.inr hbehind)
    · have ho := h.statements st hst l hl (Nat.le_of_not_lt hlt) (Nat.lt_of_not_le hbehind)
      exact .inr ⟨ho, text_eq_of_offset_eq hst hl (h.closed l hl) ho⟩

/-- Removing the local statements leaves all other literals. -/
theorem holds_detachLocal : Holds (keptLiterals source) (detachLocal source).code := by
  have hlies : Lies 0 (keptSpans source) source := ((Lies.spans inert source).filter _).filter _
  have hcut : Lies 0 (keptSpans source) ((dependency.cut source).substitute Part.lexeme) := by
    rwa [Marker.cut, dependency.substitute_lexeme_cutFrom]
  refine hcut.holds_substitute (f := keepForeign) (fun p ↦ ?_) fun st hst hgone l hl ↦ ?_
  · rw [keepForeign]
    split
    · exact .inr rfl
    · exact .inl rfl
  · have hlocal : isLocalSpecifier st.part.value = true := by
      by_contra hforeign
      exact hgone (if_neg hforeign)
    have hst : st ∈ localSpans source := List.mem_filter.mpr ⟨hst, hlocal⟩
    obtain ⟨hl, hkept⟩ := List.mem_filter.mp hl
    have hother := List.all_eq_true.mp hkept st hst
    exact (h.apart_or_specifier hst hl).resolve_right fun hspec ↦ (bne_iff_ne.mp hother) hspec.1

/-- Outside of its first line, nothing in a literal is taken for the keyword `export`, and the quote
at its beginning is not. -/
theorem neverOpens (hl : l ∈ literalSpans source) : NeverOpens "export".toList l.text := by
  obtain ⟨a, q, t, r₀, hsource, ho, hq, -, htext⟩ := exists_of_mem_literalSpans hl
  have hquote := eq_of_isQuote hq
  have hlast : l.text.getLast? = some q := by
    rw [(h.closed l hl).2, htext, List.head?_cons]
  refine ⟨by rw [htext]; exact List.cons_ne_nil _ _, fun r ↦ ?_, fun u v huv r ↦ ?_⟩
  · rw [htext]
    rcases hquote with rfl | rfl | rfl <;> rfl
  · have hnewline : q ≠ '\n' := by rcases hquote with rfl | rfl | rfl <;> decide
    have hwhite : isWhite q = false := by rcases hquote with rfl | rfl | rfl <;> decide
    have hletter : q ∉ "export".toList := by rcases hquote with rfl | rfl | rfl <;> decide
    -- The quote at the end of the literal lies behind the newline, and stops any keyword.
    have hv : v ≠ [] := by
      rintro rfl
      rw [huv, List.getLast?_concat] at hlast
      exact hnewline (Option.some_inj.mp hlast).symm
    have hread := h.readsSyntax_eq_false hl hsource ho huv
    rw [readsSyntax, Bool.or_eq_false_iff, Option.isSome_eq_false_iff, Option.isNone_iff_eq_none]
      at hread
    rw [huv, ← List.singleton_append, ← List.append_assoc, List.getLast?_append_of_ne_nil _ hv]
      at hlast
    obtain ⟨v', rfl⟩ := List.getLast?_eq_some_iff.mp hlast
    rw [List.append_assoc, List.singleton_append] at hread ⊢
    exact keyword?_append_cons_eq_none hwhite hletter r₀ r hread.2

end IsTidy

/-! ## Literals go through the passes -/

theorem misses_of_no_quote {α : Type} {p : Part α} (hp : ∀ c ∈ p.lexeme, isQuote c = false)
    (hl : l ∈ literalSpans source) : Marker.Misses l.text p := by
  obtain ⟨a, q, t, r, -, -, hq, -, htext⟩ := exists_of_mem_literalSpans hl
  rw [htext]
  refine Marker.misses_of_not_mem fun hmem ↦ ?_
  exact absurd (hq.symm.trans (hp q hmem)) (by decide)

theorem IsExportWord.isQuote_eq_false {t : Text} (h : IsExportWord t) :
    ∀ c ∈ t, isQuote c = false := by
  intro c hc
  by_contra hq
  refine absurd hc ?_
  rcases eq_of_isQuote (by simpa using hq) with rfl | rfl | rfl <;>
    exact h.not_mem (by decide) (by decide)

/-- **Literals stay.** In a tidy script every literal but the specifiers of removed statements is
left as it is by the removal of module syntax, and the literals keep their order. The specifiers are
those of the removed statements, and none of these lies in a literal: a literal keeps apart from the
statement or is its specifier in quotes. -/
theorem holds_keptLiterals_body (h : IsTidy source) :
    Holds (keptLiterals source) (Bundle.body source) ∧
      (detachLocal source).specifiers =
        ((localSpans source).map fun st ↦ st.part.value).eraseDups ∧
      ∀ st ∈ localSpans source, ∀ l ∈ literalSpans source, l.Apart st ∨
        l.offset = specifierOffset st ∧
          ∃ q, isSpecifierQuote q = true ∧ l.text = q :: (st.part.value ++ [q]) := by
  have hliteral : ∀ m ∈ keptLiterals source, ∃ l ∈ literalSpans source, l.text = m := by
    intro m hm
    obtain ⟨l, hl, rfl⟩ := List.mem_map.mp hm
    exact ⟨l, (List.mem_filter.mp hl).1, rfl⟩
  have hnever : ∀ m ∈ keptLiterals source, NeverOpens "export".toList m := by
    intro m hm
    obtain ⟨l, hl, rfl⟩ := hliteral m hm
    exact h.neverOpens hl
  have hmiss : ∀ (p : Part Text), IsExportWord p.lexeme →
      ∀ m ∈ keptLiterals source, Marker.Misses m p := by
    intro p hp m hm
    obtain ⟨l, hl, rfl⟩ := hliteral m hm
    exact misses_of_no_quote hp.isQuote_eq_false hl
  have hdefault : Holds (keptLiterals source)
      (exportDefault.replace id (detachLocal source).code) :=
    h.holds_detachLocal.substitute needsKeyword_exportDefault? _ hnever
      fun p hp ↦ hmiss p (isExportWord_of_mem_exportDefault hp)
  have hlist : Holds (keptLiterals source)
      (exportList.erase (exportDefault.replace id (detachLocal source).code)) :=
    hdefault.substitute needsKeyword_exportList? (fun _ ↦ []) hnever h.lists
  refine ⟨?_, ?_, fun st hst l hl ↦ h.apart_or_specifier hst hl⟩
  · exact hlist.substitute needsKeyword_exportKeyword? _ hnever
      fun p hp ↦ hmiss p (isExportWord_of_mem_exportKeyword hp)
  · have hparts : (dependency.cut source).parts = (dependency.spans source).map Span.part :=
      (Marker.map_part_spans dependency source).symm
    simp only [detachLocal, localSpans, hparts, List.map_map, List.filter_map, Function.comp_def]

/-! ## Which scripts are tidy -/

theorem isQuote_eq_false_of_mem_closers {c : Char} (h : c ∈ closers) : isQuote c = false := by
  have hclosers : ∀ c ∈ closers, isQuote c = false := by decide
  exact hclosers c h

theorem isQuote_of_isSpecifierQuote (h : isSpecifierQuote q = true) : isQuote q = true := by
  rw [isQuote]
  exact Bool.or_eq_true_iff.mpr (.inl h)

/-- Two places in a text, the second of which holds a character that does not stand in front of the
first. -/
theorem eq_or_exists_of_append_cons_eq {x y u w : Text} {c d : Char}
    (h : x ++ c :: u = y ++ d :: w) (hd : d ∉ x) :
    x = y ∨ ∃ y', y = x ++ c :: y' ∧ u = y' ++ d :: w := by
  rcases List.append_eq_append_iff.mp h with ⟨y', rfl, hu⟩ | ⟨x', rfl, hx⟩
  · cases y' with
    | nil => exact .inl (List.append_nil x).symm
    | cons e y' =>
      obtain ⟨rfl, rfl⟩ := List.cons.inj hu
      exact .inr ⟨y', rfl, rfl⟩
  · cases x' with
    | nil => exact .inl (List.append_nil y)
    | cons e x' =>
      obtain ⟨rfl, -⟩ := List.cons.inj hx
      exact absurd (List.mem_append_right y List.mem_cons_self) hd

/-- In a statement without other quotes than those of its specifier a closed literal begins with the
specifier. -/
theorem offset_eq_of_countP (hst : st ∈ localSpans source) (hl : l ∈ literalSpans source)
    (hclosed : IsClosed l.text) (hquotes : st.text.countP isQuote = 2)
    (hle : st.offset ≤ l.offset) (hlt : l.offset < st.ends) : l.offset = specifierOffset st := by
  obtain ⟨a, q₀, t, r₀, hsource₀, ho₀, hq₀, hread, htext⟩ := exists_of_mem_literalSpans hl
  obtain ⟨b, r, hsource, hb, -, hfind, -⟩ := exists_of_mem_localSpans hst
  obtain ⟨x, q, q', v, hst', hq, hq', hchars, hv, hend⟩ := (names_of_dependency? hfind).exists_eq
  rw [specifierOffset_eq hq' hv hst', hb]
  obtain ⟨y, rfl⟩ : b <+: a := List.prefix_of_prefix_length_le ⟨_, hsource.symm⟩
    ⟨_, hsource₀.symm⟩ (by omega)
  have hplace : st.text ++ r = y ++ q₀ :: t := by
    rw [hsource₀, hread, List.append_assoc, List.append_cancel_left_eq] at hsource
    exact hsource.symm
  rw [hst', List.countP_append, List.countP_cons_of_pos (isQuote_of_isSpecifierQuote hq),
    List.countP_append, List.countP_cons_of_pos (isQuote_of_isSpecifierQuote hq')] at hquotes
  have hx : q₀ ∉ x := fun hmem ↦ by
    have := List.countP_pos_iff.mpr ⟨q₀, hmem, hq₀⟩
    omega
  have hvalue : q₀ ∉ st.part.value := fun hmem ↦ by
    have := List.countP_pos_iff.mpr ⟨q₀, hmem, hq₀⟩
    omega
  have hcloser : q₀ ∉ v := fun hmem ↦ by
    rw [isQuote_eq_false_of_mem_closers (hv q₀ hmem)] at hq₀
    cases hq₀
  rw [hst'] at hplace
  simp only [List.append_assoc, List.cons_append] at hplace
  rw [ho₀, List.length_append]
  -- The literal begins at the first quote, at the second one, or behind both.
  rcases eq_or_exists_of_append_cons_eq hplace hx with rfl | ⟨y, rfl, hbehind⟩
  · rfl
  rcases eq_or_exists_of_append_cons_eq hbehind hvalue with hy | ⟨y, rfl, hclosing⟩
  -- Behind the second quote there is none on the line.
  · rw [hy, List.append_cancel_left_eq] at hbehind
    obtain ⟨rfl, rfl⟩ := List.cons.inj hbehind
    rw [htext] at hclosed
    exact absurd (List.mem_of_getLast? hclosed.getLast?_eq) (not_mem_splitQuoted hv hend hq')
  · rw [Span.ends, hst', ho₀, hb] at hlt
    simp only [List.length_append, List.length_cons] at hlt
    have hpre : y ++ [q₀] <+: v := by
      refine List.prefix_of_prefix_length_le ⟨t, ?_⟩ (List.prefix_append v r) ?_
      · rw [hclosing, List.append_assoc, List.singleton_append]
      · rw [List.length_append, List.length_singleton]
        omega
    exact absurd (hpre.subset (List.mem_append_right y List.mem_cons_self)) hcloser

/-- Quotes tell that a script is tidy: the removed statements have none but those of their
specifiers, and the removed lists of exports have none. -/
theorem IsTidy.of_quotes (hclosed : ∀ l ∈ literalSpans source, IsClosed l.text)
    (hunread : ∀ l ∈ literalSpans source, ∀ i < l.text.length, l.text[i]? = some '\n' →
      readsSyntax (source.drop (l.offset + i + 1)) = false)
    (hstatements : ∀ st ∈ localSpans source, st.text.countP isQuote = 2)
    (hlists : ∀ p ∈ exportList.findAll (exportDefault.replace id (detachLocal source).code),
      ∀ c ∈ p.lexeme, isQuote c = false) : IsTidy source where
  closed := hclosed
  unread := hunread
  statements st hst l hl := offset_eq_of_countP hst hl (hclosed l hl) (hstatements st hst)
  lists p hp m hm := by
    obtain ⟨l, hl, rfl⟩ := List.mem_map.mp hm
    exact misses_of_no_quote (hlists p hp) (List.mem_filter.mp hl).1

/-- A script with a local import, a template literal of several lines and a list of exports. -/
def exportsLine : Text :=
  "import \x7ba\x7d from \"./a.js\";\n".toList ++
    "const t = \x60\nexports.a = 'a';\n\x60; // it's a\n".toList ++
    "export \x7bt\x7d;\n".toList

theorem holds_keptLiterals_exportsLine :
    keptLiterals exportsLine = ["\x60\nexports.a = 'a';\n\x60".toList] ∧
      Holds (keptLiterals exportsLine) (Bundle.body exportsLine) ∧
      (detachLocal exportsLine).specifiers = ["./a.js".toList] := by
  have htidy : IsTidy exportsLine := .of_quotes (by decide +kernel) (by decide +kernel)
    (by decide +kernel) (by decide +kernel)
  refine ⟨by decide +kernel, (holds_keptLiterals_body htidy).1, by decide +kernel⟩

/-- Text in a literal is taken for module syntax: a keyword goes out of one literal, and a specifier
comes from inside of another. -/
theorem not_forall_literals_kept :
    (¬∀ source, (∀ l ∈ literalSpans source, IsClosed l.text) →
        Holds (keptLiterals source) (Bundle.body source)) ∧
      ¬∀ source, (∀ l ∈ literalSpans source, IsClosed l.text) →
        ∀ st ∈ localSpans source, ∀ l ∈ literalSpans source,
          l.Apart st ∨ l.offset = specifierOffset st := by
  constructor
  · intro h
    have hkept := (h "const t = \x60\nexport const x = 1;\n\x60;\n".toList
      (by decide +kernel)).isInfix "\x60\nexport const x = 1;\n\x60".toList (by decide +kernel)
    exact absurd hkept (by decide +kernel)
  · intro h
    exact absurd (h "const t = \x60\nimport \"./x.js\";\n\x60;\n".toList (by decide +kernel))
      (by decide +kernel)

end Script

end PluginPack
