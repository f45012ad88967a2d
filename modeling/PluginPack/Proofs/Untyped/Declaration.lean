import PluginPack.Proofs.Untyped.Layout
import PluginPack.TypeSyntax.Declaration

/-!
# No declarations in scripts without types

No line of a script without types is read as an interface, a type alias or a dependency statement.
The words that begin these are reserved, but for `declare` and `type`: behind one of these no other
name stands, except that a loop may declare a variable of this name, and then no equals sign stands
behind the word `of`.
-/

namespace PluginPack

open Text Script TypeSyntax

namespace Untyped

/-! ## Beginnings of lines -/

/-- The words that type declarations and dependency statements begin with. -/
def openers : List Text := ["import", "export", "declare", "interface", "type"].map String.toList

/-- Neither a type declaration nor a dependency statement is read at the beginning of the text. -/
def Quiet (t : Text) : Prop := interface? t = none ∧ alias? t = none ∧ dependency? t = none

variable {b : Option Char} {c : Char} {k last r s : Text} {t u : Token} {ts us : List Token}

theorem isAlpha_of_mem_openers (hk : k ∈ openers) : ∀ c ∈ k, c.isAlpha = true :=
  (show ∀ k ∈ openers, ∀ c ∈ k, c.isAlpha = true by decide) k hk

theorem ne_nil_of_mem_openers (hk : k ∈ openers) : k ≠ [] :=
  (show ∀ k ∈ openers, k ≠ [] by decide) k hk

theorem quiet_of_keyword?_eq_none (h : ∀ k ∈ openers, keyword? k (s.dropWhile isBlank) = none) :
    Quiet s := by
  have hmodifiers : skipModifiers s = s.dropWhile isBlank := by
    rw [skipModifiers, optionally, optionally, h _ (by decide), Option.getD_none, h _ (by decide),
      Option.getD_none]
  refine ⟨?_, ?_, ?_⟩
  · rw [interface?, hmodifiers, h _ (by decide), Option.bind_none]
  · rw [alias?, hmodifiers, h _ (by decide), Option.bind_none]
  · rw [dependency?, importStatement?, reexportStatement?, h _ (by decide), h _ (by decide)]
    rfl

/-- Blanks in front do not matter. -/
theorem quiet_congr (h : r.dropWhile isBlank = s.dropWhile isBlank) (hs : Quiet s) : Quiet r := by
  have hmodifiers : skipModifiers r = skipModifiers s := by rw [skipModifiers, h, skipModifiers]
  obtain ⟨h1, h2, h3⟩ := hs
  refine ⟨?_, ?_, ?_⟩
  · rwa [interface?, hmodifiers]
  · rwa [alias?, hmodifiers]
  · rwa [dependency?, h]

theorem quiet_of_white (hs : ∀ c ∈ s, isWhite c = true) (hr : Quiet r) : Quiet (s ++ r) := by
  have hdrop := List.takeWhile_append_dropWhile (p := isBlank) (l := s)
  have hblank : ∀ c ∈ s.takeWhile isBlank, isBlank c = true :=
    List.all_eq_true.mp List.all_takeWhile
  have hstop := stops_dropWhile isBlank s
  rw [← hdrop, List.append_assoc]
  cases hc : s.dropWhile isBlank with
  | nil => exact quiet_congr (List.dropWhile_append_of_pos hblank) hr
  | cons c w =>
    have hwhite : isWhite c = true := hs c (by rw [← hdrop, hc]; simp)
    rw [hc] at hstop
    refine quiet_of_keyword?_eq_none fun k hk ↦ ?_
    rw [dropWhile_append_eq hblank (hstop.append (List.cons_ne_nil c w))]
    exact keyword?_of_isWhite hwhite (ne_nil_of_mem_openers hk) (isAlpha_of_mem_openers hk) _

theorem quiet_nil : Quiet [] := ⟨rfl, rfl, rfl⟩

/-! ## Beginnings of tokens -/

theorem head?_ne_of_isAlpha {q : Char} (hq : q.isAlpha = false) (hk : k ∈ openers) (r : Text) :
    keyword? k (q :: r) = none := by
  refine keyword?_eq_none fun hpre ↦ ?_
  obtain ⟨d, k, rfl⟩ := List.exists_cons_of_ne_nil (ne_nil_of_mem_openers hk)
  have hd := isAlpha_of_mem_openers hk d List.mem_cons_self
  rw [(List.cons_prefix_cons.mp hpre).1, hq] at hd
  cases hd

/-- Only a name that is spelled like an opener begins a text that such a word is read from. -/
theorem text_eq_of_keyword? (h : Laid (t :: ts)) (hlast : ∀ c ∈ last, isWhite c = true)
    (hk : k ∈ openers) (hr : keyword? k (t.text ++ (write ts ++ last)) = some r) :
    t.text = k ∧ (t.kind = .name ∨ t.kind = .binding) ∧ white? (write ts ++ last) = some r := by
  by_cases hstring : t.kind = .string
  · have hsym := head?_mem_symbols (by rw [hstring]; rfl) h.spells
    obtain ⟨q, w, hq⟩ := List.exists_cons_of_ne_nil (ne_nil_of_spells h.spells)
    rw [hq] at hsym
    rw [hq, List.cons_append,
      head?_ne_of_isAlpha (isAlpha_of_mem_symbols (hsym q rfl)) hk] at hr
    cases hr
  · obtain ⟨-, htext, hwhite⟩ := keyword?_text h hlast hstring (isAlpha_of_mem_openers hk)
      (List.nil_append t.text).symm (ne_nil_of_spells h.spells) hr
    refine ⟨htext, ?_, hwhite⟩
    have hspells := h.spells
    rw [htext] at hspells
    have hall : ∀ j ∈ Kind.all, j ≠ .name → j ≠ .binding → ∀ k ∈ openers, j.spells k = false := by
      decide
    by_contra hnot
    rw [not_or] at hnot
    rw [hall _ (Kind.mem_all _) hnot.1 hnot.2 k hk] at hspells
    cases hspells

/-- What stands behind a name is no word, or it is the word behind a variable of a loop. -/
theorem kind_behind_name (h : Laid (t :: u :: us)) (ht : t.kind = .name ∨ t.kind = .binding) :
    u.kind.isWordlike = false ∨ u.kind = .of := by
  have hfollows := h.adjacent.1
  have hall : ∀ k ∈ Kind.all, (follows .name k = true ∨ follows .binding k = true) →
      k.isWordlike = false ∨ k = .of := by decide
  refine hall _ (Kind.mem_all _) ?_
  rcases ht with ht | ht
  · rw [ht] at hfollows
    exact .inl hfollows
  · rw [ht] at hfollows
    exact .inr hfollows

/-- No opener is read behind a name. -/
theorem keyword?_behind_name (h : Laid (t :: ts)) (ht : t.kind = .name ∨ t.kind = .binding)
    (hlast : ∀ c ∈ last, isWhite c = true) (hr : white? (write ts ++ last) = some r)
    (hk : k ∈ openers) : keyword? k r = none := by
  rcases white?_write h.tail hlast hr with ⟨-, rfl⟩ | ⟨u, us, rfl, rfl⟩
  · exact keyword?_eq_none fun hpre ↦ ne_nil_of_mem_openers hk (List.prefix_nil.mp hpre)
  · cases hkey : keyword? k (u.text ++ (write us ++ last)) with
    | none => rfl
    | some s =>
      obtain ⟨-, hu, -⟩ := text_eq_of_keyword? h.tail hlast hk hkey
      rcases kind_behind_name h ht with hword | hof
      · rcases hu with hu | hu <;> rw [hu] at hword <;> cases hword
      · rcases hu with hu | hu <;> rw [hu] at hof <;> cases hof

/-- Behind the word `of` no equals sign stands. -/
theorem word?_behind_of (h : Laid (t :: ts)) (ht : t.kind = .of)
    (hlast : ∀ c ∈ last, isWhite c = true) :
    word? ['='] ((optionally aliasParameters? (write ts ++ last)).dropWhile isBlank) = none := by
  have hwhite : ∀ d, isWhite d = true → (d == '<') = false := by
    intro d hd
    rw [beq_eq_false_iff_ne]
    rintro rfl
    cases hd
  have hangle : Stops (· == '<') (write ts ++ last) := by
    cases ts with
    | nil => exact stops_of_white hlast hwhite
    | cons u us =>
      rw [write_cons, List.append_assoc, List.append_assoc]
      exact stops_of_spells h.tail.1 (h.adjacent.2 (by rw [ht]; rfl)) hwhite (by decide) _
  have hnot : '<' ∉ (write ts ++ last).head? := fun hmem ↦ absurd (hangle _ hmem) (by decide)
  rw [optionally, aliasParameters?, angles?_eq_none hnot, Option.getD_none, word?_eq_none_iff]
  rintro ⟨v, hv⟩
  -- The equals sign would be what the next token begins with.
  have hblank : ∀ c ∈ (write ts ++ last).takeWhile isBlank, isWhite c = true :=
    fun c hc ↦ isWhite_of_isBlank (List.all_eq_true.mp List.all_takeWhile c hc)
  have htrim : trimStart (write ts ++ last) = '=' :: v := by
    rw [← List.takeWhile_append_dropWhile (p := isBlank) (l := write ts ++ last),
      trimStart_append hblank, ← hv]
    exact trimStart_cons (by decide) v
  cases ts with
  | nil =>
    rw [write_nil, List.nil_append, trimStart_of_white hlast] at htrim
    cases htrim
  | cons u us =>
    rw [trimStart_write_cons h.tail] at htrim
    have hhead : u.text.head? = some '=' := by
      obtain ⟨d, w, hd⟩ := List.exists_cons_of_ne_nil (ne_nil_of_spells h.tail.spells)
      rw [hd, List.cons_append] at htrim
      rw [hd, (List.cons.inj htrim).1]
      rfl
    have hfollows := h.adjacent.1
    rw [ht] at hfollows
    rcases kind_of_head?_equals h.tail.spells hhead with hu | hu
    · rw [hu] at hfollows
      cases hfollows
    · rw [hu] at hfollows
      cases hfollows

/-- No alias is declared by a name that is spelled like the keyword. -/
theorem some?_behind_name (h : Laid (t :: ts)) (ht : t.kind = .name ∨ t.kind = .binding)
    (hlast : ∀ c ∈ last, isWhite c = true) (hr : white? (write ts ++ last) = some r) :
    (some? isNameChar r).bind
      (fun r ↦ (word? ['='] ((optionally aliasParameters? r).dropWhile isBlank)).bind aliased?) =
        none := by
  rcases white?_write h.tail hlast hr with ⟨-, rfl⟩ | ⟨u, us, rfl, rfl⟩
  · rfl
  · have hne := ne_nil_of_spells h.tail.spells
    rcases kind_behind_name h ht with hword | hof
    · have hstop : Stops isNameChar u.text := by
        intro c hc
        have hall : ∀ d ∈ symbols, isNameChar d = false := by decide
        exact hall c (head?_mem_symbols hword h.tail.spells c hc)
      rw [some?_eq_none (hstop.append hne), Option.bind_none]
    · have hname : ∀ c ∈ u.text, isNameChar c = true := by
        have hspells := h.tail.spells
        rw [hof] at hspells
        have hall : ∀ s ∈ Kind.of.spellings, ∀ c ∈ s, isNameChar c = true := by decide
        exact hall u.text (by simpa [Kind.spells] using hspells)
      have hstop : Stops isNameChar (write us ++ last) := by
        intro c hc
        have hid := stops_isIdentifierChar h.tail (by rw [hof]; rfl) hlast c hc
        by_contra hnot
        rw [isIdentifierChar_of_isNameChar (by simpa using hnot)] at hid
        cases hid
      rw [some?_append hne hname hstop, Option.bind_some, word?_behind_of h.tail hof hlast,
        Option.bind_none]

theorem dropWhile_isBlank_text (h : Laid (t :: ts)) (r : Text) :
    (t.text ++ r).dropWhile isBlank = t.text ++ r := by
  refine Stops.dropWhile_eq fun c hc ↦ ?_
  by_contra hblank
  have hwhite := stops_isWhite_text h _ c hc
  rw [isWhite_of_isBlank (by simpa using hblank)] at hwhite
  cases hwhite

/-- A name that is spelled like an opener declares nothing. -/
theorem quiet_name (h : Laid (t :: ts)) (ht : t.kind = .name ∨ t.kind = .binding)
    (hlast : ∀ c ∈ last, isWhite c = true) (hk : t.text ∈ openers) :
    Quiet (t.text ++ (write ts ++ last)) := by
  have hdrop := dropWhile_isBlank_text h (write ts ++ last)
  -- Of the openers only these two are no reserved words.
  have hall : ∀ k ∈ openers, isIdentifier k = true → k = "declare".toList ∨ k = "type".toList := by
    decide
  have hid : isIdentifier t.text = true := by
    have hspells := h.spells
    rcases ht with ht | ht <;> rwa [ht] at hspells
  -- The words besides the name itself are not read.
  have hother : ∀ k ∈ openers, t.text ≠ k → keyword? k (t.text ++ (write ts ++ last)) = none := by
    intro k hk hne
    rw [Option.eq_none_iff_forall_ne_some]
    intro r hr
    exact hne (text_eq_of_keyword? h hlast hk hr).1
  cases hkey : keyword? t.text (t.text ++ (write ts ++ last)) with
  | none =>
    refine quiet_of_keyword?_eq_none fun k hk' ↦ ?_
    rw [hdrop]
    by_cases heq : t.text = k
    · rwa [← heq]
    · exact hother k hk' heq
  | some r =>
    obtain ⟨-, -, hwhite⟩ := text_eq_of_keyword? h hlast hk hkey
    have hbehind : ∀ k ∈ openers, keyword? k r = none :=
      fun k hk ↦ keyword?_behind_name h ht hlast hwhite hk
    rcases hall t.text hk hid with htext | htext
    · have hmodifiers : skipModifiers (t.text ++ (write ts ++ last)) = r := by
        rw [skipModifiers, hdrop, optionally, optionally,
          hother _ (by decide) (by rw [htext]; decide), Option.getD_none, ← htext, hkey,
          Option.getD_some]
      refine ⟨?_, ?_, ?_⟩
      · rw [interface?, hmodifiers, hbehind _ (by decide), Option.bind_none]
      · rw [alias?, hmodifiers, hbehind _ (by decide), Option.bind_none]
      · rw [dependency?, hdrop, importStatement?, reexportStatement?,
          hother _ (by decide) (by rw [htext]; decide),
          hother _ (by decide) (by rw [htext]; decide)]
        rfl
    · have hmodifiers : skipModifiers (t.text ++ (write ts ++ last)) =
          t.text ++ (write ts ++ last) := by
        rw [skipModifiers, hdrop, optionally, optionally,
          hother _ (by decide) (by rw [htext]; decide), Option.getD_none,
          hother _ (by decide) (by rw [htext]; decide), Option.getD_none]
      refine ⟨?_, ?_, ?_⟩
      · rw [interface?, hmodifiers, hother _ (by decide) (by rw [htext]; decide),
          Option.bind_none]
      · rw [alias?, hmodifiers, ← htext, hkey, Option.bind_some]
        exact some?_behind_name h ht hlast hwhite
      · rw [dependency?, hdrop, importStatement?, reexportStatement?,
          hother _ (by decide) (by rw [htext]; decide),
          hother _ (by decide) (by rw [htext]; decide)]
        rfl

/-- Nothing is read where a token begins. -/
theorem quiet_text (h : Laid (t :: ts)) (hlast : ∀ c ∈ last, isWhite c = true) :
    Quiet (t.text ++ (write ts ++ last)) := by
  by_cases hnone : ∀ k ∈ openers, keyword? k (t.text ++ (write ts ++ last)) = none
  · exact quiet_of_keyword?_eq_none (by rwa [dropWhile_isBlank_text h])
  · simp only [not_forall] at hnone
    obtain ⟨k, hk, hsome⟩ := hnone
    obtain ⟨r, hr⟩ := Option.ne_none_iff_exists'.mp hsome
    obtain ⟨rfl, hkind, -⟩ := text_eq_of_keyword? h hlast hk hr
    exact quiet_name h hkind hlast hk

/-! ## Whole scripts -/

/-- What stands behind the newlines of a text. -/
def textsBelow : Text → List Text
  | [] => []
  | c :: r => if c = '\n' then r :: textsBelow r else textsBelow r

theorem mem_textsBelow (x y : Text) : y ∈ textsBelow (x ++ '\n' :: y) := by
  induction x with
  | nil => simp [textsBelow]
  | cons c x ih =>
    rw [List.cons_append, textsBelow]
    split
    · exact List.mem_cons_of_mem _ ih
    · exact ih

/-- No line but the first of the token begins with an opener. This says something of string literals
only, no other token goes over a line. -/
def KeepsLines (t : Token) : Prop :=
  ∀ y ∈ textsBelow t.text, ∀ k ∈ openers, keyword? k (y.dropWhile isBlank) = none

instance (t : Token) : Decidable (KeepsLines t) :=
  inferInstanceAs (Decidable (∀ y ∈ textsBelow t.text, ∀ k ∈ openers, _))

/-- A keyword in front of a character that no keyword holds is read without what follows. -/
theorem keyword?_eq_none_of_concat {q : Char} (hq : q ∉ k) (hwhite : isWhite q = false)
    (h : keyword? k (s ++ [q]) = none) (r : Text) : keyword? k (s ++ q :: r) = none := by
  by_contra hsome
  obtain ⟨v, hv⟩ := Option.ne_none_iff_exists'.mp hsome
  obtain ⟨w, hne, hw, hstop, heq⟩ := exists_of_keyword?_eq_some hv
  rw [← List.append_assoc] at heq
  rcases List.append_eq_append_iff.mp heq with ⟨a, hkw, hrest⟩ | ⟨a, rfl, rfl⟩
  · have hnot : q ∉ k ++ w := by
      rw [List.mem_append, not_or]
      exact ⟨hq, fun hmem ↦ by rw [hw q hmem] at hwhite; cases hwhite⟩
    cases a with
    | nil =>
      rw [List.append_nil] at hkw
      rw [← hkw, List.append_assoc, keyword?_append hne hw (stops_cons.mpr hwhite)] at h
      cases h
    | cons d a =>
      have hd : q = d := (List.cons.inj hrest).1
      exact hnot (by rw [hkw, hd]; simp)
  · have hstop' : Stops isWhite (a ++ [q]) := by
      cases a with
      | nil => exact stops_cons.mpr hwhite
      | cons d a => exact stops_cons.mpr (stops_cons.mp hstop)
    rw [List.append_assoc, List.append_assoc, keyword?_append hne hw hstop'] at h
    cases h

/-- Nothing is read where a line begins in a string literal. -/
theorem quiet_below (h : t.IsSpelled) (hlines : KeepsLines t) {x y : Text}
    (hxy : t.text = x ++ '\n' :: y) (hy : y ≠ []) (r : Text) : Quiet (y ++ r) := by
  have hword : t.kind.isWordlike = false := by
    by_contra hword
    have hstring : t.kind ≠ .string := by
      intro heq
      rw [heq] at hword
      exact hword rfl
    have hwhite := isWhite_of_spells hstring h.2 '\n' (by rw [hxy]; simp)
    cases hwhite
  have hbelow := hlines y (by rw [hxy]; exact mem_textsBelow x y)
  obtain ⟨v, q, rfl⟩ := List.eq_nil_or_concat y |>.resolve_left hy
  rw [List.concat_eq_append] at hxy hbelow ⊢
  have hq : q ∈ symbols := by
    refine getLast?_mem_symbols hword h.2 q ?_
    rw [hxy, ← List.cons_append, ← List.append_assoc, List.getLast?_concat]
    rfl
  have hall : ∀ q ∈ symbols, isBlank q = false ∧ ∀ k ∈ openers, q ∉ k := by decide
  refine quiet_of_keyword?_eq_none fun k hk ↦ ?_
  have hnone := hbelow k hk
  rw [dropWhile_isBlank_append_cons (hall q hq).1] at hnone
  rw [List.append_assoc, List.singleton_append, dropWhile_isBlank_append_cons (hall q hq).1]
  exact keyword?_eq_none_of_concat ((hall q hq).2 k hk) (isWhite_of_mem_symbols hq) hnone r

/-- A marker that finds nothing but at a line that is not quiet passes over a script without
types. -/
theorem passes_of_quiet {α : Type} {m : Marker α}
    (hm : ∀ b s, (Marker.beginsLine b = true → Quiet s) → m.find? b s = none) (h : Laid ts)
    (hlines : ∀ t ∈ ts, KeepsLines t) (hlast : ∀ c ∈ last, isWhite c = true) :
    m.Passes none (write ts ++ last) [] := by
  refine passes_write h hlines ?_ ?_ ?_ none
  · intro b t ts hts _ x y hxy hy
    refine hm _ _ fun _ ↦ quiet_of_white (fun c hc ↦ hts.white c ?_) (quiet_text hts hlast)
    rw [hxy]
    exact List.mem_append_right x hc
  · intro b t ts hts hlines x y hxy hy
    refine hm _ _ fun hbegins ↦ ?_
    rcases List.eq_nil_or_concat x with rfl | ⟨v, c, rfl⟩
    · rw [List.nil_append] at hxy
      rw [← hxy]
      exact quiet_text hts hlast
    · rw [List.concat_eq_append] at hxy hbegins
      have hc : c = '\n' := by simpa [Marker.beginsLine] using hbegins
      subst hc
      rw [List.append_assoc, List.singleton_append] at hxy
      exact quiet_below hts.1 (hlines t List.mem_cons_self) hxy hy _
  · intro b x y hxy hy
    refine hm _ _ fun _ ↦ quiet_of_white (fun c hc ↦ hlast c ?_) quiet_nil
    rw [hxy]
    exact List.mem_append_right x hc

/-- **No declaration is removed** from a script without types. -/
theorem eraseDeclarations_write (h : Laid ts) (hlines : ∀ t ∈ ts, KeepsLines t)
    (hlast : ∀ c ∈ last, isWhite c = true) :
    eraseDeclarations (write ts ++ last) = write ts ++ last := by
  have hinterface : interfaceDeclaration.Passes none (write ts ++ last) [] := by
    refine passes_of_quiet (fun b s hq ↦ ite_eq_right_iff.mpr fun hb ↦ ?_) h hlines hlast
    rw [(hq hb).1]
    rfl
  have halias : aliasDeclaration.Passes none (write ts ++ last) [] := by
    refine passes_of_quiet (fun b s hq ↦ ite_eq_right_iff.mpr fun hb ↦ ?_) h hlines hlast
    rw [(hq hb).2.1]
    rfl
  rw [eraseDeclarations, Marker.erase, Marker.erase, hinterface.replace_eq, halias.replace_eq]

/-- No dependency statement stands in a script without types. -/
theorem cut_dependency_write (h : Laid ts) (hlines : ∀ t ∈ ts, KeepsLines t)
    (hlast : ∀ c ∈ last, isWhite c = true) :
    dependency.cut (write ts ++ last) = ⟨write ts ++ last, []⟩ := by
  have hpass : dependency.Passes none (write ts ++ last) [] :=
    passes_of_quiet (fun b s hq ↦ ite_eq_right_iff.mpr fun hb ↦ (hq hb).2.2) h hlines hlast
  exact hpass.cut_eq

end Untyped

end PluginPack
