import PluginPack.Proofs.TypeSyntax.Passing
import PluginPack.Proofs.Untyped.Signature

/-!
# Heads that no type reaches

What stands in front of the first parenthesis of a script stays there when types are erased,
provided that no statement begins with it, no keyword of an annotation or an assertion is set off in
it, and no list of type parameters ends it. Whatever stands behind the parenthesis, no type that is
found there reaches back over it.
-/

namespace PluginPack

open Text Script

namespace TypeSyntax

variable {before kept r t w y : Text} {c : Char} {d : Nat} {s : Signature}

/-! ## Type parameters behind a mark -/

/-- The marks over which no list of type parameters is read back. -/
def listEnds : List Char := [';', '{', '}', '(', ')', '=']

theorem openAngle?_of_mem_listEnds (hc : c ∈ listEnds) (d : Nat) (r : Text) :
    openAngle? d (c :: r) = none := by
  have hall : ∀ c ∈ listEnds, c ≠ '>' ∧ c ≠ '<' ∧
      (c = ';' ∨ c = '{' ∨ c = '}' ∨ c = '(' ∨ c = ')' ∨ c = '=' ∨ c = '\n') := by decide
  obtain ⟨hclose, hopen, hstop⟩ := hall c hc
  rw [openAngle?, if_neg hclose, if_neg hopen, if_pos hstop]

/-- Read backwards, a list of type parameters does not reach over a mark. -/
theorem length_le_of_openAngle? (hc : c ∈ listEnds) {head : Text}
    (h : openAngle? d (y ++ c :: before) = some head) :
    (c :: before).length ≤ head.length := by
  induction y generalizing d with
  | nil =>
    rw [List.nil_append, openAngle?_of_mem_listEnds hc] at h
    cases h
  | cons e y ih =>
    rw [List.cons_append, openAngle?] at h
    split_ifs at h
    · exact ih h
    · cases h
      simp
    · exact ih h
    · exact ih h

theorem length_le_of_beforeTypeParameters? (hc : c ∈ listEnds) {head : Text}
    (h : beforeTypeParameters? (y ++ c :: before) = some head) :
    (c :: before).length ≤ head.length := by
  have hall : ∀ c ∈ listEnds, isWhite c = false ∧ c ≠ '>' := by decide
  obtain ⟨hblack, hangle⟩ := hall c hc
  obtain ⟨z, hz⟩ : ∃ z, trimStart (y ++ c :: before) = z ++ c :: before := by
    clear h
    induction y with
    | nil => exact ⟨[], trimStart_cons hblack _⟩
    | cons e y ih =>
      cases he : isWhite e with
      | true => simpa [trimStart, he] using ih
      | false => exact ⟨e :: y, trimStart_cons he _⟩
  rw [beforeTypeParameters?, hz] at h
  split at h
  · cases h
  · rename_i u _ hu
    cases z with
    | nil => exact absurd (List.cons.inj hu).1 hangle
    | cons e z =>
      rw [← (List.cons.inj hu).2] at h
      exact length_le_of_openAngle? hc h
  · cases h

theorem lead_le_of_signature? (hc : c ∈ listEnds)
    (h : signature? (y ++ c :: before) t = some s) : s.lead ≤ y.length := by
  obtain ⟨params, behind, tail, -, -, rfl, -⟩ := exists_of_signature? h
  cases hbefore : beforeTypeParameters? (y ++ c :: before) with
  | none => simp
  | some head =>
    have hle := length_le_of_beforeTypeParameters? hc hbefore
    simp only [Option.getD_some, List.length_append, List.length_cons] at hle ⊢
    omega

/-- **What stands in front of a mark** that is kept is kept as well. -/
theorem exists_eraseSignaturesFrom (hc : c ∈ listEnds) (y before kept t : Text) :
    ∃ out, eraseSignaturesFrom (y ++ c :: before) (y ++ c :: kept) t =
      kept.reverse ++ c :: out := by
  induction hn : t.length using Nat.strongRecOn generalizing y t with
  | ind n ih =>
    subst hn
    have hpass (e : Char) (r : Text) (hr : t = e :: r) :
        ∃ out, eraseSignaturesFrom (e :: (y ++ c :: before)) (e :: (y ++ c :: kept)) r =
          kept.reverse ++ c :: out :=
      ih r.length (by simp [hr]) (e :: y) r rfl
    cases t with
    | nil => exact ⟨y.reverse, by simp [eraseSignaturesFrom]⟩
    | cons e r =>
      cases hinert : inert? (e :: r) with
      | some p =>
        obtain ⟨lit, rest⟩ := p
        have hskip := ih rest.length (inert?_length_lt hinert) (lit.reverse ++ y) rest rfl
        have hlit := inert?_append hinert
        rw [← hlit, Untyped.eraseSignaturesFrom_inert (hlit ▸ hinert)]
        simpa using hskip
      | none =>
        by_cases he : e = '('
        · subst he
          cases hs : signature? (y ++ c :: before) r with
          | none =>
            rw [Untyped.eraseSignaturesFrom_none hs]
            exact hpass '(' r rfl
          | some s =>
            have hlead := lead_le_of_signature? hc hs
            have hle : s.lead ≤ (y ++ c :: kept).length := by
              rw [List.length_append]
              omega
            rw [Untyped.eraseSignaturesFrom_some hs hle, List.drop_append_of_le_length hlead]
            simp
        · rw [Untyped.eraseSignaturesFrom_cons hinert he]
          exact hpass e r rfl

/-- Code without parentheses is kept with the mark behind it, if no list of type parameters ends in
front of a parenthesis there. -/
theorem exists_eraseSignaturesFrom_mark (hw : ∀ e ∈ w, isQuote e = false ∧ e ≠ '/' ∧ e ≠ '(')
    (hc : c ∈ listEnds)
    (hplain : c = '(' → beforeTypeParameters? (w.reverse ++ before) = none) (kept r : Text) :
    ∃ r', eraseSignaturesFrom before kept (w ++ c :: r) = kept.reverse ++ (w ++ c :: r') := by
  have hpass : ∀ e ∈ w, (∀ r, inert? (e :: r) = none) ∧ e ≠ '(' := fun e he ↦
    ⟨inert?_eq_none (hw e he).1 (hw e he).2.1, (hw e he).2.2⟩
  rw [Untyped.eraseSignaturesFrom_append hpass]
  have hkeep : eraseSignaturesFrom (w.reverse ++ before) (w.reverse ++ kept) (c :: r) =
      eraseSignaturesFrom (c :: (w.reverse ++ before)) (c :: (w.reverse ++ kept)) r →
      ∃ r', eraseSignaturesFrom (w.reverse ++ before) (w.reverse ++ kept) (c :: r) =
        kept.reverse ++ (w ++ c :: r') := by
    intro hstep
    rw [hstep]
    simpa using exists_eraseSignaturesFrom hc [] (w.reverse ++ before) (w.reverse ++ kept) r
  by_cases hparen : c = '('
  · subst hparen
    cases hs : signature? (w.reverse ++ before) r with
    | none => exact hkeep (Untyped.eraseSignaturesFrom_none hs)
    | some s =>
      have hlead : s.lead = 0 := by
        obtain ⟨params, behind, tail, -, -, rfl, -⟩ := exists_of_signature? hs
        simp [hplain rfl]
      rw [Untyped.eraseSignaturesFrom_some hs (by omega), hlead]
      simp [Signature.render]
  · have hall : ∀ c ∈ listEnds, isQuote c = false ∧ c ≠ '/' := by decide
    exact hkeep (Untyped.eraseSignaturesFrom_cons
      (inert?_eq_none (hall c hc).1 (hall c hc).2 r) hparen)

/-! ## Heads -/

/-- Text in front of a parenthesis that no type reaches. -/
structure IsHead (w : Text) : Prop where
  line : '\n' ∉ w
  paren : '(' ∉ w
  code : IsSpacedCode w
  /-- Nothing is read at the beginning of its line. -/
  quiet : ∀ r, Untyped.Quiet (w ++ r)
  /-- No list of type parameters ends it. -/
  plain : beforeTypeParameters? w.reverse = none

/-- What a function begins with, up to its name. -/
def functionHead (isAsync : Bool) (name : Text) : Text :=
  (if isAsync then "async ".toList else []) ++ ("function ".toList ++ name)

theorem beforeTypeParameters?_of_getLast? {c : Char} (hlast : w.getLast? = some c)
    (hwhite : isWhite c = false) (hangle : c ≠ '>') : beforeTypeParameters? w.reverse = none := by
  obtain ⟨v, rfl⟩ := List.getLast?_eq_some_iff.mp hlast
  rw [List.reverse_append, List.reverse_singleton, List.singleton_append]
  exact beforeTypeParameters?_cons hwhite hangle _

/-- **The word `function` and a name** are a head. -/
theorem isHead_functionHead {name : Text} (isAsync : Bool) (hne : name ≠ [])
    (hname : ∀ c ∈ name, isNameChar c = true) : IsHead (functionHead isAsync name) := by
  have hnot : ∀ {c}, isNameChar c = false → c ∉ name := fun hc hmem ↦ by
    rw [hname _ hmem] at hc
    cases hc
  have hwords : ∃ u : Text, functionHead isAsync name = u ++ name ∧ '\n' ∉ u ∧ '(' ∉ u ∧
      IsSpacedCode u ∧ ∀ r, Untyped.Quiet (u ++ r) := by
    cases isAsync with
    | true =>
      exact ⟨"async function ".toList, rfl, by decide, by decide, by decide,
        fun r ↦ quiet_cons (by rfl) (by decide) _⟩
    | false =>
      exact ⟨"function ".toList, rfl, by decide, by decide, by decide,
        fun r ↦ quiet_cons (by rfl) (by decide) _⟩
  obtain ⟨u, hu, hline, hparen, hcode, hquiet⟩ := hwords
  rw [hu]
  refine ⟨?_, ?_, hcode.append (isSpacedCode_of_isNameChar hname), fun r ↦ ?_, ?_⟩
  · simpa [hline] using hnot (c := '\n') (by decide)
  · simpa [hparen] using hnot (c := '(') (by decide)
  · rw [List.append_assoc]
    exact hquiet _
  · -- The name stands in front of the parenthesis.
    obtain ⟨c, hc⟩ := Option.ne_none_iff_exists'.mp (mt List.getLast?_eq_none_iff.mp hne)
    have hchar := hname c (List.mem_of_mem_getLast? hc)
    refine beforeTypeParameters?_of_getLast? (c := c) ?_ (isWhite_of_isNameChar hchar) ?_
    · rw [List.getLast?_append, hc]
      rfl
    · rintro rfl
      cases hchar

theorem IsHead.isSpacedCode (h : IsHead w) : IsSpacedCode (w ++ ['(']) :=
  h.code.append (by decide)

theorem IsHead.passesLines (h : IsHead w) (r : Text) : PassesLines none (w ++ ['(']) r := by
  refine passesLines_of_quiet ?_ ?_ none
  · simpa using h.line
  · rw [List.append_assoc]
    exact h.quiet _

theorem IsHead.exists_eraseSignatures (h : IsHead w) (r : Text) :
    ∃ r', eraseSignatures (w ++ '(' :: r) = w ++ '(' :: r' := by
  have hw : ∀ e ∈ w, isQuote e = false ∧ e ≠ '/' ∧ e ≠ '(' := by
    intro e he
    obtain ⟨hquote, hslash⟩ := h.code.code e he
    exact ⟨hquote, hslash, fun hparen ↦ h.paren (hparen ▸ he)⟩
  refine exists_eraseSignaturesFrom_mark hw (by decide) (fun _ ↦ ?_) [] r
  rw [List.append_nil]
  exact h.plain

theorem isGuarded_paren (w r : Text) : IsGuarded (w ++ ['(']) r :=
  .inr ⟨'(', List.getLast?_concat, rfl, rfl⟩

theorem IsHead.exists_eraseAssertions (h : IsHead w) (r : Text) :
    ∃ r', eraseAssertions (w ++ ['('] ++ r) = w ++ ['('] ++ r' := by
  induction hn : r.length using Nat.strongRecOn generalizing r with
  | ind n ih =>
    subst hn
    obtain ⟨r', honce⟩ : ∃ r', eraseAssertionsOnce (w ++ ['('] ++ r) = w ++ ['('] ++ r' := by
      rw [eraseAssertionsOnce, Marker.replace, Marker.cut, (passes_assertion_spaced
        h.isSpacedCode.assertions (isGuarded_paren w r) none).cutFrom_append,
        Cut.substitute_prepend]
      exact ⟨_, rfl⟩
    rw [eraseAssertions, honce]
    split
    · rename_i hlt
      exact ih r'.length (by simpa using hlt) r' rfl
    · exact ⟨r, rfl⟩

theorem IsHead.exists_eraseFromStretch (h : IsHead w) (r : Text) :
    ∃ r', eraseFromStretch (w ++ ['('] ++ r) = w ++ ['('] ++ r' := by
  rw [eraseFromStretch, eraseAnnotations, Marker.replace, Marker.cut,
    (passes_annotatedVariable_spaced h.isSpacedCode.annotations (isGuarded_paren w r)
      none).cutFrom_append, Cut.substitute_prepend]
  exact h.exists_eraseAssertions _

/-- The first stretch of code begins with the head. -/
theorem IsHead.exists_eraseExpressionTypes (h : IsHead w) (r : Text) :
    ∃ r', eraseExpressionTypes (w ++ ['('] ++ r) = w ++ ['('] ++ r' := by
  have hcut : eraseExpressionTypes (w ++ ['('] ++ r) =
      ((inert.cutFrom ((w ++ ['(']).getLast?.or none) r).prepend (w ++ ['('])).render
        eraseFromStretch Part.lexeme := by
    rw [← (h.isSpacedCode.code.passes_inert none r).cutFrom_append]
    rfl
  obtain ⟨first, hfirst⟩ := h.exists_eraseFromStretch
    (inert.cutFrom ((w ++ ['(']).getLast?.or none) r).first
  rw [hcut, Cut.render, Cut.prepend, hfirst, List.append_assoc (w ++ ['('])]
  exact ⟨_, rfl⟩

/-- **No type reaches a head.** -/
theorem IsHead.exists_eraseTypes (h : IsHead w) (r : Text) :
    ∃ r', eraseTypes (w ++ '(' :: r) = w ++ '(' :: r' := by
  have hparen (r : Text) : w ++ '(' :: r = w ++ ['('] ++ r := by simp
  obtain ⟨r₁, hdeclarations⟩ := exists_eraseDeclarations h.passesLines r
  obtain ⟨r₂, hsignatures⟩ := h.exists_eraseSignatures r₁
  rw [hparen r₁, hparen r₂] at hsignatures
  obtain ⟨r₃, hexpressions⟩ := h.exists_eraseExpressionTypes
    (dependency.cutFrom ((w ++ ['(']).getLast?.or none) r₂).first
  rw [hparen, eraseTypes, hdeclarations, hsignatures, Marker.cut,
    (h.passesLines r₂).dependencies.cutFrom_append, Cut.render, Cut.prepend, hexpressions,
    List.append_assoc (w ++ ['('])]
  exact ⟨_, (hparen _).symm⟩

end TypeSyntax

end PluginPack
