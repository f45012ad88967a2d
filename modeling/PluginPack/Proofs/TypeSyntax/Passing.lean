import PluginPack.Proofs.TypeSyntax.Spacing
import PluginPack.Proofs.Untyped.Declaration

/-!
# What type erasure passes over

Declarations and dependency statements are looked for at the beginnings of lines, and annotations
and assertions in the code between literals. A line that begins with none of the words of these
statements is passed over, and so is spaced code with string literals in it.
-/

namespace PluginPack

open Text Script

namespace TypeSyntax

variable {b : Option Char} {c : Char} {k r s t u v w x y : Text}

/-! ## Lines -/

/-- No type declaration and no dependency statement begins in the text `w`, which stands between `b`
and `r`. -/
structure PassesLines (b : Option Char) (w r : Text) : Prop where
  interfaces : interfaceDeclaration.Passes b w r
  aliases : aliasDeclaration.Passes b w r
  dependencies : dependency.Passes b w r

theorem PassesLines.append (hw : PassesLines b w (v ++ r))
    (hv : PassesLines (w.getLast?.or b) v r) : PassesLines b (w ++ v) r :=
  ⟨hw.interfaces.append hv.interfaces, hw.aliases.append hv.aliases,
    hw.dependencies.append hv.dependencies⟩

/-- A text is passed over when nothing is read at the beginnings of its lines. -/
theorem passesLines_of_forall (h : ∀ x y, w = x ++ y → y ≠ [] →
    Marker.beginsLine (x.getLast?.or b) = true → Untyped.Quiet (y ++ r)) : PassesLines b w r := by
  have hpass : ∀ {α : Type} {m : Marker α},
      (∀ b s, (Marker.beginsLine b = true → Untyped.Quiet s) → m.find? b s = none) →
        m.Passes b w r :=
    fun hm x y hxy hy ↦ hm _ _ (h x y hxy hy)
  refine ⟨hpass fun b s hq ↦ ite_eq_right_iff.mpr fun hb ↦ ?_,
    hpass fun b s hq ↦ ite_eq_right_iff.mpr fun hb ↦ ?_,
    hpass fun b s hq ↦ ite_eq_right_iff.mpr fun hb ↦ (hq hb).2.2⟩
  · rw [(hq hb).1, Option.map_none]
  · rw [(hq hb).2.1, Option.map_none]

/-- A single line is passed over when nothing is read at its beginning. -/
theorem passesLines_of_quiet (hw : '\n' ∉ w) (hquiet : Untyped.Quiet (w ++ r)) (b : Option Char) :
    PassesLines b w r := by
  refine passesLines_of_forall fun x y hxy _ hbegins ↦ ?_
  subst hxy
  rcases List.eq_nil_or_concat x with rfl | ⟨x, c, rfl⟩
  · exact hquiet
  · have hc : c = '\n' := by simpa [Marker.beginsLine] using hbegins
    exact absurd (by simp [hc]) hw

/-- The newline at the end of a line is passed over as well. -/
theorem passesLines_newline (b : Option Char) : PassesLines b ['\n'] [] := by
  refine passesLines_of_forall fun x y hxy hy _ ↦ ?_
  rcases List.append_eq_singleton_iff.mp hxy.symm with ⟨rfl, rfl⟩ | ⟨rfl, rfl⟩
  · exact ⟨rfl, rfl, rfl⟩
  · exact absurd rfl hy

/-- A script of one line is passed over. -/
theorem passesLines_line (hw : '\n' ∉ w) (endsLine : Bool)
    (hquiet : Untyped.Quiet (w ++ if endsLine then ['\n'] else [])) :
    PassesLines none (w ++ if endsLine then ['\n'] else []) [] := by
  cases endsLine with
  | true => exact .append (passesLines_of_quiet hw hquiet none) (passesLines_newline _)
  | false =>
    simp only [Bool.false_eq_true, if_false, List.append_nil] at hquiet ⊢
    exact passesLines_of_quiet hw (by rwa [List.append_nil]) none

/-- Nothing is read at the beginning of a text that begins neither with a blank nor like one of the
words of a declaration or a dependency statement. -/
theorem quiet_cons (hblank : isBlank c = false) (hc : ∀ k ∈ Untyped.openers, k.head? ≠ some c)
    (t : Text) : Untyped.Quiet (c :: t) := by
  refine Untyped.quiet_of_keyword?_eq_none fun k hk ↦ ?_
  rw [List.dropWhile_cons_of_neg (by simp [hblank])]
  refine keyword?_eq_none fun hpre ↦ ?_
  obtain ⟨d, k, rfl⟩ := List.exists_cons_of_ne_nil (Untyped.ne_nil_of_mem_openers hk)
  exact hc _ hk (congrArg some (List.cons_prefix_cons.mp hpre).1)

theorem eraseDeclarations_eq_self (h : PassesLines none t []) : eraseDeclarations t = t := by
  rw [eraseDeclarations, Marker.erase, Marker.erase, h.interfaces.replace_eq, h.aliases.replace_eq]

/-- What is passed over at the beginning of a script stays there. -/
theorem exists_eraseDeclarations (h : ∀ r, PassesLines none w r) (r : Text) :
    ∃ r', eraseDeclarations (w ++ r) = w ++ r' := by
  rw [eraseDeclarations, Marker.erase, Marker.erase, Marker.replace, Marker.replace, Marker.cut,
    Marker.cut, (h r).interfaces.cutFrom_append, Cut.substitute_prepend,
    (h _).aliases.cutFrom_append, Cut.substitute_prepend]
  exact ⟨_, rfl⟩

/-! ## Stretches of code -/

/-- Removes annotations and assertions from one stretch of code. -/
def eraseFromStretch (w : Text) : Text := eraseAssertions (eraseAnnotations w)

/-- Text in which no literal and no comment begins. -/
def IsCode (w : Text) : Prop := ∀ c ∈ w, isQuote c = false ∧ c ≠ '/'

instance (w : Text) : Decidable (IsCode w) := inferInstanceAs (Decidable (∀ c ∈ w, _))

theorem IsCode.append (hu : IsCode u) (hv : IsCode v) : IsCode (u ++ v) :=
  List.forall_mem_append.mpr ⟨hu, hv⟩

theorem IsCode.passes_inert (h : IsCode w) (b : Option Char) (r : Text) : inert.Passes b w r := by
  rintro x y rfl hy
  obtain ⟨c, y, rfl⟩ := List.exists_cons_of_ne_nil hy
  obtain ⟨hquote, hslash⟩ := h c (by simp)
  exact inert?_eq_none hquote hslash _

/-- Code in which no keyword of an annotation or an assertion is set off by white space. -/
structure IsSpacedCode (w : Text) : Prop where
  code : IsCode w
  annotations : isSpaced declaratorEnds none w = true
  assertions : isSpaced assertionEnds none w = true

theorem IsSpacedCode.append (hu : IsSpacedCode u) (hv : IsSpacedCode v) : IsSpacedCode (u ++ v) :=
  ⟨hu.code.append hv.code, isSpaced_append hu.annotations hv.annotations,
    isSpaced_append hu.assertions hv.assertions⟩

theorem isSpacedCode_nil : IsSpacedCode [] := ⟨by simp [IsCode], rfl, rfl⟩

instance (w : Text) : Decidable (IsSpacedCode w) :=
  decidable_of_iff (IsCode w ∧
      isSpaced declaratorEnds none w = true ∧ isSpaced assertionEnds none w = true)
    ⟨fun h ↦ ⟨h.1, h.2.1, h.2.2⟩, fun h ↦ ⟨h.code, h.annotations, h.assertions⟩⟩

/-- Plain text without white space is spaced code. -/
theorem isSpacedCode_of_black (hplain : ∀ c ∈ w, Untyped.isPlain c = true)
    (hblack : ∀ c ∈ w, isWhite c = false) : IsSpacedCode w := by
  refine ⟨fun c hc ↦ ⟨Untyped.isQuote_of_isPlain (hplain c hc), ?_⟩, isSpaced_of_black hblack,
    isSpaced_of_black hblack⟩
  rintro rfl
  cases hplain _ hc

theorem isSpacedCode_of_isNameChar (hw : ∀ c ∈ w, isNameChar c = true) : IsSpacedCode w :=
  isSpacedCode_of_black
    (fun c hc ↦ Untyped.isPlain_of_isIdentifierChar
      (Untyped.isIdentifierChar_of_isNameChar (hw c hc)))
    fun c hc ↦ isWhite_of_isNameChar (hw c hc)

theorem eraseAssertions_eq_self (h : isSpaced assertionEnds none w = true) :
    eraseAssertions w = w := by
  have honce : eraseAssertionsOnce w = w :=
    (passes_assertion_spaced h (.inl rfl) none).replace_eq id
  rw [eraseAssertions, honce, if_neg (Nat.lt_irrefl _)]

theorem IsSpacedCode.eraseFromStretch_eq (h : IsSpacedCode w) : eraseFromStretch w = w := by
  have hannotations : eraseAnnotations w = w :=
    (passes_annotatedVariable_spaced h.annotations (.inl rfl) none).replace_eq id
  rw [eraseFromStretch, hannotations, eraseAssertions_eq_self h.assertions]

/-! ## Literals between stretches -/

/-- Spaced code and string literals in any order. -/
inductive IsSpacedScript : Text → Prop
  | code {w : Text} : IsSpacedCode w → IsSpacedScript w
  | literal {w : Text} : Untyped.isString w = true → IsSpacedScript w
  | append {u v : Text} : IsSpacedScript u → IsSpacedScript v → IsSpacedScript (u ++ v)

theorem IsSpacedScript.intercalate {ws : List Text} (h : ∀ w ∈ ws, IsSpacedScript w) :
    IsSpacedScript ([',', ' '].intercalate ws) := by
  induction ws with
  | nil => exact .code isSpacedCode_nil
  | cons w ws ih =>
    obtain ⟨hw, hws⟩ := List.forall_mem_cons.mp h
    cases ws with
    | nil => rwa [List.intercalate_singleton]
    | cons v ws =>
      rw [List.intercalate_cons_cons]
      exact .append (.append hw (.code (by decide))) (ih hws)

/-- Annotations and assertions are found nowhere in what stands behind a literal and code. -/
def IsKept (r : Text) : Prop :=
  ∀ b w, IsSpacedCode w →
    ((inert.cutFrom b r).prepend w).render eraseFromStretch Part.lexeme = w ++ r

theorem isKept_nil : IsKept [] := by
  intro b w hw
  rw [Marker.cutFrom_nil, Cut.render_prepend_empty, hw.eraseFromStretch_eq, List.append_nil]

/-- The stretch of code that stands in front grows by code and ends at a literal. -/
theorem IsSpacedScript.isKept (h : IsSpacedScript t) (hr : IsKept r) : IsKept (t ++ r) := by
  induction h generalizing r with
  | code hcode =>
    intro b w hw
    rw [(hcode.code.passes_inert b r).cutFrom_append, Cut.prepend_prepend,
      hr _ _ (hw.append hcode), List.append_assoc]
  | @literal l hl =>
    intro b w hw
    have hfind : inert.find? b (l ++ r) = some (l, r) := Untyped.inert?_append_of_isString hl r
    have hrest := hr l.getLast? [] isSpacedCode_nil
    rw [Cut.prepend_nil, List.nil_append] at hrest
    rw [Marker.cutFrom_of_some _ hfind, Marker.consumed_left, Cut.render_prepend_mark,
      hw.eraseFromStretch_eq, hrest]
  | append _ _ ihu ihv =>
    rw [List.append_assoc]
    exact ihu (ihv hr)

/-- **Annotations and assertions** are found nowhere in spaced code and string literals. -/
theorem IsSpacedScript.eraseExpressionTypes_eq (h : IsSpacedScript t) :
    eraseExpressionTypes t = t := by
  have hkept := h.isKept isKept_nil none [] isSpacedCode_nil
  rwa [List.append_nil, Cut.prepend_nil, List.nil_append] at hkept

/-- Code is a single stretch. -/
theorem IsCode.eraseExpressionTypes_eq (h : IsCode w) :
    eraseExpressionTypes w = eraseFromStretch w := by
  have hcut := (h.passes_inert none []).cut_eq
  rw [eraseExpressionTypes, mapCode, hcut]
  exact List.append_nil _

/-- A script without declarations and dependency statements loses its signatures' types and then
those of its expressions. -/
theorem eraseTypes_of_passesLines (h : PassesLines none t [])
    (hs : PassesLines none (eraseSignatures t) []) :
    eraseTypes t = eraseExpressionTypes (eraseSignatures t) := by
  rw [eraseTypes, eraseDeclarations_eq_self h, hs.dependencies.cut_eq, Cut.render]
  exact List.append_nil _

end TypeSyntax

end PluginPack
