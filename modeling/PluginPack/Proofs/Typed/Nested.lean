import PluginPack.Proofs.Untyped.Tail
import PluginPack.TypeSyntax.Annotation

/-!
# Nested text

Typed code in which every bracket is closed, angle brackets among them. The steps that read types
and parameter lists count brackets differently: some pass over arrows and literals, some end at a
character outside brackets, and one does not count angle brackets. What they have in common is said
once: a step that goes on over the marks of a nested text goes on over the whole text.
-/

namespace PluginPack

open Text Script TypeSyntax

namespace Typed

open Untyped (attach attach_attach attach_nil isString)

variable {c : Char} {d : Nat} {l r u v w : Text} {p p' q q' : Char → Bool}

/-! ## Brackets -/

inductive Delimiter where
  | round
  | square
  | brace
  | angle
deriving DecidableEq, Repr

namespace Delimiter

def opening : Delimiter → Char
  | round => '('
  | square => '['
  | brace => '{'
  | angle => '<'

def closing : Delimiter → Char
  | round => ')'
  | square => ']'
  | brace => '}'
  | angle => '>'

end Delimiter

/-! ## Nested text -/

/-- A character that no step takes for the beginning of something: no quote, no slash, no bracket,
no equals sign and no newline. -/
def isOrdinary (c : Char) : Bool := Untyped.isPlain c && c != '=' && c != '\n'

/-- Text with closed brackets and literals. Outside brackets only marks of the class `p` stand, and
inside brackets only marks of the class `q`. An ordinary character and an opening bracket are their
own marks; the mark of an arrow is its tip, and the mark of a literal is the double quote. -/
inductive Nested (q : Char → Bool) : (Char → Bool) → Text → Prop
  | nil {p : Char → Bool} : Nested q p []
  | ordinary {p : Char → Bool} {c : Char} {r : Text} :
      isOrdinary c = true → p c = true → Nested q p r → Nested q p (c :: r)
  | equals {p : Char → Bool} {r : Text} :
      p '=' = true → r.head? = some ' ' → Nested q p r → Nested q p ('=' :: r)
  | arrow {p : Char → Bool} {r : Text} :
      p '>' = true → Nested q p r → Nested q p ('=' :: '>' :: r)
  | literal {p : Char → Bool} {l r : Text} :
      isString l = true → '\n' ∉ l → p '"' = true → Nested q p r → Nested q p (l ++ r)
  | group {p : Char → Bool} {w r : Text} (b : Delimiter) :
      p b.opening = true → Nested q q w → Nested q p r →
        Nested q p (b.opening :: (w ++ b.closing :: r))

/-- The class of all marks. -/
def anyMark (_ : Char) : Bool := true

theorem head?_append_of_eq (h : w.head? = some c) (r : Text) : (w ++ r).head? = some c := by
  rw [List.head?_append, h]
  rfl

theorem Nested.append (hu : Nested q p u) (hv : Nested q p v) : Nested q p (u ++ v) := by
  induction hu with
  | nil => exact hv
  | ordinary hc hp _ ih => exact .ordinary hc hp (ih hv)
  | equals hp hhead _ ih => exact .equals hp (head?_append_of_eq hhead v) (ih hv)
  | arrow hp _ ih => exact .arrow hp (ih hv)
  | literal hl hline hp _ ih =>
    rw [List.append_assoc]
    exact .literal hl hline hp (ih hv)
  | group b hp hw _ _ ih =>
    rw [List.cons_append, List.append_assoc]
    exact .group b hp hw (ih hv)

/-- The classes of the marks may be widened. -/
theorem Nested.mono (h : Nested q p w) (hq : ∀ c, q c = true → q' c = true)
    (hp : ∀ c, p c = true → p' c = true) : Nested q' p' w := by
  induction h generalizing p' with
  | nil => exact .nil
  | ordinary hc hmark _ ih => exact .ordinary hc (hp _ hmark) (ih hp)
  | equals hmark hhead _ ih => exact .equals (hp _ hmark) hhead (ih hp)
  | arrow hmark _ ih => exact .arrow (hp _ hmark) (ih hp)
  | literal hl hline hmark _ ih => exact .literal hl hline (hp _ hmark) (ih hp)
  | group b hmark _ _ ihw ih => exact .group b (hp _ hmark) (ihw hq) (ih hp)

theorem Nested.of_ordinary (hw : ∀ c ∈ w, isOrdinary c = true ∧ p c = true) : Nested q p w := by
  induction w with
  | nil => exact .nil
  | cons c w ih =>
    obtain ⟨hc, hw⟩ := List.forall_mem_cons.mp hw
    exact .ordinary hc.1 hc.2 (ih hw)

theorem Nested.of_isString (hl : isString l = true) (hline : '\n' ∉ l) (hp : p '"' = true) :
    Nested q p l := by
  rw [← List.append_nil l]
  exact .literal hl hline hp .nil

theorem Nested.brackets (b : Delimiter) (hp : p b.opening = true) (hw : Nested q q w) :
    Nested q p (b.opening :: (w ++ [b.closing])) :=
  .group b hp hw .nil

theorem Nested.not_mem (h : Nested q p w) : '\n' ∉ w := by
  induction h with
  | nil => exact List.not_mem_nil
  | @ordinary _ c _ hc _ _ ih =>
    rw [isOrdinary, Bool.and_eq_true, bne_iff_ne] at hc
    simp [ih, Ne.symm hc.2]
  | equals _ _ _ ih => simp [ih]
  | arrow _ _ ih => simp [ih]
  | literal _ hline _ _ ih => simp [hline, ih]
  | group b _ _ _ ihw ih => cases b <;> simp [Delimiter.opening, Delimiter.closing, ihw, ih]

/-! ## Steps over nested text -/

variable {σ β : Type}

/-- A step that goes on over the marks it takes. It is in a state; `enter` is the state behind an
opening bracket, from which the closing bracket leads back. -/
structure Scans (enter : Delimiter → σ → σ) (takes : σ → Char → Bool)
    (f : σ → Text → Option (Text × β)) : Prop where
  ordinary : ∀ {s c} r, isOrdinary c = true → takes s c = true → f s (c :: r) = attach [c] (f s r)
  equals : ∀ {s} r, takes s '=' = true → r.head? = some ' ' →
    f s ('=' :: r) = attach ['='] (f s r)
  arrow : ∀ {s} r, takes s '>' = true → f s ('=' :: '>' :: r) = attach ['=', '>'] (f s r)
  literal : ∀ {s l} r, isString l = true → takes s '"' = true → f s (l ++ r) = attach l (f s r)
  opening : ∀ {s b} r, takes s b.opening = true →
    f s (b.opening :: r) = attach [b.opening] (f (enter b s) r)
  closing : ∀ {s b} r, f (enter b s) (b.closing :: r) = attach [b.closing] (f s r)

/-- **Nested text is passed over** by a step that takes its marks. -/
theorem Scans.nested {enter : Delimiter → σ → σ} {takes : σ → Char → Bool}
    {f : σ → Text → Option (Text × β)} (hf : Scans enter takes f) (h : Nested q p w) {s : σ}
    (hp : ∀ c, p c = true → takes s c = true)
    (hq : ∀ b s c, q c = true → takes (enter b s) c = true) (r : Text) :
    f s (w ++ r) = attach w (f s r) := by
  induction h generalizing s r with
  | nil => rw [List.nil_append, attach_nil]
  | ordinary hc hmark _ ih =>
    rw [List.cons_append, hf.ordinary _ hc (hp _ hmark), ih hp, attach_attach,
      List.singleton_append]
  | equals hmark hhead _ ih =>
    rw [List.cons_append, hf.equals _ (hp _ hmark) (head?_append_of_eq hhead r), ih hp,
      attach_attach, List.singleton_append]
  | arrow hmark _ ih =>
    rw [List.cons_append, List.cons_append, hf.arrow _ (hp _ hmark), ih hp, attach_attach]
    rfl
  | literal hl _ hmark _ ih =>
    rw [List.append_assoc, hf.literal _ hl (hp _ hmark), ih hp, attach_attach]
  | group b hmark _ _ ihw ih =>
    rw [List.cons_append, List.append_assoc, List.cons_append, hf.opening _ (hp _ hmark),
      ihw (hq b s), hf.closing, ih hp, attach_attach, attach_attach, attach_attach]
    simp only [List.nil_append, List.cons_append, List.append_assoc]

/-! ## Characters -/

theorem isPlain_of_isOrdinary (h : isOrdinary c = true) : Untyped.isPlain c = true := by
  rw [isOrdinary, Bool.and_eq_true, Bool.and_eq_true] at h
  exact h.1.1

theorem ne_equals_of_isOrdinary (h : isOrdinary c = true) : c ≠ '=' := by
  rw [isOrdinary, Bool.and_eq_true, Bool.and_eq_true, bne_iff_ne] at h
  exact h.1.2

theorem inert?_opening (b : Delimiter) (r : Text) : inert? (b.opening :: r) = none := by
  cases b <;> rfl

theorem inert?_closing (b : Delimiter) (r : Text) : inert? (b.closing :: r) = none := by
  cases b <;> rfl

theorem opensNesting_opening (b : Delimiter) : opensNesting b.opening = true := by cases b <;> rfl

theorem opensNesting_closing (b : Delimiter) : opensNesting b.closing = false := by cases b <;> rfl

theorem closesNesting_closing (b : Delimiter) : closesNesting b.closing = true := by cases b <;> rfl

/-! ## The end of a bracket -/

/-- Behind an opening bracket one more bracket is open, unless it is an angle bracket. -/
def deepen (b : Delimiter) (d : Nat) : Nat := if b = .angle then d else d + 1

/-- The step that looks for the end of a bracket takes everything, while a bracket is open. -/
theorem scans_splitClosing? :
    Scans deepen (fun _ _ ↦ true) fun d t ↦ splitClosing? (d + 1) t where
  ordinary r hc _ := Untyped.splitClosing?_cons
    (Untyped.inert?_of_isPlain (isPlain_of_isOrdinary hc) r)
    (Untyped.isOpening_of_isPlain (isPlain_of_isOrdinary hc))
    (Untyped.isClosing_of_isPlain (isPlain_of_isOrdinary hc))
  equals r _ _ := Untyped.splitClosing?_cons rfl rfl rfl
  arrow r _ := by
    rw [Untyped.splitClosing?_cons rfl rfl rfl, Untyped.splitClosing?_cons rfl rfl rfl,
      attach_attach]
    rfl
  literal r hl _ := Untyped.splitClosing?_inert (Untyped.inert?_append_of_isString hl r)
  opening {_ b} r _ := by
    cases b with
    | angle => exact Untyped.splitClosing?_cons rfl rfl rfl
    | _ => exact Untyped.splitClosing?_opening rfl rfl
  closing {d b} r := by
    have hround (c : Char) (hc : isClosing c = true) (ho : isOpening c = false)
        (hinert : inert? (c :: r) = none) :
        splitClosing? (d + 1 + 1) (c :: r) = attach [c] (splitClosing? (d + 1) r) := by
      rw [Untyped.splitClosing?_closing hinert ho hc, if_neg (by omega)]
      rfl
    cases b with
    | angle => exact Untyped.splitClosing?_cons rfl rfl rfl
    | round => exact hround ')' rfl rfl rfl
    | square => exact hround ']' rfl rfl rfl
    | brace => exact hround '}' rfl rfl rfl

theorem splitClosing?_nested (h : Nested q p w) (d : Nat) (r : Text) :
    splitClosing? (d + 1) (w ++ r) = attach w (splitClosing? (d + 1) r) :=
  scans_splitClosing?.nested h (fun _ _ ↦ rfl) (fun _ _ _ _ ↦ rfl) r

/-- The parenthesis behind nested text is found. -/
theorem closeParen?_nested (h : Nested q p w) (r : Text) :
    closeParen? (w ++ ')' :: r) = some (w, r) :=
  Untyped.closeParen?_of_attach (splitClosing?_nested h 0 (')' :: r))

/-! ## Characters outside brackets -/

/-- The step that looks for a character outside brackets takes the other characters there. -/
theorem scans_splitTopLevel? (p' : Char → Bool) :
    Scans (fun _ d ↦ d + 1) (fun d c ↦ d != 0 || !p' c) fun d t ↦ splitTopLevel? p' d t where
  ordinary {d c} r hc htakes := by
    refine Untyped.splitTopLevel?_cons (Untyped.inert?_of_isPlain (isPlain_of_isOrdinary hc) r)
      (fun h ↦ ne_equals_of_isOrdinary hc h.1)
      (Untyped.opensNesting_of_isPlain (isPlain_of_isOrdinary hc))
      (Untyped.closesNesting_of_isPlain (isPlain_of_isOrdinary hc)) ?_
    rw [Bool.or_eq_true, Bool.not_eq_true', bne_iff_ne] at htakes
    rcases htakes with hd | hc
    · rw [beq_eq_false_iff_ne.mpr hd, Bool.and_false]
    · rw [hc, Bool.false_and]
  equals {d} r htakes hhead := by
    refine Untyped.splitTopLevel?_single_equals ?_ ?_
    · rintro rfl
      simpa using htakes
    · rw [Untyped.StopsEquals, hhead]
      simp
  arrow r _ := Untyped.splitTopLevel?_equals (.inl rfl)
  literal r hl _ := Untyped.splitTopLevel?_inert (Untyped.inert?_append_of_isString hl r)
  opening {_ b} r _ := Untyped.splitTopLevel?_opens (inert?_opening b r) (by cases b <;> decide)
    (opensNesting_opening b)
  closing {_ b} r := Untyped.splitTopLevel?_closes (inert?_closing b r) (by cases b <;> decide)
    (opensNesting_closing b) (closesNesting_closing b)

theorem splitTopLevel?_nested (h : Nested q p w) (hp : ∀ c, p c = true → p' c = false) (r : Text) :
    splitTopLevel? p' 0 (w ++ r) = attach w (splitTopLevel? p' 0 r) := by
  refine (scans_splitTopLevel? p').nested h (fun c hc ↦ ?_) (fun _ _ _ _ ↦ ?_) r
  · simp [hp c hc]
  · simp

theorem splitTopLevel?_nested_eq_none (h : Nested q p w) (hp : ∀ c, p c = true → p' c = false) :
    splitTopLevel? p' 0 w = none := by
  rw [← List.append_nil w, splitTopLevel?_nested h hp, splitTopLevel?]
  rfl

/-- The first character of a class stands behind nested text without it. -/
theorem splitTopLevel?_nested_found (h : Nested q p w) (hp : ∀ c, p c = true → p' c = false)
    (hc : isOrdinary c = true) (hfound : p' c = true) (r : Text) :
    splitTopLevel? p' 0 (w ++ c :: r) = some (w, c :: r) := by
  have hplain := isPlain_of_isOrdinary hc
  rw [splitTopLevel?_nested h hp, Untyped.splitTopLevel?_found (Untyped.inert?_of_isPlain hplain r)
    (fun h ↦ ne_equals_of_isOrdinary hc h.1) (Untyped.opensNesting_of_isPlain hplain)
    (Untyped.closesNesting_of_isPlain hplain) hfound, Untyped.attach_some, List.append_nil]

/-! ## Return types -/

/-- The marks that may stand outside brackets in a return type. -/
def isReturnMark (c : Char) : Bool :=
  isReturnTypeChar c || c == '"' || c == '(' || c == '[' || c == '<'

/-- The step that reads a return type ends outside brackets at a brace and at an arrow. -/
theorem scans_returnType? :
    Scans (fun _ d ↦ d + 1) (fun d c ↦ d != 0 || isReturnMark c) returnType? where
  ordinary {d c} r hc htakes := by
    have hplain := isPlain_of_isOrdinary hc
    rw [Untyped.returnType?_cons (fun h ↦ ne_equals_of_isOrdinary hc h.1) hplain, if_neg]
    rintro ⟨rfl, hchar⟩
    simp only [bne_self_eq_false, Bool.false_or, isReturnMark, Bool.or_eq_true, beq_iff_eq,
      hchar] at htakes
    rcases htakes with ((rfl | rfl) | rfl) | rfl <;> cases hplain
  equals {d} r htakes hhead := by
    rw [Untyped.returnType?_cons (by simp [hhead]) rfl, if_neg]
    rintro ⟨rfl, -⟩
    cases htakes
  arrow {d} r htakes := by
    rw [Untyped.returnType?_arrow, if_neg]
    rintro rfl
    cases htakes
  literal r hl _ := Untyped.returnType?_string hl _ r
  opening {d b} r htakes := by
    cases b with
    | brace =>
      have hd : d ≠ 0 := by
        rintro rfl
        cases htakes
      exact (Untyped.returnType?_opening .brace d r).trans (if_neg fun h ↦ hd h.1)
    | round => exact (Untyped.returnType?_opening .call d r).trans (if_neg fun h ↦ by cases h.2)
    | square => exact (Untyped.returnType?_opening .square d r).trans (if_neg fun h ↦ by cases h.2)
    | angle =>
      rw [Delimiter.opening, returnType?]
      simp [opensNesting, isOpening, attach]
  closing {d b} r := by
    cases b with
    | brace => exact (Untyped.returnType?_closing .brace _ r).trans (if_neg (by omega))
    | round => exact (Untyped.returnType?_closing .call _ r).trans (if_neg (by omega))
    | square => exact (Untyped.returnType?_closing .square _ r).trans (if_neg (by omega))
    | angle =>
      rw [Delimiter.closing, returnType?]
      simp [opensNesting, closesNesting, isOpening, isClosing, attach]

theorem returnType?_nested (h : Nested q p w) (hp : ∀ c, p c = true → isReturnMark c = true)
    (r : Text) : returnType? 0 (w ++ r) = attach w (returnType? 0 r) :=
  scans_returnType?.nested h (fun c hc ↦ by simp [hp c hc]) (fun _ _ _ _ ↦ by simp) r

/-! ## Annotations -/

theorem annotation?_cons (harrow : ¬(c = '=' ∧ r.head? = some '>')) :
    annotation? d (c :: r) =
      if opensNesting c then (annotation? (d + 1) r).map (c :: ·)
      else if closesNesting c then
        if d = 0 then none else (annotation? (d - 1) r).map (c :: ·)
      else if endsAnnotation c && d == 0 then some []
      else (annotation? d r).map (c :: ·) := by
  rw [annotation?]
  rintro r' rfl rfl
  exact harrow ⟨rfl, rfl⟩

/-- What is read of an annotation, in the form of the other steps. -/
def annotationStep (d : Nat) (t : Text) : Option (Text × Unit) := (annotation? d t).map (·, ())

theorem attach_annotationStep (w : Text) (d : Nat) (t : Text) :
    ((annotation? d t).map (w ++ ·)).map (·, ()) = attach w (annotationStep d t) := by
  cases h : annotation? d t <;> simp [annotationStep, h]

/-- Whether an annotation goes on at a mark inside so many brackets: it ends outside brackets, and
literals are not known in it. -/
def goesOn (d : Nat) (c : Char) : Bool := !(d == 0 && endsAnnotation c) && c != '"'

theorem goesOn_succ (d : Nat) (hc : c ≠ '"') : goesOn (d + 1) c = true := by simp [goesOn, hc]

theorem scans_annotation? : Scans (fun _ d ↦ d + 1) goesOn annotationStep where
  ordinary {d c} r hc htakes := by
    have hplain := isPlain_of_isOrdinary hc
    have hbrackets : opensNesting c = false ∧ closesNesting c = false :=
      ⟨Untyped.opensNesting_of_isPlain hplain, Untyped.closesNesting_of_isPlain hplain⟩
    rw [goesOn, Bool.and_eq_true, Bool.not_eq_true', Bool.and_comm] at htakes
    rw [← attach_annotationStep, annotationStep,
      annotation?_cons fun h ↦ ne_equals_of_isOrdinary hc h.1, hbrackets.1, hbrackets.2, htakes.1]
    rfl
  equals {d} r htakes hhead := by
    have hd : (d == 0) = false := by
      rw [beq_eq_false_iff_ne]
      rintro rfl
      cases htakes
    rw [← attach_annotationStep, annotationStep, annotation?_cons (by simp [hhead]), hd,
      Bool.and_false]
    rfl
  arrow {d} r _ := by
    rw [← attach_annotationStep, annotationStep, annotation?]
    rfl
  literal r hl htakes := by simp [goesOn] at htakes
  opening {d b} r _ := by
    rw [← attach_annotationStep, annotationStep,
      annotation?_cons (by cases b <;> simp [Delimiter.opening])]
    cases b <;> rfl
  closing {d b} r := by
    rw [← attach_annotationStep, annotationStep,
      annotation?_cons (by cases b <;> simp [Delimiter.closing])]
    cases b <;> rfl

/-- An annotation goes on over nested text without literals. -/
theorem annotation?_nested (h : Nested q p w)
    (hp : ∀ c, p c = true → endsAnnotation c = false ∧ c ≠ '"') (hq : q '"' = false) (r : Text) :
    annotation? 0 (w ++ r) = (annotation? 0 r).map (w ++ ·) := by
  have hinner : ∀ (b : Delimiter) (d : Nat) (c : Char), q c = true → goesOn (d + 1) c = true := by
    refine fun _ d c hc ↦ goesOn_succ d ?_
    rintro rfl
    rw [hq] at hc
    cases hc
  have hstep : annotationStep 0 (w ++ r) = attach w (annotationStep 0 r) :=
    scans_annotation?.nested h (fun c hc ↦ by simp [goesOn, hp c hc]) hinner r
  rw [← attach_annotationStep] at hstep
  exact Option.map_injective (fun _ _ heq ↦ (Prod.mk.inj heq).1) hstep

/-! ## Type parameters -/

/-- The marks that a list of type parameters may hold, read backwards. -/
def isParameterMark (c : Char) : Bool :=
  c == '<' || !(c == ';' || c == '{' || c == '(' || c == '=' || c == '>' || c == '"')

/-- Read backwards, nested text is passed over. -/
theorem openAngle?_nested (h : Nested q p w) (hp : ∀ c, p c = true → isParameterMark c = true)
    (hq : ∀ c, q c = true → isParameterMark c = true) (d : Nat) (r : Text) :
    openAngle? (d + 1) (w.reverse ++ r) = openAngle? (d + 1) r := by
  induction h generalizing d r with
  | nil => rfl
  | @ordinary _ c _ hc hmark _ ih =>
    have hplain : ¬(c = '>') ∧ ¬(c = '<') ∧ ¬(c = ';' ∨ c = '{' ∨ c = '}' ∨ c = '(' ∨ c = ')' ∨
        c = '=' ∨ c = '\n') := by
      have hparameter := hp c hmark
      refine ⟨?_, ?_, ?_⟩
      · rintro rfl
        cases hc
      · rintro rfl
        cases hc
      · rintro (rfl | rfl | rfl | rfl | rfl | rfl | rfl)
        · cases hparameter
        all_goals cases hc
    rw [List.reverse_cons, List.append_assoc, ih hp, List.singleton_append, openAngle?,
      if_neg hplain.1, if_neg hplain.2.1, if_neg hplain.2.2]
  | equals hmark => cases hp _ hmark
  | arrow hmark => cases hp _ hmark
  | literal _ _ hmark => cases hp _ hmark
  | group b hmark _ _ ihw ih =>
    rw [List.reverse_cons, List.reverse_append, List.reverse_cons, List.append_assoc,
      List.append_assoc, List.append_assoc, ih hp]
    cases b with
    | round => cases hp _ hmark
    | brace => cases hp _ hmark
    | square =>
      rw [List.singleton_append, Delimiter.closing, openAngle?, if_neg (by decide),
        if_neg (by decide), if_neg (by decide), ihw hq]
      rfl
    | angle =>
      rw [List.singleton_append, Delimiter.closing, openAngle?, if_pos rfl, ihw hq]
      simp [Delimiter.opening, openAngle?]

end Typed

end PluginPack
