import PluginPack.Proofs.Registry.Literal
import PluginPack.Proofs.TypeSyntax.Spacing
import PluginPack.Proofs.Typed.Nested

/-!
# Type expressions

The types that annotations are made of: dotted names and string literals, arrays and type arguments,
unions and intersections, function types and object types, and types in parentheses. Names are of
ASCII characters. A tree says how a type is put together, and its text is nested text, so that the
steps which read types pass over it.
-/

namespace PluginPack

open Text Script TypeSyntax

namespace Typed

/-! ## Names and literals -/

/-- An identifier of ASCII characters. -/
structure Name where
  text : Text
  isIdentifier : Registry.isIdentifier text = true

/-- Identifiers with points between them. -/
structure DottedName where
  first : Name
  rest : List Name

/-- A string literal on one line. -/
structure StringLiteral where
  text : Text
  isString : Untyped.isString text = true
  line : '\n' ∉ text

def DottedName.text (n : DottedName) : Text := n.first.text ++ n.rest.flatMap fun m ↦ '.' :: m.text

/-- A character of a dotted name. -/
def isPathChar (c : Char) : Bool := Registry.isIdentifierChar c || c == '.'

variable {c : Char} {p p' q q' : Char → Bool}

theorem Name.ne_nil (n : Name) : n.text ≠ [] := by
  intro h
  have hn := n.isIdentifier
  rw [h] at hn
  cases hn

theorem Name.isIdentifierChar (n : Name) :
    ∀ c ∈ n.text, Registry.isIdentifierChar c = true := by
  obtain ⟨d, w, hw⟩ := List.exists_cons_of_ne_nil n.ne_nil
  have hn := n.isIdentifier
  rw [hw, Registry.isIdentifier, Bool.and_eq_true, List.all_eq_true] at hn
  have hstart : Registry.isIdentifierChar d = true := by
    have hd := hn.1
    rw [isNameStart, Bool.or_eq_true, Bool.or_eq_true] at hd
    rw [Registry.isIdentifierChar, Char.isAlphanum, Bool.or_eq_true, Bool.or_eq_true,
      Bool.or_eq_true]
    exact hd.imp_left fun h ↦ h.imp_left .inl
  rw [hw]
  exact List.forall_mem_cons.mpr ⟨hstart, hn.2⟩

theorem DottedName.isPathChar (n : DottedName) : ∀ c ∈ n.text, isPathChar c = true := by
  have hname (m : Name) : ∀ c ∈ m.text, Typed.isPathChar c = true := fun c hc ↦ by
    rw [Typed.isPathChar, m.isIdentifierChar c hc, Bool.true_or]
  intro c hc
  rw [text, List.mem_append, List.mem_flatMap] at hc
  rcases hc with hc | ⟨m, -, hc⟩
  · exact hname n.first c hc
  · rcases List.mem_cons.mp hc with rfl | hc
    · rfl
    · exact hname m c hc

theorem isOrdinary_of_isPathChar (h : isPathChar c = true) : isOrdinary c = true := by
  by_contra hnot
  have hmarks :
      c ∈ ['"', '\'', '\x60', '/', '(', ')', '[', ']', '{', '}', '<', '>', '=', '\n'] := by
    simp only [isOrdinary, Untyped.isPlain, Bool.and_eq_true, Bool.not_eq_true', bne_iff_ne,
      List.contains_eq_mem, decide_eq_false_iff_not, not_and_or, not_not] at hnot
    simp only [List.mem_cons, List.not_mem_nil, or_false] at hnot ⊢
    tauto
  have hall : ∀ d ∈ ['"', '\'', '\x60', '/', '(', ')', '[', ']', '{', '}', '<', '>', '=', '\n'],
      isPathChar d = false := by decide
  rw [hall c hmarks] at h
  cases h

theorem Nested.path (hp : ∀ c, isPathChar c = true → p c = true) (n : DottedName) :
    Nested q p n.text :=
  .of_ordinary fun c hc ↦ ⟨isOrdinary_of_isPathChar (n.isPathChar c hc), hp c (n.isPathChar c hc)⟩

theorem Nested.name (hp : ∀ c, isPathChar c = true → p c = true) (n : Name) :
    Nested q p n.text := by
  refine .of_ordinary fun c hc ↦ ?_
  have hchar : isPathChar c = true := by rw [isPathChar, n.isIdentifierChar c hc, Bool.true_or]
  exact ⟨isOrdinary_of_isPathChar hchar, hp c hchar⟩

theorem Nested.stringLiteral (hp : p '"' = true) (l : StringLiteral) : Nested q p l.text :=
  .of_isString l.isString l.line hp

/-! ## Classes of marks -/

/-- The marks outside brackets in a type. -/
def isTypeMark (c : Char) : Bool :=
  isPathChar c || [' ', '|', '&', '"', '(', '[', '{', '<', '>'].contains c

/-- The marks outside brackets in a type whose function types and object types stand inside. -/
def isClosedMark (c : Char) : Bool :=
  isPathChar c || [' ', '|', '&', '"', '(', '[', '<'].contains c

/-- The marks of the constraint of a type parameter. -/
def isConstraintMark (c : Char) : Bool := isPathChar c || [' ', '|', ',', '<'].contains c

/-- A class that the characters of names and the blank belong to. -/
def HoldsNames (p : Char → Bool) : Prop := ∀ c, isPathChar c = true ∨ c = ' ' → p c = true

theorem holdsNames_of_or {cs : List Char} (hblank : ' ' ∈ cs) :
    HoldsNames fun c ↦ isPathChar c || cs.contains c := by
  rintro c (hc | rfl)
  · simp [hc]
  · simp [hblank]

/-! ## Trees -/

/-- What stands between the fields of a list. -/
inductive Separator where
  | comma
  | semicolon
deriving DecidableEq, Repr

def Separator.char : Separator → Char
  | comma => ','
  | semicolon => ';'

/-- What joins two types. -/
inductive Joint where
  | union
  | intersection
deriving DecidableEq, Repr

def Joint.sign : Joint → Char
  | union => '|'
  | intersection => '&'

/-- What a tree stands for. -/
inductive Category where
  | type
  /-- The types between angle brackets. -/
  | arguments
  /-- Names with their types: the parameters of a function, or the members of an object. -/
  | fields (s : Separator)
deriving DecidableEq, Repr

inductive Tree : Category → Type
  | name (n : DottedName) : Tree .type
  | literal (l : StringLiteral) : Tree .type
  | array (t : Tree .type) : Tree .type
  | generic (n : DottedName) (ts : Tree .arguments) : Tree .type
  | joined (j : Joint) (t u : Tree .type) : Tree .type
  | group (t : Tree .type) : Tree .type
  | function (ps : Tree (.fields .comma)) (t : Tree .type) : Tree .type
  /-- An object type. A semicolon may stand behind the last member as well. -/
  | object (ms : Tree (.fields .semicolon)) (isClosed : Bool) : Tree .type
  | argument (t : Tree .type) : Tree .arguments
  | arguments (t : Tree .type) (ts : Tree .arguments) : Tree .arguments
  | noField {s : Separator} : Tree (.fields s)
  | field {s : Separator} (n : Name) (t : Tree .type) : Tree (.fields s)
  | fields {s : Separator} (n : Name) (t : Tree .type) (fs : Tree (.fields s)) : Tree (.fields s)

namespace Tree

variable {k : Category}

/-- The names of fields with commas between them, as they are left of parameters without types. -/
def names {k : Category} : Tree k → Text
  | field n _ => n.text
  | fields n _ fs => n.text ++ ',' :: ' ' :: fs.names
  | _ => []

/-- How a tree is written, with the types of the parameters of its function types or without. -/
def write (isTyped : Bool) {k : Category} : Tree k → Text
  | name n => n.text
  | literal l => l.text
  | array t => t.write isTyped ++ ['[', ']']
  | generic n ts => n.text ++ '<' :: (ts.write isTyped ++ ['>'])
  | joined j t u => t.write isTyped ++ ' ' :: j.sign :: ' ' :: u.write isTyped
  | group t => '(' :: (t.write isTyped ++ [')'])
  | function ps t =>
    '(' :: ((match isTyped with
      | true => ps.write true
      | false => ps.names) ++ ')' :: ' ' :: '=' :: '>' :: ' ' :: t.write isTyped)
  | object ms isClosed =>
    '{' :: (' ' :: ms.write isTyped ++ (if isClosed then [';', ' '] else [' ']) ++ ['}'])
  | argument t => t.write isTyped
  | arguments t ts => t.write isTyped ++ ',' :: ' ' :: ts.write isTyped
  | noField => []
  | field n t => n.text ++ ':' :: ' ' :: t.write isTyped
  | @fields s n t fs =>
    n.text ++ ':' :: ' ' :: (t.write isTyped ++ s.char :: ' ' :: fs.write isTyped)

/-- How a tree is written. -/
def text (t : Tree k) : Text := t.write true

/-- How a tree is written without the types of parameters. -/
def bare (t : Tree k) : Text := t.write false

/-! ## Trees are nested -/

/-- The marks of a tree are of the class `p` outside brackets and of the class `q` inside. -/
def Fits (q : Char → Bool) {k : Category} : Tree k → (Char → Bool) → Prop
  | name _, _ => True
  | literal _, p => p '"' = true
  | array t, p => p '[' = true ∧ t.Fits q p
  | generic _ ts, p => p '<' = true ∧ ts.Fits q q
  | joined j t u, p => p j.sign = true ∧ t.Fits q p ∧ u.Fits q p
  | group t, p => p '(' = true ∧ t.Fits q q
  | function ps t, p => p '(' = true ∧ p '>' = true ∧ ps.Fits q q ∧ t.Fits q p
  | object ms _, p => p '{' = true ∧ q ';' = true ∧ ms.Fits q q
  | argument t, p => t.Fits q p
  | arguments t ts, p => p ',' = true ∧ t.Fits q p ∧ ts.Fits q p
  | noField, _ => True
  | field _ t, p => p ':' = true ∧ t.Fits q p
  | @fields s _ t fs, p => p ':' = true ∧ p s.char = true ∧ t.Fits q p ∧ fs.Fits q p

theorem nested_names {t : Tree k} (h : t.Fits q p) (hk : k = .fields .comma)
    (hp : HoldsNames p) : Nested q p t.names := by
  have hname (n : Name) : Nested q p n.text := .name (fun c hc ↦ hp c (.inl hc)) n
  induction t with
  | noField => exact .nil
  | field n => exact hname n
  | fields n t fs _ ih =>
    cases hk
    exact (hname n).append (.ordinary rfl h.2.1 (.ordinary rfl (hp _ (.inr rfl)) (ih h.2.2.2 rfl)))
  | _ => cases hk

theorem nested {t : Tree k} (h : t.Fits q p) (hq : HoldsNames q) (hp : HoldsNames p)
    (isTyped : Bool) : Nested q p (t.write isTyped) := by
  have hblank {p r} (hp : HoldsNames p) (hr : Nested q p r) : Nested q p (' ' :: r) :=
    .ordinary rfl (hp _ (.inr rfl)) hr
  have hname {p} (hp : HoldsNames p) : ∀ c, isPathChar c = true → p c = true :=
    fun c hc ↦ hp c (.inl hc)
  induction t generalizing p with
  | name n => exact .path (hname hp) n
  | literal l => exact .stringLiteral h l
  | array t ih => exact (ih h.2 hp).append (.brackets .square h.1 .nil)
  | generic n ts ih => exact (Nested.path (hname hp) n).append (.brackets .angle h.1 (ih h.2 hq))
  | joined j t u iht ihu =>
    refine (iht h.2.1 hp).append (hblank hp (.ordinary ?_ h.1 (hblank hp (ihu h.2.2 hp))))
    cases j <;> rfl
  | group t ih => exact .brackets .round h.1 (ih h.2 hq)
  | function ps t ihps iht =>
    refine .group .round h.1 ?_ (hblank hp (.arrow h.2.1 (hblank hp (iht h.2.2.2 hp))))
    cases isTyped with
    | true => exact ihps h.2.2.1 hq
    | false => exact nested_names h.2.2.1 rfl hq
  | object ms isClosed ih =>
    have hend : Nested q q (if isClosed then [';', ' '] else [' ']) := by
      cases isClosed with
      | true => exact .ordinary rfl h.2.1 (hblank hq .nil)
      | false => exact hblank hq .nil
    exact .brackets .brace h.1 ((hblank hq (ih h.2.2 hq)).append hend)
  | argument t ih => exact ih h hp
  | arguments t ts iht ihts =>
    exact (iht h.2.1 hp).append (.ordinary rfl h.1 (hblank hp (ihts h.2.2 hp)))
  | noField => exact .nil
  | field n t ih =>
    exact (Nested.name (hname hp) n).append (.ordinary rfl h.1 (hblank hp (ih h.2 hp)))
  | @fields s n t fs iht ihfs =>
    refine (Nested.name (hname hp) n).append (.ordinary rfl h.1 (hblank hp ?_))
    refine (iht h.2.2.1 hp).append (.ordinary ?_ h.2.1 (hblank hp (ihfs h.2.2.2 hp)))
    cases s <;> rfl

/-! ## Types -/

theorem fits_anyMark (t : Tree k) : t.Fits anyMark anyMark := by
  induction t <;> simp_all [Fits, anyMark]

theorem fits_isTypeMark (t : Tree k) (hk : k = .type) : t.Fits anyMark isTypeMark := by
  induction t with
  | name => trivial
  | literal => rfl
  | array t ih => exact ⟨rfl, ih rfl⟩
  | generic n ts => exact ⟨rfl, fits_anyMark ts⟩
  | joined j t u iht ihu => exact ⟨by cases j <;> rfl, iht rfl, ihu rfl⟩
  | group t => exact ⟨rfl, fits_anyMark t⟩
  | function ps t _ iht => exact ⟨rfl, rfl, fits_anyMark ps, iht rfl⟩
  | object ms => exact ⟨rfl, rfl, fits_anyMark ms⟩
  | _ => cases hk

theorem nested_anyMark (t : Tree k) : Nested anyMark anyMark t.text :=
  nested (fits_anyMark t) (fun _ _ ↦ rfl) (fun _ _ ↦ rfl) true

theorem nested_type (t : Tree .type) : Nested anyMark isTypeMark t.text :=
  nested (fits_isTypeMark t rfl) (fun _ _ ↦ rfl) (holdsNames_of_or (by decide)) true

/-! ## Return types -/

/-- Whether every function type and every object type of a type stands inside brackets. -/
def isClosed {k : Category} : Tree k → Bool
  | name _ | literal _ | generic _ _ | group _ => true
  | array t => t.isClosed
  | joined _ t u => t.isClosed && u.isClosed
  | _ => false

theorem nested_closed {t : Tree k} (h : t.isClosed = true) :
    Nested anyMark isClosedMark t.text := by
  refine nested ?_ (fun _ _ ↦ rfl) (holdsNames_of_or (by decide)) true
  induction t with
  | name => trivial
  | literal => rfl
  | array t ih => exact ⟨rfl, ih h⟩
  | generic n ts => exact ⟨rfl, fits_anyMark ts⟩
  | joined j t u iht ihu =>
    rw [isClosed, Bool.and_eq_true] at h
    exact ⟨by cases j <;> rfl, iht h.1, ihu h.2⟩
  | group t => exact ⟨rfl, fits_anyMark t⟩
  | _ => cases h

/-! ## Constraints of type parameters -/

/-- Whether a type is built from names, unions and type arguments. -/
def isConstraint {k : Category} : Tree k → Bool
  | name _ => true
  | generic _ ts => ts.isConstraint
  | joined j t u => j == .union && t.isConstraint && u.isConstraint
  | argument t => t.isConstraint
  | arguments t ts => t.isConstraint && ts.isConstraint
  | _ => false

theorem nested_constraint {t : Tree k} (h : t.isConstraint = true) :
    Nested isConstraintMark isConstraintMark t.text := by
  have hnames : HoldsNames isConstraintMark := holdsNames_of_or (by decide)
  refine nested ?_ hnames hnames true
  induction t with
  | name => trivial
  | generic n ts ih => exact ⟨rfl, ih h⟩
  | joined j t u iht ihu =>
    rw [isConstraint, Bool.and_eq_true, Bool.and_eq_true, beq_iff_eq] at h
    obtain ⟨⟨rfl, ht⟩, hu⟩ := h
    exact ⟨rfl, iht ht, ihu hu⟩
  | argument t ih => exact ih h
  | arguments t ts iht ihts =>
    rw [isConstraint, Bool.and_eq_true] at h
    exact ⟨rfl, iht h.1, ihts h.2⟩
  | _ => cases h

/-! ## Types without literals -/

/-- Whether a type holds no literal, and no parentheses but those of parameters. -/
def isCode {k : Category} : Tree k → Bool
  | literal _ | group _ => false
  | name _ | noField => true
  | array t | argument t | field _ t => t.isCode
  | generic _ ts => ts.isCode
  | object ms _ => ms.isCode
  | joined _ t u => t.isCode && u.isCode
  | function ps t => ps.isCode && t.isCode
  | arguments t ts => t.isCode && ts.isCode
  | fields _ t fs => t.isCode && fs.isCode

/-- The marks of such a type. -/
def isCodeMark (c : Char) : Bool := c != '"'

theorem fits_isCodeMark {t : Tree k} (h : t.isCode = true) : t.Fits isCodeMark isCodeMark := by
  induction t with
  | literal => cases h
  | group => cases h
  | joined j => cases j <;> simp_all [isCode, Fits, isCodeMark, Joint.sign]
  | @fields s => cases s <;> simp_all [isCode, Fits, isCodeMark, Separator.char]
  | _ => simp_all [isCode, Fits, isCodeMark]

theorem fits_code {t : Tree k} (h : t.isCode = true) (hk : k = .type) :
    t.Fits isCodeMark fun c ↦ isTypeMark c && isCodeMark c := by
  induction t with
  | name => trivial
  | array t ih => exact ⟨rfl, ih h rfl⟩
  | generic n ts => exact ⟨rfl, fits_isCodeMark h⟩
  | joined j t u iht ihu =>
    rw [isCode, Bool.and_eq_true] at h
    exact ⟨by cases j <;> rfl, iht h.1 rfl, ihu h.2 rfl⟩
  | function ps t _ iht =>
    rw [isCode, Bool.and_eq_true] at h
    exact ⟨rfl, rfl, fits_isCodeMark h.1, iht h.2 rfl⟩
  | object ms => exact ⟨rfl, rfl, fits_isCodeMark h⟩
  | literal => cases h
  | group => cases h
  | _ => cases hk

theorem nested_bare {t : Tree .type} (h : t.isCode = true) :
    Nested isCodeMark (fun c ↦ isTypeMark c && isCodeMark c) t.bare := by
  have hquote {c : Char} (hc : isPathChar c = true ∨ c = ' ') : isCodeMark c = true := by
    rw [isCodeMark, bne_iff_ne]
    rintro rfl
    rcases hc with hc | hc <;> cases hc
  refine nested (fits_code h rfl) (fun c hc ↦ hquote hc) (fun c hc ↦ ?_) false
  have htype : isTypeMark c = true := holdsNames_of_or (by decide) c hc
  simp [htype, hquote hc]

end Tree

end Typed

end PluginPack
