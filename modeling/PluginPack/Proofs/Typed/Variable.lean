import Mathlib.Algebra.Order.BigOperators.Group.List
import Mathlib.Algebra.Order.Group.Nat
import PluginPack.Proofs.Typed.Rewriting

/-!
# Declarations of variables with types

A declaration of several variables on one line, each perhaps with a type and a value. An annotation
is found from the word that declares, so only the first variable loses its type; in the types of the
others the parameters of function types lose their own. So a declaration is left without types
exactly when no variable but the first has one.
-/

namespace PluginPack

open Text Script TypeSyntax

namespace Typed

variable {c : Char} {before kept r v w : Text} {p q : Char → Bool}

/-! ## Expressions -/

/-- A name of word characters and dollar signs. -/
structure Word where
  text : Text
  ne_nil : text ≠ []
  chars : ∀ c ∈ text, isNameChar c = true

/-- What a variable is set to: a name, a number, a call or a list in brackets. With the index `true`
an expression is a list of expressions. -/
inductive Expression : Bool → Type
  | name (n : Word) : Expression false
  | number (n : Number) : Expression false
  | call (n : Word) (xs : Expression true) : Expression false
  | list (xs : Expression true) : Expression false
  | none : Expression true
  | one (x : Expression false) : Expression true
  | more (x : Expression false) (xs : Expression true) : Expression true

/-- How an expression is written. -/
def Expression.text {b : Bool} : Expression b → Text
  | name n => n.text
  | number n => n.text
  | call n xs => n.text ++ '(' :: (xs.text ++ [')'])
  | list xs => '[' :: (xs.text ++ [']'])
  | none => []
  | one x => x.text
  | more x xs => x.text ++ (',' :: ' ' :: xs.text)

theorem Word.isOrdinary (n : Word) : ∀ c ∈ n.text, Typed.isOrdinary c = true := by
  intro c hc
  have hchar := n.chars c hc
  have hplain := Untyped.isPlain_of_isIdentifierChar (Untyped.isIdentifierChar_of_isNameChar hchar)
  rw [Typed.isOrdinary, hplain, Bool.true_and, Bool.and_eq_true, bne_iff_ne, bne_iff_ne]
  constructor <;> rintro rfl <;> cases hchar

theorem Expression.nested {b : Bool} (x : Expression b) : Nested anyMark anyMark x.text := by
  have hword (n : Word) : Nested anyMark anyMark n.text :=
    .of_ordinary fun c hc ↦ ⟨n.isOrdinary c hc, rfl⟩
  induction x with
  | name n => exact hword n
  | number n => exact .of_ordinary fun c hc ↦ ⟨(n.isOrdinary c hc).1, rfl⟩
  | call n xs ih => exact (hword n).append (.brackets .round rfl ih)
  | list xs ih => exact .brackets .square rfl ih
  | none => exact .nil
  | one x ih => exact ih
  | more x xs ihx ihxs => exact ihx.append (.ordinary rfl rfl (.ordinary rfl rfl ihxs))

/-- What may stand behind an expression: nothing that makes parameters of the arguments of a call.
-/
theorem tail?_eq_none (h : ∀ c ∈ r.head?, c ∈ [',', ';', ')', ']']) : tail? r = none := by
  cases r with
  | nil => rfl
  | cons c r =>
    have hc := h c rfl
    simp only [List.mem_cons, List.not_mem_nil, or_false] at hc
    rcases hc with rfl | rfl | rfl | rfl <;> rfl

theorem guards_word (n : Word) : Guards n.text := by
  obtain ⟨c, hc⟩ := Option.ne_none_iff_exists'.mp (mt List.getLast?_eq_none_iff.mp n.ne_nil)
  have hchar := n.chars c (List.mem_of_mem_getLast? hc)
  obtain ⟨w, hw⟩ := List.getLast?_eq_some_iff.mp hc
  rw [hw]
  refine guards_concat w (isWhite_of_isNameChar hchar) ?_
  rintro rfl
  cases hchar

theorem inert_word (n : Word) : Inert n.text :=
  inert_of_isPlain fun c hc ↦ isPlain_of_isOrdinary (n.isOrdinary c hc)

/-- **Expressions are kept** by the pass over signatures. -/
theorem Expression.rewrites {b : Bool} (x : Expression b)
    (h : ∀ c ∈ r.head?, c ∈ [',', ';', ')', ']']) : Rewrites x.text x.text r := by
  induction x generalizing r with
  | name n => exact (inert_word n).rewrites r
  | number n =>
    exact (inert_of_isPlain fun c hc ↦ isPlain_of_isOrdinary (n.isOrdinary c hc).1).rewrites r
  | call n xs ih =>
    have hcall := Rewrites.call xs.nested (ih (by simp)) (tail?_eq_none h)
    exact ((inert_word n).rewrites _).append hcall (guards_word n)
  | list xs ih =>
    exact .behind (u := []) (w := ['[']) (Inert.rewrites (by simp [Inert]) _)
      (inert_brackets (by decide)) (fun _ ↦ rfl)
      ((ih (by simp)).append_inert (inert_brackets (by decide)))
  | none => exact Inert.rewrites (w := []) (by simp [Inert]) r
  | one x ih => exact ih h
  | more x xs ihx ihxs =>
    exact .behind (w := [',', ' ']) (ihx (by simp)) (inert_brackets (by decide)) (fun _ ↦ rfl)
      (ihxs h)

/-! ## Declarations -/

/-- The words that declare variables. -/
inductive Declaring where
  | const
  | let
  | var
deriving DecidableEq, Repr

def Declaring.text : Declaring → Text
  | const => "const".toList
  | .let => "let".toList
  | var => "var".toList

structure Declarator where
  name : Word
  type : Option (Tree .type)
  value : Option (Expression false)
  isCode : ∀ t ∈ type, t.isCode = true

namespace Declarator

def valueText (x : Declarator) : Text :=
  match x.value with
  | none => []
  | some e => ' ' :: '=' :: ' ' :: e.text

/-- How a declarator is written, when its type is written as a function says. -/
def textWith (f : Tree .type → Text) (x : Declarator) : Text :=
  x.name.text ++ ((match x.type with
    | none => []
    | some t => ':' :: ' ' :: f t) ++ x.valueText)

def text : Declarator → Text := textWith Tree.text

/-- A declarator without the types of the parameters in its type. -/
def bare : Declarator → Text := textWith Tree.bare

/-- A declarator without its type. -/
def erased (x : Declarator) : Text := x.name.text ++ x.valueText

end Declarator

structure Declaration where
  declaring : Declaring
  first : Declarator
  rest : List Declarator

namespace Declaration

/-- The word that declares, the declarators and the semicolon. -/
def write (k : Declaring) (xs : List Text) : Text :=
  k.text ++ ' ' :: ([',', ' '].intercalate xs ++ [';'])

def text (d : Declaration) : Text :=
  write d.declaring ((d.first :: d.rest).map Declarator.text)

/-- A declaration without types. -/
def erased (d : Declaration) : Text :=
  write d.declaring ((d.first :: d.rest).map Declarator.erased)

/-- What is left of a declaration. -/
def left (d : Declaration) : Text :=
  write d.declaring (d.first.erased :: d.rest.map Declarator.bare)

theorem intercalate_cons (w : Text) (ws : List Text) :
    [',', ' '].intercalate (w :: ws) = w ++ ws.flatMap ([',', ' '] ++ ·) := by
  induction ws generalizing w with
  | nil => simp
  | cons v ws ih =>
    rw [List.intercalate_cons_cons, ih, List.flatMap_cons, List.append_assoc, List.append_assoc]

/-- What stands behind the first declarator. -/
theorem write_cons (k : Declaring) (w : Text) (ws : List Text) (r : Text) :
    write k (w :: ws) ++ r =
      k.text ++ ' ' :: (w ++ (ws.flatMap ([',', ' '] ++ ·) ++ ';' :: r)) := by
  rw [write, intercalate_cons]
  simp

/-! ## The pass over signatures -/

theorem rewrites_declarator (x : Declarator) (h : ∀ c ∈ r.head?, c ∈ [',', ';', ')', ']']) :
    Rewrites x.text x.bare r := by
  have hequals (w : Text) (hw : ∀ c ∈ w, c ∈ [' ', '=']) : Inert w :=
    inert_brackets fun c hc ↦ by
      have hc := hw c hc
      simp only [List.mem_cons, List.not_mem_nil, or_false] at hc
      rcases hc with rfl | rfl <;> simp
  have hbinding (r : Text) : Rewrites (x.name.text ++ match x.type with
      | none => []
      | some t => ':' :: ' ' :: t.text) (x.name.text ++ match x.type with
      | none => []
      | some t => ':' :: ' ' :: t.bare) r := by
    cases htype : x.type with
    | none =>
      rw [List.append_nil]
      exact (inert_word x.name).rewrites r
    | some t =>
      exact .behind (w := [':', ' ']) ((inert_word x.name).rewrites _) (inert_brackets (by decide))
        (fun _ ↦ rfl) (Tree.rewrites (x.isCode t htype) r)
  rw [Declarator.text, Declarator.bare, Declarator.textWith, Declarator.textWith,
    ← List.append_assoc, ← List.append_assoc, Declarator.valueText]
  cases x.value with
  | none =>
    rw [List.append_nil, List.append_nil]
    exact hbinding r
  | some e =>
    exact .behind (w := [' ', '=', ' ']) (hbinding _) (inert_brackets (by decide)) (fun _ ↦ rfl)
      (e.rewrites h)

theorem rewrites_declarators (xs : List Declarator) (r : Text) :
    Rewrites ([',', ' '].intercalate (xs.map Declarator.text))
      ([',', ' '].intercalate (xs.map Declarator.bare)) (';' :: r) := by
  induction xs with
  | nil => exact Inert.rewrites (w := []) (by simp [Inert]) _
  | cons x xs ih =>
    cases xs with
    | nil =>
      rw [List.map_singleton, List.map_singleton, List.intercalate_singleton,
        List.intercalate_singleton]
      exact rewrites_declarator x (by simp)
    | cons y ys =>
      simp only [List.map_cons, List.intercalate_cons_cons, List.append_assoc] at ih ⊢
      exact .behind (w := [',', ' ']) (rewrites_declarator x (by simp)) (inert_brackets (by decide))
        (fun _ ↦ rfl) ih

/-- **Signatures in a declaration.** The parameters in all types lose their own. -/
theorem eraseSignatures_declaration (d : Declaration) (endsLine : Bool) :
    eraseSignatures (d.text ++ if endsLine then ['\n'] else []) =
      write d.declaring ((d.first :: d.rest).map Declarator.bare) ++
        if endsLine then ['\n'] else [] := by
  have hend : Inert (';' :: if endsLine then ['\n'] else []) := by
    cases endsLine with
    | true =>
      intro c hc
      rw [if_pos rfl, List.mem_cons, List.mem_singleton] at hc
      rcases hc with rfl | rfl <;> exact ⟨fun _ ↦ rfl, by decide⟩
    | false => exact inert_brackets (by decide)
  have hword : Inert (d.declaring.text ++ [' ']) ∧ Guards (d.declaring.text ++ [' ']) := by
    cases d.declaring <;>
      exact ⟨inert_of_isPlain (by decide), fun _ ↦ rfl⟩
  have hall := ((hword.1.rewrites _).append
    ((rewrites_declarators (d.first :: d.rest) _).append_inert (r := []) hend)
    hword.2).eraseSignatures_eq
  simpa [text, write] using hall

/-! ## Spaced code -/

theorem isSpacedCode_word (n : Word) : IsSpacedCode n.text := isSpacedCode_of_isNameChar n.chars

theorem isSpacedCode_path (n : DottedName) : IsSpacedCode n.text :=
  isSpacedCode_of_black
    (fun c hc ↦ isPlain_of_isOrdinary (isOrdinary_of_isPathChar (n.isPathChar c hc)))
    fun c hc ↦ isWhite_of_isPathChar (n.isPathChar c hc)

theorem isSpacedCode_names {k : Category} (t : Tree k) : IsSpacedCode t.names := by
  induction t with
  | field n => exact isSpacedCode_of_isNameChar n.isNameChar
  | fields n t fs _ ih =>
    exact (isSpacedCode_of_isNameChar n.isNameChar).append
      (.append (u := [',', ' ']) (by decide) ih)
  | _ => exact isSpacedCode_nil

/-- In a type all white space stands next to a mark. -/
theorem isSpacedCode_bare {k : Category} {t : Tree k} (h : t.isCode = true) :
    IsSpacedCode t.bare := by
  have hname (n : Name) : IsSpacedCode n.text := isSpacedCode_of_isNameChar n.isNameChar
  induction t with
  | name n => exact isSpacedCode_path n
  | literal => cases h
  | array t ih => exact (ih h).append (by decide)
  | generic n ts ih =>
    exact (isSpacedCode_path n).append
      (.append (u := ['<']) (by decide) ((ih h).append (by decide)))
  | joined j t u iht ihu =>
    rw [Tree.isCode, Bool.and_eq_true] at h
    refine (iht h.1).append (.append (u := [' ', j.sign, ' ']) ?_ (ihu h.2))
    cases j <;> decide
  | group => cases h
  | function ps t _ iht =>
    rw [Tree.isCode, Bool.and_eq_true] at h
    exact .append (u := ['(']) (by decide) ((isSpacedCode_names ps).append
      (.append (u := [')', ' ', '=', '>', ' ']) (by decide) (iht h.2)))
  | object ms isClosed ih =>
    have hend : IsSpacedCode ((if isClosed then [';', ' '] else [' ']) ++ ['}']) := by
      cases isClosed <;> decide
    have hall := IsSpacedCode.append (u := ['{', ' ']) (by decide) ((ih h).append hend)
    simpa [Tree.bare, Tree.write] using hall
  | argument t ih => exact ih h
  | arguments t ts iht ihts =>
    rw [Tree.isCode, Bool.and_eq_true] at h
    exact (iht h.1).append (.append (u := [',', ' ']) (by decide) (ihts h.2))
  | noField => exact isSpacedCode_nil
  | field n t ih => exact (hname n).append (.append (u := [':', ' ']) (by decide) (ih h))
  | @fields s n t fs iht ihfs =>
    rw [Tree.isCode, Bool.and_eq_true] at h
    have hrest := (iht h.1).append (.append (u := [s.char, ' ']) (by cases s <;> decide) (ihfs h.2))
    exact (hname n).append (.append (u := [':', ' ']) (by decide) hrest)

theorem isSpacedCode_expression {b : Bool} (x : Expression b) : IsSpacedCode x.text := by
  induction x with
  | name n => exact isSpacedCode_word n
  | number n => exact Parameter.isSpacedCode_number n
  | call n xs ih =>
    exact (isSpacedCode_word n).append (.append (u := ['(']) (by decide) (ih.append (by decide)))
  | list xs ih => exact .append (u := ['[']) (by decide) (ih.append (by decide))
  | none => exact isSpacedCode_nil
  | one x ih => exact ih
  | more x xs ihx ihxs => exact ihx.append (.append (u := [',', ' ']) (by decide) ihxs)

theorem isSpacedCode_valueText (x : Declarator) : IsSpacedCode x.valueText := by
  rw [Declarator.valueText]
  split
  · exact isSpacedCode_nil
  · exact .append (u := [' ', '=', ' ']) (by decide) (isSpacedCode_expression _)

theorem isSpacedCode_declarator (x : Declarator) : IsSpacedCode x.bare := by
  refine (isSpacedCode_word x.name).append (.append ?_ (isSpacedCode_valueText x))
  cases htype : x.type with
  | none => exact isSpacedCode_nil
  | some t => exact .append (u := [':', ' ']) (by decide) (isSpacedCode_bare (x.isCode t htype))

/-! ## The annotation of the first variable -/

theorem endsAnnotation_iff : endsAnnotation c = true ↔ c ∈ ['=', ';', ',', '\n'] := by
  unfold endsAnnotation
  simp [or_assoc]

/-- An annotation ends at the white space in front of what ends it. -/
theorem afterAnnotation?_nested (h : Nested q p w)
    (hp : ∀ c, p c = true → endsAnnotation c = false ∧ c ≠ '"') (hq : q '"' = false)
    (hblank : p ' ' = true) (hw : EndsBlack w) {gap : Text} (hgap : ∀ c ∈ gap, c = ' ')
    (hc : endsAnnotation c = true) (harrow : ¬(c = '=' ∧ r.head? = some '>')) :
    afterAnnotation? (w ++ (gap ++ c :: r)) = some (gap ++ c :: r) := by
  have hend : annotation? 0 (c :: r) = some [] := by
    have hbrackets : opensNesting c = false ∧ closesNesting c = false := by
      have hall : ∀ c ∈ ['=', ';', ',', '\n'],
          opensNesting c = false ∧ closesNesting c = false := by
        decide
      exact hall c (endsAnnotation_iff.mp hc)
    rw [annotation?_cons harrow, hbrackets.1, hbrackets.2, hc]
    rfl
  have hannotation : annotation? 0 (w ++ (gap ++ c :: r)) = some (w ++ gap) := by
    rw [← List.append_assoc, annotation?_nested (h.append (nested_blanks hgap hblank)) hp hq, hend,
      Option.map_some, List.append_nil]
  -- The white space in front of the end is no part of the annotation.
  have hkept : (w ++ gap).reverse.dropWhile isAsciiWhite = w.reverse := by
    rw [List.reverse_append]
    refine dropWhile_append_eq (fun d hd ↦ by rw [hgap d (List.mem_reverse.mp hd)]; rfl) ?_
    obtain ⟨v, d, rfl, hwhite, -⟩ := hw.exists_concat
    rw [List.reverse_append, List.reverse_singleton, List.singleton_append, stops_cons]
    by_contra hascii
    rw [isWhite_of_isAsciiWhite (by simpa using hascii)] at hwhite
    cases hwhite
  have hne : w.reverse ≠ [] := by
    obtain ⟨v, d, rfl, -⟩ := hw.exists_concat
    simp
  obtain ⟨d, v, hv⟩ := List.exists_cons_of_ne_nil hne
  have hlength : (d :: v).length = w.length := by rw [← hv, List.length_reverse]
  rw [afterAnnotation?, hannotation, Option.bind_some, hkept, hv]
  simp only [hlength, List.drop_left]

theorem declarator?_declaring (k : Declaring) (hr : Stops isWhite r) :
    declarator? (k.text ++ ' ' :: r) = some r := by
  have hkeyword (w : Text) : keyword? w (w ++ ' ' :: r) = some r := keyword?_blank w hr
  have hother {w v : Text} (h : ¬w <+: v) : keyword? w v = none := keyword?_eq_none h
  cases k with
  | const =>
    have hconst : keyword? "const".toList (Declaring.const.text ++ ' ' :: r) = some r := hkeyword _
    rw [declarator?, hconst]
    rfl
  | «let» =>
    have hconst : keyword? "const".toList (Declaring.let.text ++ ' ' :: r) = none :=
      hother (by simp [Declaring.text])
    have hlet : keyword? "let".toList (Declaring.let.text ++ ' ' :: r) = some r := hkeyword _
    rw [declarator?, hconst, hlet]
    rfl
  | var =>
    have hconst : keyword? "const".toList (Declaring.var.text ++ ' ' :: r) = none :=
      hother (by simp [Declaring.text])
    have hlet : keyword? "let".toList (Declaring.var.text ++ ' ' :: r) = none :=
      hother (by simp [Declaring.text])
    have hvar : keyword? "var".toList (Declaring.var.text ++ ' ' :: r) = some r := hkeyword _
    rw [declarator?, hconst, hlet, hvar]
    rfl

/-- No annotation begins within a word. -/
theorem find?_annotatedVariable_within {b : Option Char} (hb : b.any isWordChar = true) (t : Text) :
    annotatedVariable.find? b t = none := if_pos hb

/-- The word that declares is passed over when no annotation begins with it. -/
theorem passes_declaring (k : Declaring) (h : annotatedVariable? (k.text ++ ' ' :: r) = none) :
    annotatedVariable.Passes none (k.text ++ [' ']) r := by
  intro x y hxy hy
  rcases List.eq_nil_or_concat x with rfl | ⟨x, c, rfl⟩
  · rw [List.nil_append] at hxy
    rw [← hxy, List.append_assoc]
    exact h
  · refine find?_annotatedVariable_within ?_ _
    have hword : ∀ c ∈ (k.text ++ [' ']).dropLast, isWordChar c = true := by cases k <;> decide
    have hc : c ∈ (k.text ++ [' ']).dropLast := by
      rw [hxy, List.dropLast_append_of_ne_nil hy]
      simp
    rw [List.concat_eq_append, List.getLast?_concat]
    exact hword c hc

/-- Behind the type of a variable stands what ends its annotation. -/
theorem exists_end (x : Declarator) {y : Text} (hy : ∃ c ∈ y.head?, c = ',' ∨ c = ';') :
    ∃ gap c r, x.valueText ++ y = gap ++ c :: r ∧ (∀ d ∈ gap, d = ' ') ∧
      endsAnnotation c = true ∧ ¬(c = '=' ∧ r.head? = some '>') ∧ isWhite c = false := by
  rw [Declarator.valueText]
  split
  · obtain ⟨c, hc, h⟩ := hy
    obtain ⟨r, rfl⟩ := List.head?_eq_some_iff.mp hc
    refine ⟨[], c, r, rfl, by simp, ?_⟩
    rcases h with rfl | rfl <;> exact ⟨rfl, by simp, rfl⟩
  · exact ⟨[' '], '=', ' ' :: (_ ++ y), rfl, by simp, rfl, by simp, rfl⟩

theorem isNameChar_of_ends (h : endsAnnotation c = true) : isNameChar c = false :=
  (show ∀ c ∈ ['=', ';', ',', '\n'], isNameChar c = false by decide) c (endsAnnotation_iff.mp h)

/-- Outside brackets nothing in a type ends an annotation. -/
theorem endsAnnotation_of_isTypeMark (h : isTypeMark c = true) : endsAnnotation c = false := by
  by_contra hends
  have hnone : ∀ c ∈ ['=', ';', ',', '\n'], isTypeMark c = false := by decide
  rw [hnone c (endsAnnotation_iff.mp (by simpa using hends))] at h
  cases h

theorem bare_eq_erased {x : Declarator} (h : x.type = none) : x.bare = x.erased := by
  rw [Declarator.bare, Declarator.textWith, h]
  rfl

/-- What is read at the beginning of a declaration: the word that declares, and the name. -/
theorem annotatedVariable?_declaring (k : Declaring) (n : Word) (hr : Stops isNameChar r) :
    annotatedVariable? (k.text ++ ' ' :: (n.text ++ r)) =
      ((word? [':'] (trimStart r)).bind afterAnnotation?).map
        (Marker.consumed (k.text ++ ' ' :: (n.text ++ r)) r, ·) := by
  have hwhite : Stops isWhite (n.text ++ r) := by
    refine Stops.append (fun c hc ↦ ?_) n.ne_nil
    exact isWhite_of_isNameChar (n.chars c (List.mem_of_mem_head? hc))
  rw [annotatedVariable?, declarator?_declaring k hwhite, Option.bind_some,
    some?_append n.ne_nil n.chars hr, Option.bind_some]

variable {x : Declarator} {y : Text}

/-- No annotation is read behind a variable without a type. -/
theorem annotatedVariable?_untyped (k : Declaring) (hy : ∃ c ∈ y.head?, c = ',' ∨ c = ';') :
    annotatedVariable? (k.text ++ ' ' :: (x.erased ++ y)) = none := by
  obtain ⟨gap, c, r, hrest, hgap, hends, -, hblack⟩ := exists_end x hy
  have hstop : Stops isNameChar (x.valueText ++ y) := by
    rw [hrest]
    cases gap with
    | nil => exact stops_cons.mpr (isNameChar_of_ends hends)
    | cons d gap =>
      rw [hgap d List.mem_cons_self]
      exact stops_cons.mpr rfl
  have hcolon : word? [':'] (trimStart (x.valueText ++ y)) = none := by
    rw [hrest, trimStart_append (fun d hd ↦ by rw [hgap d hd]; rfl), trimStart_cons hblack,
      word?_eq_none_iff]
    intro hpre
    rw [← (List.cons_prefix_cons.mp hpre).1] at hends
    cases hends
  rw [Declarator.erased, List.append_assoc, annotatedVariable?_declaring k x.name hstop, hcolon]
  rfl

/-- The annotation of a variable with a type is read to its end. -/
theorem annotatedVariable?_typed (k : Declaring) {t : Tree .type} (htype : x.type = some t)
    (hy : ∃ c ∈ y.head?, c = ',' ∨ c = ';') :
    annotatedVariable? (k.text ++ ' ' :: (x.bare ++ y)) =
      some (k.text ++ ' ' :: x.name.text, x.valueText ++ y) := by
  obtain ⟨gap, c, r, hrest, hgap, hends, harrow, -⟩ := exists_end x hy
  have htext : x.bare ++ y = x.name.text ++ ':' :: (' ' :: t.bare ++ (gap ++ c :: r)) := by
    rw [Declarator.bare, Declarator.textWith, htype, ← hrest]
    simp
  have hnested : Nested Tree.isCodeMark (fun c ↦ isTypeMark c && Tree.isCodeMark c)
      (' ' :: t.bare) := .ordinary rfl rfl (Tree.nested_bare (x.isCode t htype))
  have hafter : afterAnnotation? (' ' :: t.bare ++ (gap ++ c :: r)) = some (gap ++ c :: r) := by
    refine afterAnnotation?_nested hnested (fun d hd ↦ ?_) rfl rfl ((t.endsBlack false).cons ' ')
      hgap hends harrow
    rw [Bool.and_eq_true, Tree.isCodeMark, bne_iff_ne] at hd
    exact ⟨endsAnnotation_of_isTypeMark hd.1, hd.2⟩
  have hcolon : word? [':'] (trimStart (':' :: (' ' :: t.bare ++ (gap ++ c :: r)))) =
      some (' ' :: t.bare ++ (gap ++ c :: r)) := by
    rw [trimStart_cons (by rfl)]
    exact word?_append [':'] _
  rw [htext, annotatedVariable?_declaring k x.name (stops_cons.mpr rfl), hcolon, Option.bind_some,
    hafter, Option.map_some, ← List.cons_append, ← List.append_assoc, Marker.consumed_left, hrest]

/-- **The annotation of the first variable is erased**, and the rest is left as it is. -/
theorem eraseAnnotations_declaration (k : Declaring) (x : Declarator)
    (hy : ∃ c ∈ y.head?, c = ',' ∨ c = ';') (hspaced : IsSpacedCode y) :
    eraseAnnotations (k.text ++ ' ' :: (x.bare ++ y)) = k.text ++ ' ' :: (x.erased ++ y) := by
  have hbehind : IsSpacedCode (x.valueText ++ y) := (isSpacedCode_valueText x).append hspaced
  cases htype : x.type with
  | none =>
    have hpass : annotatedVariable.Passes none (k.text ++ [' '] ++ (x.erased ++ y)) [] := by
      refine Marker.Passes.append ?_ (passes_annotatedVariable_spaced ?_ (.inl rfl) _)
      · rw [List.append_nil]
        exact passes_declaring k (annotatedVariable?_untyped k hy)
      · rw [Declarator.erased, List.append_assoc]
        exact ((isSpacedCode_word x.name).append hbehind).annotations
    rw [bare_eq_erased htype, ← List.singleton_append, ← List.append_assoc]
    exact hpass.replace_eq id
  | some t =>
    have hfind : annotatedVariable.find? none (k.text ++ ' ' :: (x.bare ++ y)) =
        some (k.text ++ ' ' :: x.name.text, x.valueText ++ y) := annotatedVariable?_typed k htype hy
    have hpass := (passes_annotatedVariable_spaced hbehind.annotations (.inl rfl)
      (Marker.consumed (k.text ++ ' ' :: (x.bare ++ y)) (x.valueText ++ y)).getLast?).cutFrom_append
    rw [List.append_nil] at hpass
    rw [eraseAnnotations, Marker.replace, Marker.cut, Marker.cutFrom_of_some _ hfind,
      Cut.substitute_mark, hpass, Marker.cutFrom_nil, Cut.substitute_prepend, Cut.substitute_empty,
      List.append_nil, Declarator.erased]
    simp

/-! ## What is left -/

theorem length_bare (x : Declarator) :
    x.bare.length = x.erased.length + x.type.elim 0 fun t ↦ 2 + t.bare.length := by
  rw [Declarator.bare, Declarator.textWith, Declarator.erased]
  cases x.type with
  | none => simp
  | some t =>
    simp only [List.length_append, List.length_cons, Option.elim_some]
    omega

/-- Texts of declarators may differ only in the types that are left. -/
theorem left_eq_erased_iff (d : Declaration) : d.left = d.erased ↔ ∀ x ∈ d.rest, x.type = none := by
  constructor
  · intro h
    by_contra hnot
    obtain ⟨x, hx, htype⟩ : ∃ x ∈ d.rest, x.type ≠ none := by simpa using hnot
    have hlt : (d.rest.map fun x ↦ ([',', ' '] ++ x.erased).length).sum <
        (d.rest.map fun x ↦ ([',', ' '] ++ x.bare).length).sum := by
      refine List.sum_lt_sum _ _ (fun y _ ↦ ?_) ⟨x, hx, ?_⟩
      · rw [List.length_append, List.length_append, length_bare y]
        omega
      · obtain ⟨t, ht⟩ := Option.ne_none_iff_exists'.mp htype
        rw [List.length_append, List.length_append, length_bare x, ht, Option.elim_some]
        omega
    have hlength := congrArg List.length h
    rw [left, erased, List.map_cons, write, write, intercalate_cons, intercalate_cons] at hlength
    simp only [List.length_append, List.length_cons, List.length_flatMap, List.map_map,
      Function.comp_def] at hlength hlt
    omega
  · intro h
    rw [left, erased, List.map_cons, List.map_congr_left fun x hx ↦ bare_eq_erased (h x hx)]

theorem not_mem_textWith {f : Tree .type → Text} (hf : ∀ t, t.isCode = true → '\n' ∉ f t)
    (x : Declarator) : '\n' ∉ x.textWith f := by
  have hname : '\n' ∉ x.name.text := fun h ↦ by cases x.name.chars _ h
  have hvalue : '\n' ∉ x.valueText := by
    rw [Declarator.valueText]
    split
    · simp
    · rename_i e _
      simp [e.nested.not_mem]
  rw [Declarator.textWith]
  cases htype : x.type with
  | none => simp [hname, hvalue]
  | some t => simp [hname, hvalue, hf t (x.isCode t htype)]

theorem not_mem_write (k : Declaring) {xs : List Text} (h : ∀ w ∈ xs, '\n' ∉ w) :
    '\n' ∉ write k xs := by
  have hword : '\n' ∉ k.text := by cases k <;> decide
  cases xs with
  | nil => simp [write, hword]
  | cons w xs =>
    rw [List.forall_mem_cons] at h
    rw [write, intercalate_cons]
    simpa [hword, h.1] using h.2

/-- A declaration is no other statement. -/
theorem passesLines_write (k : Declaring) {xs : List Text} (h : ∀ w ∈ xs, '\n' ∉ w)
    (endsLine : Bool) : PassesLines none (write k xs ++ if endsLine then ['\n'] else []) [] := by
  refine passesLines_line (not_mem_write k h) endsLine ?_
  rw [write]
  cases k <;> exact quiet_cons rfl (by decide) _

/-- What stands behind the first declarator when the parameters in types have lost their own. -/
def behind (xs : List Declarator) (r : Text) : Text :=
  (xs.map Declarator.bare).flatMap ([',', ' '] ++ ·) ++ ';' :: r

theorem head?_behind (xs : List Declarator) (r : Text) :
    ∃ c ∈ (behind xs r).head?, c = ',' ∨ c = ';' := by
  cases xs with
  | nil => exact ⟨';', rfl, .inr rfl⟩
  | cons x xs => exact ⟨',', rfl, .inl rfl⟩

theorem isSpacedCode_behind (xs : List Declarator) (endsLine : Bool) :
    IsSpacedCode (behind xs (if endsLine then ['\n'] else [])) := by
  induction xs with
  | nil => cases endsLine <;> decide
  | cons x xs ih =>
    rw [behind, List.map_cons, List.flatMap_cons, List.append_assoc, List.append_assoc]
    exact .append (u := [',', ' ']) (by decide) ((isSpacedCode_declarator x).append ih)

/-- **Annotations in a declaration.** -/
theorem eraseExpressionTypes_declaration (k : Declaring) (x : Declarator) {y : Text}
    (hy : ∃ c ∈ y.head?, c = ',' ∨ c = ';') (hspaced : IsSpacedCode y) :
    eraseExpressionTypes (k.text ++ ' ' :: (x.bare ++ y)) = k.text ++ ' ' :: (x.erased ++ y) := by
  have hword : IsCode (k.text ++ [' ']) ∧ isSpaced assertionEnds none (k.text ++ [' ']) = true := by
    cases k <;> exact ⟨by decide, by decide⟩
  have hcode : IsCode (k.text ++ ' ' :: (x.bare ++ y)) := by
    have hall := hword.1.append ((isSpacedCode_declarator x).append hspaced).code
    rwa [List.append_assoc] at hall
  have hassertions : isSpaced assertionEnds none (k.text ++ ' ' :: (x.erased ++ y)) = true := by
    have herased := (isSpacedCode_word x.name).append (isSpacedCode_valueText x)
    have hall := isSpaced_append hword.2 (herased.append hspaced).assertions
    rwa [List.append_assoc] at hall
  rw [hcode.eraseExpressionTypes_eq, eraseFromStretch, eraseAnnotations_declaration k x hy hspaced,
    eraseAssertions_eq_self hassertions]

theorem eraseTypes_eq_left (d : Declaration) (endsLine : Bool) :
    eraseTypes (d.text ++ if endsLine then ['\n'] else []) =
      d.left ++ if endsLine then ['\n'] else [] := by
  have htext : PassesLines none (d.text ++ if endsLine then ['\n'] else []) [] :=
    passesLines_write d.declaring (List.forall_mem_map.mpr fun x _ ↦
      not_mem_textWith (fun t _ ↦ t.nested_anyMark.not_mem) x) endsLine
  have hbare :
      PassesLines none (eraseSignatures (d.text ++ if endsLine then ['\n'] else [])) [] := by
    rw [eraseSignatures_declaration]
    exact passesLines_write d.declaring (List.forall_mem_map.mpr fun x _ ↦
      not_mem_textWith (fun t ht ↦ (Tree.nested_bare ht).not_mem) x) endsLine
  rw [eraseTypes_of_passesLines htext hbare, eraseSignatures_declaration, List.map_cons, write_cons,
    left, write_cons]
  exact eraseExpressionTypes_declaration d.declaring d.first (head?_behind d.rest _)
    (isSpacedCode_behind d.rest endsLine)

/-- **Only the first variable loses its annotation.** The other variables keep their types, in which
the parameters of function types lose their own, so that all annotations are removed exactly when
only the first variable has one. -/
theorem eraseTypes_declaration (d : Declaration) (endsLine : Bool) :
    eraseTypes (d.text ++ if endsLine then ['\n'] else []) =
        d.left ++ (if endsLine then ['\n'] else []) ∧
      (d.left = d.erased ↔ ∀ x ∈ d.rest, x.type = none) :=
  ⟨d.eraseTypes_eq_left endsLine, d.left_eq_erased_iff⟩

/-- In `let a: number, b: string;` the second annotation stays. -/
theorem not_forall_annotations_erased : ¬∀ (d : Declaration) (endsLine : Bool),
    eraseTypes (d.text ++ if endsLine then ['\n'] else []) =
      d.erased ++ if endsLine then ['\n'] else [] := by
  intro h
  have hdeclared := h ⟨.let,
    ⟨⟨"a".toList, by decide, by decide⟩,
      some (.name ⟨⟨"number".toList, by decide⟩, []⟩), none, by rintro t ⟨⟩; rfl⟩,
    [⟨⟨"b".toList, by decide, by decide⟩,
      some (.name ⟨⟨"string".toList, by decide⟩, []⟩), none, by rintro t ⟨⟩; rfl⟩]⟩ false
  rw [eraseTypes_eq_left] at hdeclared
  exact absurd hdeclared (by decide)

end Declaration

end Typed

end PluginPack
