import PluginPack.Proofs.Text.Reading
import PluginPack.Script.Literal

/-!
# Tokens of scripts without types

The words, literals, operators and brackets that a script without types is written with, each with
the white space in front of it. There are no comments, no template literals, and no operators with
an angle bracket or a slash. The kind of a token says what it is there for: a name that is declared
is not of the kind of a name that is used, and the brackets of parameters, of conditions and of
arguments are told apart.
-/

namespace PluginPack

open Text Script

namespace Untyped

/-! ## Characters -/

/-- A character of an identifier. Beyond ASCII everything but white space may stand in one. -/
def isIdentifierChar (c : Char) : Bool :=
  c.isAlphanum || c == '_' || c == '$' || (128 ≤ c.toNat && !isWhite c)

/-- A character of a number: an ASCII letter or digit, an underscore or a point. -/
def isNumberChar (c : Char) : Bool := c.isAlphanum || c == '_' || c == '.'

/-- The characters of operators and brackets, and the quotes of string literals. -/
def symbols : List Char :=
  ['!', '"', '%', '&', '\'', '(', ')', '*', '+', ',', '-', '.', ':', ';', '=', '>', '?', '[', ']',
    '^', '{', '|', '}', '~']

/-- A character that opens, closes and ends nothing: no quote, no slash and no bracket. -/
def isPlain (c : Char) : Bool :=
  !List.contains ['"', '\'', '\x60', '/', '(', ')', '[', ']', '{', '}', '<', '>'] c

/-! ## Spelling -/

/-- The words that no identifier is spelled like: the reserved words of modules, and `as`. -/
def reserved : List Text :=
  ["as", "await", "break", "case", "catch", "class", "const", "continue", "debugger", "default",
    "delete", "do", "else", "enum", "export", "extends", "false", "finally", "for", "function",
    "if", "implements", "import", "in", "instanceof", "interface", "let", "new", "null", "package",
    "private", "protected", "public", "return", "static", "super", "switch", "this", "throw",
    "true", "try", "typeof", "var", "void", "while", "with", "yield"].map String.toList

def isIdentifier (t : Text) : Bool :=
  t.all isIdentifierChar && t.head?.any (fun c ↦ !c.isDigit) && !reserved.contains t

/-- A number begins with a digit, or with a point and a digit. -/
def isNumber (t : Text) : Bool :=
  t.all isNumberChar &&
    (t.head?.any Char.isDigit || (t.head? == some '.' && t.tail.head?.any Char.isDigit))

/-- Whether a string literal ends with the text, which stands behind its opening quote. A backslash
takes the character after it along, also a newline. -/
def endsString (quote : Char) : Text → Bool
  | [] => false
  | '\\' :: [] => false
  | '\\' :: _ :: r => endsString quote r
  | c :: r => if c = quote then r.isEmpty else c != '\n' && endsString quote r

def isString : Text → Bool
  | [] => false
  | c :: r => (c == '"' || c == '\'') && endsString c r

/-! ## Kinds of tokens -/

inductive Bracket where
  /-- The parentheses of parameters. -/
  | params
  /-- The parentheses behind `if`, `for`, `while` and `switch`. -/
  | condition
  /-- The parentheses of arguments, and those around an expression. -/
  | call
  | square
  | brace
deriving DecidableEq, Repr

namespace Bracket

def opening : Bracket → Char
  | params | condition | call => '('
  | square => '['
  | brace => '{'

def closing : Bracket → Char
  | params | condition | call => ')'
  | square => ']'
  | brace => '}'

end Bracket

inductive Kind where
  /-- A name that is used, or that names a property. -/
  | name
  /-- A name that is declared: a variable, a parameter or a function. -/
  | binding
  /-- A word that declares variables. -/
  | declarator
  /-- The word between what a loop declares and what it runs through. -/
  | of
  /-- A word that a condition follows. -/
  | control
  /-- Any other reserved word. -/
  | word
  | number
  | string
  | colon
  /-- An equals sign, and every operator that holds one. -/
  | equals
  | arrow
  | comma
  /-- Any other operator, the point, the question mark and the semicolon. -/
  | mark
  | opening (b : Bracket)
  | closing (b : Bracket)
deriving DecidableEq, Repr

namespace Kind

/-- The spellings of a kind that has finitely many of them. -/
def spellings : Kind → List Text
  | declarator => ["const", "let", "var"].map String.toList
  | of => ["of", "in"].map String.toList
  | control => ["if", "for", "while", "switch"].map String.toList
  | word => ["async", "await", "break", "case", "catch", "continue", "default", "delete", "do",
      "else", "false", "finally", "function", "new", "null", "return", "this", "throw", "true",
      "try", "typeof", "void"].map String.toList
  | colon => [":".toList]
  | equals => ["=", "==", "===", "!=", "!==", "+=", "-=", "*=", "%=", "**=", "&=", "|=", "^=",
      "&&=", "||=", "??="].map String.toList
  | arrow => ["=>".toList]
  | comma => [",".toList]
  | mark => [".", "?.", "...", "?", ";", "!", "~", "+", "-", "++", "--", "*", "**", "%", "&", "|",
      "^", "&&", "||", "??"].map String.toList
  | opening b => [[b.opening]]
  | closing b => [[b.closing]]
  | name | binding | number | string => []

/-- Whether a token of the kind may be spelled like the text. -/
def spells : Kind → Text → Bool
  | name, t | binding, t => isIdentifier t
  | number, t => isNumber t
  | string, t => isString t
  | k, t => k.spellings.contains t

/-- Words and numbers, which only white space sets off from each other. -/
def isWordlike : Kind → Bool
  | name | binding | declarator | of | control | word | number => true
  | _ => false

/-- Tokens that neither are brackets nor hold one, nor a quote. -/
def isPlain : Kind → Bool
  | string | arrow | opening _ | closing _ => false
  | _ => true

def isBracket : Kind → Bool
  | opening _ | closing _ => true
  | _ => false

end Kind

/-- A token behind white space. -/
structure Token where
  gap : Text
  kind : Kind
  text : Text
deriving DecidableEq, Repr

/-- The white space in front of a token is white, and the token is spelled like one of its kind. -/
def Token.IsSpelled (t : Token) : Prop :=
  (∀ c ∈ t.gap, isWhite c = true) ∧ t.kind.spells t.text = true

instance (t : Token) : Decidable t.IsSpelled := inferInstanceAs (Decidable (_ ∧ _))

/-- The text of tokens in a row. -/
def write (ts : List Token) : Text := ts.flatMap fun t ↦ t.gap ++ t.text

@[simp] theorem write_nil : write [] = [] := rfl

@[simp] theorem write_cons (t : Token) (ts : List Token) :
    write (t :: ts) = t.gap ++ (t.text ++ write ts) := by
  rw [write, List.flatMap_cons, List.append_assoc]
  rfl

@[simp] theorem write_append (ts us : List Token) : write (ts ++ us) = write ts ++ write us :=
  List.flatMap_append

/-! ## Which characters stand in a token -/

variable {c : Char} {k : Kind} {t r : Text}

theorem isPlain_eq_false (h : isPlain c = false) :
    c ∈ ['"', '\'', '\x60', '/', '(', ')', '[', ']', '{', '}', '<', '>'] := by
  rwa [isPlain, Bool.not_eq_false', List.contains_iff_mem] at h

/-- A class that holds of no bracket, quote or slash holds of plain characters only. -/
theorem isPlain_of_forall {p : Char → Bool} (hc : p c = true)
    (h : ∀ d ∈ ['"', '\'', '\x60', '/', '(', ')', '[', ']', '{', '}', '<', '>'], p d = false) :
    isPlain c = true := by
  by_contra hplain
  rw [h c (isPlain_eq_false (by simpa using hplain))] at hc
  cases hc

theorem isPlain_of_isIdentifierChar (h : isIdentifierChar c = true) : isPlain c = true :=
  isPlain_of_forall h (by decide)

theorem isPlain_of_isNumberChar (h : isNumberChar c = true) : isPlain c = true :=
  isPlain_of_forall h (by decide)

theorem isPlain_of_isWhite (h : isWhite c = true) : isPlain c = true :=
  isPlain_of_forall h (by decide)

theorem isQuote_of_isPlain (h : isPlain c = true) : isQuote c = false := by
  by_contra hnot
  simp only [isQuote, Bool.not_eq_false, Bool.or_eq_true, beq_iff_eq] at hnot
  rcases hnot with (rfl | rfl) | rfl <;> cases h

theorem isOpening_of_isPlain (h : isPlain c = true) : isOpening c = false := by
  by_contra hnot
  simp only [isOpening, Bool.not_eq_false, Bool.or_eq_true, beq_iff_eq] at hnot
  rcases hnot with (rfl | rfl) | rfl <;> cases h

theorem isClosing_of_isPlain (h : isPlain c = true) : isClosing c = false := by
  by_contra hnot
  simp only [isClosing, Bool.not_eq_false, Bool.or_eq_true, beq_iff_eq] at hnot
  rcases hnot with (rfl | rfl) | rfl <;> cases h

theorem isWhite_of_isIdentifierChar (h : isIdentifierChar c = true) : isWhite c = false :=
  isWhite_of_forall h (by decide)

theorem isWhite_of_isNumberChar (h : isNumberChar c = true) : isWhite c = false :=
  isWhite_of_forall h (by decide)

theorem isWhite_of_mem_symbols (h : c ∈ symbols) : isWhite c = false :=
  (show ∀ d ∈ symbols, isWhite d = false by decide) c h

theorem isIdentifierChar_of_mem_symbols (h : c ∈ symbols) : isIdentifierChar c = false :=
  (show ∀ d ∈ symbols, isIdentifierChar d = false by decide) c h

theorem isIdentifierChar_of_isNameChar (h : isNameChar c = true) : isIdentifierChar c = true := by
  have hwhite := isWhite_of_isNameChar h
  rw [isNameChar, isWordChar] at h
  rw [isIdentifierChar, hwhite]
  split at h
  · simp only [Bool.or_eq_true] at h ⊢
    exact .inl h
  · simp only [Bool.or_eq_true, Bool.and_eq_true, decide_eq_true_eq]
    exact .inr ⟨by omega, rfl⟩

theorem isIdentifierChar_of_isAlpha (h : c.isAlpha = true) : isIdentifierChar c = true := by
  rw [isIdentifierChar, Char.isAlphanum, h]
  rfl

/-! ## What is known of a spelling -/

/-- All kinds, so that what is said of fixed spellings can be decided. -/
def Kind.all : List Kind :=
  [name, binding, declarator, of, control, word, number, string, colon, equals, arrow, comma, mark,
    opening .params, opening .condition, opening .call, opening .square, opening .brace,
    closing .params, closing .condition, closing .call, closing .square, closing .brace]

theorem Kind.mem_all (k : Kind) : k ∈ all := by
  rcases k with _ | _ | _ | _ | _ | _ | _ | _ | _ | _ | _ | _ | _ | b | b
  case opening => cases b <;> decide
  case closing => cases b <;> decide
  all_goals decide

theorem spells_iff : k.spells t = true ↔ ((k = .name ∨ k = .binding) ∧ isIdentifier t = true) ∨
    (k = .number ∧ isNumber t = true) ∨ (k = .string ∧ isString t = true) ∨ t ∈ k.spellings := by
  cases k <;> simp [Kind.spells, Kind.spellings]

theorem all_of_isIdentifier (h : isIdentifier t = true) : ∀ c ∈ t, isIdentifierChar c = true := by
  rw [isIdentifier, Bool.and_eq_true, Bool.and_eq_true] at h
  exact List.all_eq_true.mp h.1.1

theorem all_of_isNumber (h : isNumber t = true) : ∀ c ∈ t, isNumberChar c = true := by
  rw [isNumber, Bool.and_eq_true] at h
  exact List.all_eq_true.mp h.1

theorem isPlain_of_spells (hk : k.isPlain = true) (h : k.spells t = true) :
    ∀ c ∈ t, isPlain c = true := by
  rcases spells_iff.mp h with ⟨-, h⟩ | ⟨-, h⟩ | ⟨rfl, -⟩ | h
  · exact fun c hc ↦ isPlain_of_isIdentifierChar (all_of_isIdentifier h c hc)
  · exact fun c hc ↦ isPlain_of_isNumberChar (all_of_isNumber h c hc)
  · cases hk
  · have hall : ∀ k ∈ Kind.all, k.isPlain = true →
        ∀ t ∈ k.spellings, ∀ c ∈ t, isPlain c = true := by
      decide
    exact hall k k.mem_all hk t h

/-- No token is empty. -/
theorem ne_nil_of_spells (h : k.spells t = true) : t ≠ [] := by
  rintro rfl
  have hall : ∀ k ∈ Kind.all, k.spells [] = false := by decide
  rw [hall k k.mem_all] at h
  cases h

/-- Words and numbers are made of their characters. -/
theorem isIdentifierChar_or_of_spells (hword : k.isWordlike = true) (h : k.spells t = true) :
    ∀ c ∈ t, (isIdentifierChar c || isNumberChar c) = true := by
  intro c hc
  rcases spells_iff.mp h with ⟨-, h⟩ | ⟨-, h⟩ | ⟨rfl, -⟩ | h
  · rw [all_of_isIdentifier h c hc, Bool.true_or]
  · rw [all_of_isNumber h c hc, Bool.or_true]
  · cases hword
  · have hall : ∀ k ∈ Kind.all, k.isWordlike = true → ∀ t ∈ k.spellings, ∀ c ∈ t,
        (isIdentifierChar c || isNumberChar c) = true := by decide
    exact hall k k.mem_all hword t h c hc

/-- Operators and brackets are made of symbols. -/
theorem mem_symbols_of_spells (hword : k.isWordlike = false) (hk : k ≠ .string)
    (h : k.spells t = true) : ∀ c ∈ t, c ∈ symbols := by
  rcases spells_iff.mp h with ⟨rfl | rfl, -⟩ | ⟨rfl, -⟩ | ⟨rfl, -⟩ | h
  · cases hword
  · cases hword
  · cases hword
  · exact absurd rfl hk
  · have hall : ∀ k ∈ Kind.all, k.isWordlike = false → ∀ t ∈ k.spellings, ∀ c ∈ t, c ∈ symbols := by
      decide
    exact hall k k.mem_all hword t h

/-- No white space stands in a token that is no string literal. -/
theorem isWhite_of_spells (hk : k ≠ .string) (h : k.spells t = true) :
    ∀ c ∈ t, isWhite c = false := by
  intro c hc
  cases hword : k.isWordlike with
  | true =>
    rcases Bool.or_eq_true_iff.mp (isIdentifierChar_or_of_spells hword h c hc) with hid | hnumber
    · exact isWhite_of_isIdentifierChar hid
    · exact isWhite_of_isNumberChar hnumber
  | false => exact isWhite_of_mem_symbols (mem_symbols_of_spells hword hk h c hc)

/-! ## String literals -/

theorem splitQuoted_append_of_endsString {q : Char} (hc : q ≠ '\\') (hn : q ≠ '\n')
    (h : endsString q t = true) (r : Text) : splitQuoted q (t ++ r) = (t, r) := by
  fun_induction endsString q t with
  | case1 => cases h
  | case2 => cases h
  | case3 c t ih => rw [List.cons_append, List.cons_append, splitQuoted, ih h]
  | case4 t => rw [List.isEmpty_iff.mp h, List.singleton_append, splitQuoted_self hc hn]
  | case5 c t hnil hcons hq ih =>
    rw [Bool.and_eq_true, bne_iff_ne] at h
    have hslash : c ≠ '\\' := by
      cases t with
      | nil => exact fun heq ↦ hnil heq rfl
      | cons d t => exact fun heq ↦ hcons d t heq rfl
    rw [List.cons_append, splitQuoted_cons hslash h.1 hq, ih h.2]

theorem getLast?_of_endsString {q : Char} (h : endsString q t = true) : t.getLast? = some q := by
  fun_induction endsString q t with
  | case1 => cases h
  | case2 => cases h
  | case3 c t ih =>
    have ht : t ≠ [] := by
      rintro rfl
      cases h
    rw [← ih h, ← List.singleton_append, ← List.singleton_append (l := t),
      List.getLast?_append_of_ne_nil _ (by simp), List.getLast?_append_of_ne_nil _ ht]
  | case4 t => rw [List.isEmpty_iff.mp h, List.getLast?_singleton]
  | case5 c t _ _ _ ih =>
    rw [Bool.and_eq_true] at h
    have ht : t ≠ [] := by
      rintro rfl
      cases h.2
    rw [← ih h.2, ← List.singleton_append, List.getLast?_append_of_ne_nil _ ht]

theorem isString_iff : isString t = true ↔
    ∃ q r, t = q :: r ∧ (q = '"' ∨ q = '\'') ∧ endsString q r = true := by
  cases t with
  | nil => simp [isString]
  | cons c r => simp [isString]

/-- A string literal is read to its end, whatever follows. -/
theorem inert?_append_of_isString (h : isString t = true) (r : Text) :
    inert? (t ++ r) = some (t, r) := by
  obtain ⟨q, s, rfl, hq, hs⟩ := isString_iff.mp h
  have hsplit : splitQuoted q (s ++ r) = (s, r) := by
    rcases hq with rfl | rfl
    · exact splitQuoted_append_of_endsString (by decide) (by decide) hs r
    · exact splitQuoted_append_of_endsString (by decide) (by decide) hs r
  rcases hq with rfl | rfl
  · simp [inert?, isQuote, hsplit]
  · simp [inert?, isQuote, hsplit]

theorem inert?_of_isPlain (h : isPlain c = true) (r : Text) : inert? (c :: r) = none :=
  inert?_eq_none (isQuote_of_isPlain h) (by rintro rfl; cases h) r

theorem inert?_of_spells (hk : k ≠ .string) (h : k.spells t = true) (hc : c ∈ t) (r : Text) :
    inert? (c :: r) = none := by
  rcases spells_iff.mp h with ⟨-, h⟩ | ⟨-, h⟩ | ⟨rfl, -⟩ | h
  · exact inert?_of_isPlain (isPlain_of_isIdentifierChar (all_of_isIdentifier h c hc)) r
  · exact inert?_of_isPlain (isPlain_of_isNumberChar (all_of_isNumber h c hc)) r
  · exact absurd rfl hk
  · have hall : ∀ k ∈ Kind.all, ∀ t ∈ k.spellings, ∀ c ∈ t, isQuote c = false ∧ c ≠ '/' := by
      decide
    obtain ⟨hquote, hslash⟩ := hall k k.mem_all t h c hc
    exact inert?_eq_none hquote hslash r

/-! ## The ends of a token -/

theorem head?_mem_symbols (hword : k.isWordlike = false) (h : k.spells t = true) :
    ∀ c ∈ t.head?, c ∈ symbols := by
  intro c hc
  by_cases hk : k = .string
  · subst hk
    obtain ⟨q, s, rfl, hq, -⟩ := isString_iff.mp h
    rcases hq with rfl | rfl
    · rw [← Option.mem_some.mp hc]
      decide
    · rw [← Option.mem_some.mp hc]
      decide
  · exact mem_symbols_of_spells hword hk h c (List.mem_of_mem_head? hc)

/-- A string literal ends in its quote. -/
theorem getLast?_of_isString (h : isString t = true) :
    t.getLast? = some '"' ∨ t.getLast? = some '\'' := by
  obtain ⟨q, s, rfl, hq, hs⟩ := isString_iff.mp h
  have hne : s ≠ [] := by
    rintro rfl
    cases hs
  rw [← List.singleton_append, List.getLast?_append_of_ne_nil _ hne, getLast?_of_endsString hs]
  rcases hq with rfl | rfl
  · exact .inl rfl
  · exact .inr rfl

theorem getLast?_mem_symbols (hword : k.isWordlike = false) (h : k.spells t = true) :
    ∀ c ∈ t.getLast?, c ∈ symbols := by
  intro c hc
  by_cases hk : k = .string
  · subst hk
    rcases getLast?_of_isString h with hlast | hlast
    · rw [hlast, Option.mem_some] at hc
      rw [← hc]
      decide
    · rw [hlast, Option.mem_some] at hc
      rw [← hc]
      decide
  · exact mem_symbols_of_spells hword hk h c (List.mem_of_mem_getLast? hc)

/-- What begins with an operator is spelled in one of finitely many ways. -/
theorem mem_spellings_of_head? (h : k.spells t = true) (hc : t.head? = some c)
    (hid : isIdentifierChar c = false) (hnumber : isNumberChar c = false)
    (hquote : isQuote c = false) : t ∈ k.spellings := by
  have hmem : c ∈ t := List.mem_of_mem_head? hc
  rcases spells_iff.mp h with ⟨-, h⟩ | ⟨-, h⟩ | ⟨-, h⟩ | h
  · rw [all_of_isIdentifier h c hmem] at hid
    cases hid
  · rw [all_of_isNumber h c hmem] at hnumber
    cases hnumber
  · obtain ⟨q, r, rfl, hq, -⟩ := isString_iff.mp h
    cases hc
    rcases hq with rfl | rfl <;> cases hquote
  · exact h

/-! ### Kinds told by the first character -/

theorem kind_of_head?_equals (h : k.spells t = true) (ht : t.head? = some '=') :
    k = .equals ∨ k = .arrow := by
  have hall : ∀ k ∈ Kind.all, ∀ t ∈ k.spellings, t.head? = some '=' → k = .equals ∨ k = .arrow := by
    decide
  exact hall k k.mem_all t (mem_spellings_of_head? h ht (by decide) (by decide) (by decide)) ht

theorem kind_of_head?_colon (h : k.spells t = true) (ht : t.head? = some ':') : k = .colon := by
  have hall : ∀ k ∈ Kind.all, ∀ t ∈ k.spellings, t.head? = some ':' → k = .colon := by
    decide
  exact hall k k.mem_all t (mem_spellings_of_head? h ht (by decide) (by decide) (by decide)) ht

theorem kind_of_head?_brace (h : k.spells t = true) (ht : t.head? = some '{') :
    k = .opening .brace := by
  have hall : ∀ k ∈ Kind.all, ∀ t ∈ k.spellings, t.head? = some '{' → k = .opening .brace := by
    decide
  exact hall k k.mem_all t (mem_spellings_of_head? h ht (by decide) (by decide) (by decide)) ht

/-! ### Kinds with one spelling -/

theorem text_of_opening {b : Bracket} (h : k.spells t = true) (hk : k = .opening b) :
    t = [b.opening] := by
  rw [hk] at h
  simpa [Kind.spells, Kind.spellings] using h

theorem text_of_closing {b : Bracket} (h : k.spells t = true) (hk : k = .closing b) :
    t = [b.closing] := by
  rw [hk] at h
  simpa [Kind.spells, Kind.spellings] using h

theorem text_of_arrow (h : k.spells t = true) (hk : k = .arrow) : t = ['=', '>'] := by
  rw [hk] at h
  simpa [Kind.spells, Kind.spellings] using h

theorem text_of_colon (h : k.spells t = true) (hk : k = .colon) : t = [':'] := by
  rw [hk] at h
  simpa [Kind.spells, Kind.spellings] using h

theorem text_of_comma (h : k.spells t = true) (hk : k = .comma) : t = [','] := by
  rw [hk] at h
  simpa [Kind.spells, Kind.spellings] using h

/-- No token begins with white space. -/
theorem stops_isWhite_of_spells (h : k.spells t = true) : Stops isWhite t := by
  intro c hc
  by_cases hk : k = .string
  · subst hk
    exact isWhite_of_mem_symbols (head?_mem_symbols rfl h c hc)
  · exact isWhite_of_spells hk h c (List.mem_of_mem_head? hc)

/-- No token ends in white space. -/
theorem stops_isWhite_reverse (h : k.spells t = true) : Stops isWhite t.reverse := by
  intro c hc
  rw [List.head?_reverse] at hc
  by_cases hk : k = .string
  · subst hk
    exact isWhite_of_mem_symbols (getLast?_mem_symbols rfl h c hc)
  · exact isWhite_of_spells hk h c (List.mem_of_mem_getLast? hc)

end Untyped

end PluginPack
