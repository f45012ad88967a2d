import PluginPack.Toml.Scalar
import PluginPack.Toml.Table

/-!
# TOML documents

Reading a whole document. Every step begins at the front of a text and answers with what it has read
and the rest. A document that breaks a rule anywhere has no reading at all.
-/

namespace PluginPack.Toml

open Text

/-! ## Blanks and comments -/

/-- The rest after blanks. -/
def skipBlanks (t : Text) : Text := t.dropWhile isBlank

/-- The rest after a comment, or the text itself when it begins with none. -/
def comment? : Text → Option Text
  | '#' :: r =>
    let rest := r.dropWhile isPlain
    if rest = [] ∨ beginsNewline rest then some rest else none
  | t => some t

/-- The rest after what may stand at the end of a line, up to the newline. -/
def lineRest? (t : Text) : Option Text :=
  (comment? (skipBlanks t)).filter fun r ↦ r == [] || beginsNewline r

/-- The rest after blanks, newlines and comments. The number bounds how many are read. -/
def skipSpace : Nat → Text → Option Text
  | 0, t => some t
  | n + 1, t =>
    (comment? (skipBlanks t)).bind fun r ↦
      if beginsNewline r then skipSpace n (dropNewline r) else some r

/-- The rest after all blanks, newlines and comments. -/
def space? (t : Text) : Option Text := skipSpace t.length t

/-! ## Keys -/

/-- A character of a key without quotes. -/
def isBareKeyChar (c : Char) : Bool := c.isAlphanum || c == '_' || c == '-'

/-- Reads one key. -/
def simpleKey? : Text → Option (Text × Text)
  | '"' :: r => basic? 0 r
  | '\'' :: r => literal? r
  | t =>
    let k := t.takeWhile isBareKeyChar
    if k = [] then none else some (k, t.dropWhile isBareKeyChar)

/-- Reads keys with dots between them, at most as many as the number says. Blanks may stand around
the dots and behind the last key. -/
def dottedKey? : Nat → Text → Option (List Text × Text)
  | 0, _ => none
  | n + 1, t =>
    (simpleKey? t).bind fun (k, r) ↦
      match skipBlanks r with
      | '.' :: r => (dottedKey? n (skipBlanks r)).map fun p ↦ (k :: p.1, p.2)
      | r => some ([k], r)

/-- How many keys may stand in a row with dots between them. -/
def maxKeys : Nat := 80

/-- Reads a key. -/
def key? (t : Text) : Option (List Text × Text) := dottedKey? maxKeys t

/-! ## Values -/

/-- How deep arrays and tables in braces may be nested. -/
def maxNesting : Nat := 80

/-- Reads the items of an array from behind its bracket, at most as many as the number says. -/
def items? (value? : Text → Option (Value × Text)) : Nat → Text → Option (List Value × Text)
  | 0, _ => none
  | n + 1, t =>
    (space? t).bind fun
      | ']' :: r => some ([], r)
      | r => (value? r).bind fun (v, r) ↦ (space? r).bind fun
        | ',' :: r => (items? value? n r).map fun p ↦ (v :: p.1, p.2)
        | ']' :: r => some ([v], r)
        | _ => none

/-- Reads the entries of a table in braces from behind its brace, at most as many as the number
says. Newlines and comments may stand between a key and its value, but not inside a dotted key. -/
def members? (value? : Text → Option (Value × Text)) :
    Nat → Entries → Text → Option (Entries × Text)
  | 0, _, _ => none
  | n + 1, es, t =>
    (space? t).bind fun
      | '}' :: r => some (es, r)
      | r => (key? r).bind fun (keys, r) ↦ ((space? r).bind (word? ['='])).bind fun r ↦
        ((space? r).bind value?).bind fun (v, r) ↦ (assignPath? keys v es).bind fun es ↦
          (space? r).bind fun
            | ',' :: r => members? value? n es r
            | '}' :: r => some (es, r)
            | _ => none

/-- Reads a value. The number bounds how deep it may be nested. -/
def value? : Nat → Text → Option (Value × Text)
  | depth, t =>
    match t with
    | '"' :: _ => (string? t).map fun p ↦ (.string p.1, p.2)
    | '\'' :: _ => (string? t).map fun p ↦ (.string p.1, p.2)
    | '[' :: r =>
      match depth with
      | 0 => none
      | d + 1 => (items? (value? d) (r.length + 1) r).map fun p ↦ (.array p.1, p.2)
    | '{' :: r =>
      match depth with
      | 0 => none
      | d + 1 =>
        (members? (value? d) (r.length + 1) [] r).map fun p ↦ (.table .inline p.1, p.2)
    | _ =>
      let (word, r) := splitBare t
      (bareValue? word).map (·, r)

/-! ## Lines -/

/-- The document so far: its entries, and the keys of the header that the next line stands under. -/
structure Progress where
  entries : Entries
  opened : List Text

/-- Reads a header in single brackets from behind the bracket. -/
def tableHeader? (p : Progress) (t : Text) : Option (Progress × Text) :=
  (key? (skipBlanks t)).bind fun (keys, r) ↦ (word? [']'] r).bind fun r ↦
    (openTable? keys p.entries).map fun es ↦ (⟨es, keys⟩, r)

/-- Reads a header in double brackets from behind the brackets. -/
def arrayHeader? (p : Progress) (t : Text) : Option (Progress × Text) :=
  (key? (skipBlanks t)).bind fun (keys, r) ↦ (word? [']', ']'] r).bind fun r ↦
    (appendTable? keys p.entries).map fun es ↦ (⟨es, keys⟩, r)

/-- Reads a key with its value. -/
def assignment? (p : Progress) (t : Text) : Option (Progress × Text) :=
  (key? t).bind fun (keys, r) ↦ (word? ['='] r).bind fun r ↦
    (value? maxNesting (skipBlanks r)).bind fun (v, r) ↦
      (updateOpen? (assignPath? keys v) p.opened p.entries).map fun es ↦ (⟨es, p.opened⟩, r)

/-- Reads what a line says, up to its end. -/
def line? (p : Progress) (t : Text) : Option (Progress × Text) :=
  let said := match skipBlanks t with
    | '[' :: '[' :: r => arrayHeader? p r
    | '[' :: r => tableHeader? p r
    | r =>
      if r = [] ∨ beginsNewline r ∨ r.head? = some '#' then some (p, r) else assignment? p r
  said.bind fun (p, r) ↦ (lineRest? r).map (p, ·)

/-- Reads lines, at most as many as the number says. -/
def document? : Nat → Progress → Text → Option Entries
  | 0, _, _ => none
  | n + 1, p, t =>
    (line? p t).bind fun (p, r) ↦
      if r = [] then some p.entries else document? n p (dropNewline r)

/-- The mark that may stand at the very beginning of a document. -/
def byteOrderMark : Char := Char.ofNat 0xFEFF

/-- Reads a document. -/
def parse? (t : Text) : Option Entries :=
  document? (t.length + 1) ⟨[], []⟩ (optionally (word? [byteOrderMark]) t)

end PluginPack.Toml
