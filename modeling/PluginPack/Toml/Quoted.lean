import PluginPack.Toml.Value

/-!
# TOML strings

The four kinds of string: basic strings, which have escapes, and literal strings, which have none,
each on one line or on several. Every reader begins behind the opening quotes and answers with the
string and the rest of the text. Control characters other than the tab are refused, and so is a
carriage return that no newline follows.
-/

namespace PluginPack.Toml

open Text

/-- A character that may stand in a string or a comment. -/
def isPlain (c : Char) : Bool := c == '\t' || (32 ≤ c.toNat && c.toNat != 127)

/-! ## Escapes -/

/-- The value of a hexadecimal digit. -/
def hexValue? (c : Char) : Option Nat :=
  if c.isDigit then some (c.toNat - '0'.toNat)
  else if 'a' ≤ c ∧ c ≤ 'f' then some (c.toNat - 'a'.toNat + 10)
  else if 'A' ≤ c ∧ c ≤ 'F' then some (c.toNat - 'A'.toNat + 10)
  else none

/-- The number that hexadecimal digits write. -/
def hexNumber? (digits : Text) : Option Nat :=
  digits.foldlM (fun n c ↦ (hexValue? c).map (n * 16 + ·)) 0

/-- The character of a code, if the code is one. -/
def charOfCode? (n : Nat) : Option Char := if n.isValidChar then some (Char.ofNat n) else none

/-- The character that a letter behind a backslash stands for. -/
def simpleEscape? : Char → Option Char
  | 'b' => some '\x08'
  | 't' => some '\t'
  | 'n' => some '\n'
  | 'f' => some '\x0c'
  | 'r' => some '\r'
  | 'e' => some '\x1b'
  | '"' => some '"'
  | '\\' => some '\\'
  | _ => none

/-- The number of hexadecimal digits behind a letter. -/
def hexDigits : Char → Nat
  | 'x' => 2
  | 'u' => 4
  | 'U' => 8
  | _ => 0

/-- The character that the text behind a backslash stands for, and the number of characters that
were read. -/
def escape? : Text → Option (Char × Nat)
  | [] => none
  | c :: r =>
    match hexDigits c with
    | 0 => (simpleEscape? c).map (·, 1)
    | n =>
      if r.length < n then none
      else ((hexNumber? (r.take n)).bind charOfCode?).map (·, n + 1)

/-! ## Strings on one line -/

/-- Reads a basic string. The number counts the characters that an escape has yet to skip. -/
def basic? (skip : Nat) : Text → Option (Text × Text)
  | [] => none
  | c :: r =>
    match skip with
    | n + 1 => basic? n r
    | 0 =>
      if c = '"' then some ([], r)
      else if c = '\\' then
        (escape? r).bind fun (d, n) ↦ (basic? n r).map fun p ↦ (d :: p.1, p.2)
      else if isPlain c then (basic? 0 r).map fun p ↦ (c :: p.1, p.2)
      else none

/-- Reads a literal string. -/
def literal? : Text → Option (Text × Text)
  | [] => none
  | c :: r =>
    if c = '\'' then some ([], r)
    else if isPlain c then (literal? r).map fun p ↦ (c :: p.1, p.2)
    else none

/-! ## Strings on several lines -/

/-- Whether a text begins with a newline, perhaps with a carriage return before it. -/
def beginsNewline : Text → Bool
  | '\n' :: _ => true
  | '\r' :: '\n' :: _ => true
  | _ => false

/-- Whether the character in front of a text may stand there in a string of several lines. -/
def isPlainOrNewline (c : Char) (r : Text) : Bool :=
  c == '\n' || (c == '\r' && r.head? == some '\n') || isPlain c

/-- The closing quotes of a string of several lines: up to two quotes right before the closing three
belong to the string. -/
def closing? (q : Char) (t : Text) : Option (Text × Text) :=
  let n := (t.takeWhile (· == q)).length
  if n < 3 then none else some (List.replicate (min n 5 - 3) q, t.drop (min n 5))

/-- What has yet to be passed over in a basic string of several lines. -/
inductive Skipping where
  /-- So many characters of an escape. -/
  | chars (n : Nat)
  /-- The blanks and newlines behind a backslash that ends a line. -/
  | blanks
deriving DecidableEq, Repr

/-- Reads a basic string of several lines. A backslash at the end of a line takes away all blanks
and newlines up to the next other character. -/
def multilineBasic? (skip : Skipping) : Text → Option (Text × Text)
  | [] => none
  | c :: r =>
    let here : Option (Text × Text) :=
      match closing? '"' (c :: r) with
      | some p => some p
      | none =>
        if c = '\\' then
          if beginsNewline (r.dropWhile isBlank) then multilineBasic? .blanks r
          else (escape? r).bind fun (d, n) ↦
            (multilineBasic? (.chars n) r).map fun p ↦ (d :: p.1, p.2)
        else if isPlainOrNewline c r then
          (multilineBasic? (.chars 0) r).map fun p ↦ (c :: p.1, p.2)
        else none
    match skip with
    | .chars (n + 1) => multilineBasic? (.chars n) r
    | .chars 0 => here
    | .blanks =>
      if isBlank c || beginsNewline (c :: r) then multilineBasic? .blanks r else here

/-- Reads a literal string of several lines. -/
def multilineLiteral? : Text → Option (Text × Text)
  | [] => none
  | c :: r =>
    match closing? '\'' (c :: r) with
    | some p => some p
    | none =>
      if isPlainOrNewline c r then (multilineLiteral? r).map fun p ↦ (c :: p.1, p.2) else none

/-- The text without a newline in front. -/
def dropNewline : Text → Text
  | '\n' :: r => r
  | '\r' :: '\n' :: r => r
  | t => t

/-- Reads the string of any kind that a text begins with. -/
def string? : Text → Option (Text × Text)
  | '"' :: '"' :: '"' :: r => multilineBasic? (.chars 0) (dropNewline r)
  | '\'' :: '\'' :: '\'' :: r => multilineLiteral? (dropNewline r)
  | '"' :: r => basic? 0 r
  | '\'' :: r => literal? r
  | _ => none

end PluginPack.Toml
