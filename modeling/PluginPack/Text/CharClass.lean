import PluginPack.Text.Alphabetic
import PluginPack.Text.Numeric

/-!
# Character classes

The classes that statements, names and blanks are made of. White space, word characters and
letters follow Unicode; blanks and ASCII white space do not go beyond ASCII.
-/

namespace PluginPack

/-- White space beyond ASCII. -/
def whiteRanges : List CodeRange :=
  [⟨133, 133⟩, ⟨160, 160⟩, ⟨5760, 5760⟩, ⟨8192, 8202⟩, ⟨8232, 8233⟩, ⟨8239, 8239⟩,
    ⟨8287, 8287⟩, ⟨12288, 12288⟩]

/-- White space: the space, the controls from tab to carriage return, and white space beyond
ASCII. -/
def isWhite (c : Char) : Bool :=
  if c.toNat < 128 then c == ' ' || (9 ≤ c.toNat && c.toNat ≤ 13) else inRanges whiteRanges c

/-- A blank inside a line: a space or a tab. -/
def isBlank (c : Char) : Bool := c == ' ' || c == '\t'

/-- ASCII white space, which leaves out the vertical tab. -/
def isAsciiWhite (c : Char) : Bool :=
  c == ' ' || c == '\t' || c == '\n' || c == '\r' || c == '\x0c'

/-- An ASCII letter or digit. -/
def isAsciiAlphanumeric (c : Char) : Bool := c.isAlphanum

/-- A letter or a number. -/
def isAlphanumeric (c : Char) : Bool :=
  if c.toNat < 128 then c.isAlphanum
  else inRanges alphabeticRanges c || inRanges decimalDigitRanges c || inRanges otherNumberRanges c

/-- A character that may stand in a word: a letter, a decimal digit, a mark, a connector such as
the underscore, or a joiner. -/
def isWordChar (c : Char) : Bool :=
  if c.toNat < 128 then c.isAlphanum || c == '_'
  else inRanges alphabeticRanges c || inRanges decimalDigitRanges c || inRanges wordMarkRanges c

/-- A character that may stand in a name: a word character or a dollar sign. -/
def isNameChar (c : Char) : Bool := isWordChar c || c == '$'

/-- A character that may begin the name of an exported function. -/
def isNameStart (c : Char) : Bool := c.isAlpha || c == '_' || c == '$'

theorem isWhite_of_isBlank {c : Char} (h : isBlank c = true) : isWhite c = true := by
  simp only [isBlank, Bool.or_eq_true, beq_iff_eq] at h
  rcases h with rfl | rfl <;> rfl

theorem isWhite_of_isAsciiWhite {c : Char} (h : isAsciiWhite c = true) : isWhite c = true := by
  simp only [isAsciiWhite, Bool.or_eq_true, beq_iff_eq] at h
  rcases h with (((rfl | rfl) | rfl) | rfl) | rfl <;> rfl

end PluginPack
