import PluginPack.Text.CodeRange

/-!
# Escapes in quoted text

Backslashes, double quotes, newlines, carriage returns and tabs are escaped inside double quotes.
The escaped text is defined twice: by five replacements in the whole text, one after the other, and
character by character.
-/

namespace PluginPack.Text

/-- Replaces every occurrence of a character by a text. -/
def replaceChar (c : Char) (w : Text) (t : Text) : Text :=
  t.flatMap fun d ↦ if d = c then w else [d]

/-- Escapes by replacements in the whole text. Backslashes come first, so that the backslashes of
the later replacements stay single. -/
def escapeBySteps (t : Text) : Text :=
  replaceChar '\t' ['\\', 't'] <|
    replaceChar '\r' ['\\', 'r'] <|
      replaceChar '\n' ['\\', 'n'] <|
        replaceChar '"' ['\\', '"'] <| replaceChar '\\' ['\\', '\\'] t

/-- How a character is written inside double quotes. -/
def escapeChar : Char → Text
  | '\\' => ['\\', '\\']
  | '"' => ['\\', '"']
  | '\n' => ['\\', 'n']
  | '\r' => ['\\', 'r']
  | '\t' => ['\\', 't']
  | c => [c]

/-- Escapes a text character by character. -/
def escape (t : Text) : Text := t.flatMap escapeChar

end PluginPack.Text
