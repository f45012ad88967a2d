import PluginPack.Text.Lowercase

/-!
# Package identifiers

The component of a package identifier that a display name gives: the lowercase ASCII letters and
digits of the lowercased name, with one hyphen for every run of other characters between them.
-/

namespace PluginPack

namespace PackageId

/-- A character that stays in an identifier. -/
def isKept (c : Char) : Bool := c.isLower || c.isDigit

/-- Writes the kept characters of a lowercased name. `pending` says that something was left out
since the last kept character, and `started` that there was one. -/
def collapse (started pending : Bool) : Text → Text
  | [] => []
  | c :: r =>
    if isKept c then
      if pending && started then '-' :: c :: collapse true false r else c :: collapse true false r
    else collapse started true r

/-- The component that a display name gives. -/
def component (name : Text) : Text := collapse false false (name.flatMap lowercase)

/-- The identifier of a package of an author. Without an author it is the component of the name. -/
def derive (author name : Text) : Text :=
  if author = [] then component name else author ++ '.' :: component name

end PackageId

end PluginPack
