import PluginPack.Manifest.Descriptor
import PluginPack.Text.Escape

/-!
# Writing a manifest

The manifest of a new project: one section with one line for each field. Values stand in double
quotes, with escapes, so that the text is also a document for readers that know escapes.
-/

namespace PluginPack

open Text

namespace Manifest

/-- The values of a new manifest. -/
structure Template where
  name : Text
  version : Text
  description : Text
  entry : Text
  authorId : Option Text
  packageId : Text
deriving DecidableEq, Repr

namespace Template

/-- The keys and values in the order in which they are written. An empty author is left out. -/
def fields (m : Template) : List (Text × Text) :=
  [("name".toList, m.name), ("version".toList, m.version),
    ("description".toList, m.description), ("entry".toList, m.entry)] ++
  ((m.authorId.filter (· ≠ [])).toList.map ("author_id".toList, ·)) ++
  [("package_id".toList, m.packageId)]

/-- The line of a field. -/
def line (field : Text × Text) : Text :=
  field.1 ++ " = \"".toList ++ escapeBySteps field.2 ++ ['"']

/-- The text of the manifest. -/
def render (m : Template) : Text :=
  List.intercalate ['\n'] (('[' :: packageSection ++ [']']) :: m.fields.map line) ++ ['\n']

end Template

end Manifest

end PluginPack
