import PluginPack.Bundle.Basic
import PluginPack.Manifest.Descriptor
import PluginPack.Registry.Declaration
import PluginPack.Text.Escape

/-!
# The script of a package

The code of a bundle, a declaration for every documented function that the code does not declare,
and an assignment that registers the package: its identity and the descriptions of its functions,
with all texts in double quotes.
-/

namespace PluginPack

open Text

namespace Registry

/-- The place where the runtime looks for the package. -/
def target : Text := "Sapphillon.Package".toList

/-- A text in double quotes. -/
def quoted (t : Text) : Text := '"' :: escape t ++ ['"']

/-- A key with its value. -/
def member (key : String) (value : Text) : Text := key.toList ++ ": ".toList ++ value

/-- Members in braces on one line. -/
def inlineObject (members : List Text) : Text :=
  "\x7b ".toList ++ List.intercalate ", ".toList members ++ " \x7d".toList

/-- How a permission is written. -/
def permissionText (p : Documentation.Permission) : Text :=
  inlineObject [member "type" (quoted p.capability), member "resource" (quoted p.resource)]

/-- How a parameter is written. -/
def parameterText (p : Documentation.Parameter) : Text :=
  inlineObject [member "name" (quoted p.name), member "idx" (Text.ofNat p.index),
    member "type" (quoted p.type), member "description" (quoted p.description)]

/-- How a return value is written. -/
def returnText (r : Documentation.Return) : Text :=
  inlineObject [member "type" (quoted r.type), member "idx" (Text.ofNat r.index),
    member "description" (quoted r.description)]

/-- A list on one line. -/
def inlineList (items : List Text) : Text := '[' :: List.intercalate ", ".toList items ++ [']']

/-- A list with one line for each item, or a pair of brackets when there is none. -/
def blockList (items : List Text) : Text :=
  if items = [] then "[]".toList
  else "[\n        ".toList ++ List.intercalate ",\n        ".toList items ++ "\n      ]".toList

/-- The entry of a function. -/
def functionText (f : Documentation.Function) : Text :=
  "    ".toList ++ f.name ++ ": \x7b\n      handler: ".toList ++ f.name ++
    ",\n      permissions: ".toList ++ inlineList (f.permissions.map permissionText) ++
    ",\n      description: ".toList ++ quoted f.description ++
    ",\n      parameters: ".toList ++ blockList (f.parameters.map parameterText) ++
    ",\n      returns: ".toList ++ blockList (f.returns.map returnText) ++ "\n    \x7d".toList

/-- The identity of a package. -/
def metaText (d : Descriptor) : Text :=
  let fields := [member "name" (quoted d.name), member "version" (quoted d.version),
    member "description" (quoted d.description), member "author_id" (quoted d.authorId),
    member "package_id" (quoted d.packageId)]
  "  meta: \x7b\n    ".toList ++ List.intercalate ",\n    ".toList fields ++ "\n  \x7d,\n".toList

/-- The assignment that registers a package. -/
def registration (fs : List Documentation.Function) (d : Descriptor) : Text :=
  target ++ " = \x7b\n".toList ++ metaText d ++ "  functions: \x7b\n".toList ++
    List.intercalate ",\n".toList (fs.map functionText) ++
    (if fs = [] then [] else ['\n']) ++ "  \x7d\n\x7d;\n".toList

/-- The code that stands before the registration: the code of the bundle, and behind it the missing
declarations. -/
def preamble (code : Text) (isTyped : Bool) (fs : List Documentation.Function) : Text :=
  code ++ fs.flatMap fun f ↦
    if declares code f.name then [] else "\n\n".toList ++ declaration f isTyped

/-- The script of a package, for the functions of a list that are the first of their name. -/
def script (code : Text) (isTyped : Bool) (functions : List Documentation.Function)
    (d : Descriptor) : Text :=
  let fs := Documentation.distinct functions
  preamble code isTyped fs ++ "\n\n".toList ++ registration fs d

end Registry

end PluginPack
