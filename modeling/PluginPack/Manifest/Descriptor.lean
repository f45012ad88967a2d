import PluginPack.FileSystem.Basic
import PluginPack.Manifest.PackageId
import PluginPack.Manifest.Section

/-!
# Package descriptors

The identity and the entry module of a package, as its manifest gives them. Only the section
`package` counts and must be there; fields that are missing are empty, but for the entry module,
which has a default, and the package identifier, which is derived.
-/

namespace PluginPack

namespace Manifest

/-- The name of the manifest in a project directory. -/
def fileName : Path := ⟨"package.toml".toList⟩

/-- The section that every manifest has. -/
def packageSection : Text := "package".toList

/-- The entry module of a manifest that names none. -/
def defaultEntry : Text := "src/index.js".toList

end Manifest

/-- The identity and the entry module of a package. -/
structure Descriptor where
  name : Text
  version : Text
  description : Text
  /-- The path of the entry module from the project directory. -/
  entry : Text
  /-- Empty when the manifest names no author. -/
  authorId : Text
  packageId : Text
deriving DecidableEq, Repr

/-- Why a descriptor can not be read. -/
inductive ManifestError where
  | notFound (path : Path)
  | missingSection (name : Text)
  | unreadable (cause : FileError)
deriving DecidableEq, Repr

/-- What an error is reported as. -/
def ManifestError.message : ManifestError → Text
  | .notFound p => "package.toml not found at ".toList ++ p.text
  | .missingSection s => "Missing [".toList ++ s ++ "] section in package.toml".toList
  | .unreadable e => "IO error: ".toList ++ e.message

namespace Descriptor

/-- The descriptor that the section of a package gives. -/
def ofSection (s : Manifest.Section) : Descriptor :=
  let field (key : String) : Text := (s.get? key.toList).getD []
  { name := field "name"
    version := field "version"
    description := field "description"
    entry := if field "entry" = [] then Manifest.defaultEntry else field "entry"
    authorId := field "author_id"
    packageId :=
      if field "package_id" = [] then PackageId.derive (field "author_id") (field "name")
      else field "package_id" }

/-- Reads the text of a manifest. -/
def parse (content : Text) : Except ManifestError Descriptor :=
  match (Manifest.Table.parse content).section? Manifest.packageSection with
  | some s => .ok (ofSection s)
  | none => .error (.missingSection Manifest.packageSection)

/-- Reads the manifest in a project directory. -/
def load (fs : FileSystem) (project : Path) : Except ManifestError Descriptor :=
  let path := project.join Manifest.fileName
  match fs.readText path with
  | .ok content => parse content
  | .error .notFound => .error (.notFound path)
  | .error e => .error (.unreadable e)

/-- The path of the entry module. -/
def entryPath (d : Descriptor) (project : Path) : Path := project.join ⟨d.entry⟩

end Descriptor

end PluginPack
