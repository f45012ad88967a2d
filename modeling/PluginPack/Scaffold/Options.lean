import PluginPack.Config
import PluginPack.Manifest.Template

/-!
# New projects

What is asked for when a project is made, and how it is completed from the defaults of the user.
-/

namespace PluginPack

open Text

/-- The language of an entry module. -/
inductive Language where
  | javascript
  | typescript
deriving DecidableEq, Repr

namespace Language

/-- The names of a language, its own name first. -/
def names : Language → List Text
  | .javascript => ["javascript".toList, "js".toList]
  | .typescript => ["typescript".toList, "ts".toList]

/-- The language of a name. -/
def ofName? (name : Text) : Option Language :=
  [javascript, typescript].find? fun l ↦ l.names.contains name

/-- The name of the entry module. -/
def entryFile : Language → Path
  | .javascript => ⟨"index.js".toList⟩
  | .typescript => ⟨"index.ts".toList⟩

/-- The name shown to the user. -/
def displayName : Language → Text
  | .javascript => "JavaScript".toList
  | .typescript => "TypeScript".toList

end Language

namespace Scaffold

/-- What a command line asks for. -/
structure Request where
  positionalName : Option Text
  name : Option Text
  directory : Option Text
  packageId : Option Text
  description : Option Text
  language : Option Language
deriving DecidableEq, Repr

/-- All that a new project is made from. -/
structure Options where
  name : Text
  directory : Text
  packageId : Text
  authorId : Option Text
  description : Text
  language : Language
deriving DecidableEq, Repr

/-- Why a project is not made. -/
inductive InitError where
  | missingName
  | invalidPath (path : Text)
  | alreadyExists (path : Path)
  | notADirectory (path : Path)
  | failed (path : Path) (cause : FileError)
deriving DecidableEq, Repr

/-- What an error is reported as. -/
def InitError.message : InitError → Text
  | .missingName =>
    "Plugin name is required (usage: sapphillon init <NAME> or --name <NAME>)".toList
  | .invalidPath t =>
    "Invalid path: '".toList ++ t ++ "' contains directory traversal sequences".toList
  | .alreadyExists p => "Directory '".toList ++ p.text ++ "' already exists".toList
  | .notADirectory p =>
    "Path '".toList ++ p.text ++ "' already exists and is not a directory".toList
  | .failed p e =>
    "Failed to initialize plugin package at ".toList ++ p.text ++ ": ".toList ++ e.message

/-- The package identifier of a project when nothing else gives one. -/
def defaultPackageId : Text := "com.example".toList

/-- The name of the project: the first one that is not blank, an option before a plain argument. -/
def Request.name? (r : Request) : Option Text :=
  [r.name, r.positionalName].findSome? (·.filter fun n ↦ !(trim n).isEmpty)

/-- The language that a name in the configuration stands for, in letters of either case. -/
def configuredLanguage? (name : Text) : Option Language := Language.ofName? (name.map Char.toLower)

/-- The language of the project. A name in the configuration that stands for no language gives the
usual one. -/
def Request.chosenLanguage (r : Request) (config : Config) : Language :=
  match r.language with
  | some l => l
  | none => (config.language.bind configuredLanguage?).getD .javascript

/-- The name in the configuration that stands for no language, when it had to be looked at. -/
def Request.unknownLanguage? (r : Request) (config : Config) : Option Text :=
  if r.language.isSome then none
  else config.language.filter fun n ↦ (configuredLanguage? n).isNone

/-- Completes a request from the defaults of the user. -/
def Request.resolve (r : Request) (config : Config) : Except InitError Options :=
  match r.name? with
  | none => .error .missingName
  | some name => .ok
    { name
      directory := r.directory.getD name
      packageId := (r.packageId.or config.packageId).getD defaultPackageId
      authorId := config.authorId.filter (· ≠ [])
      description := r.description.getD ("Plugin package for ".toList ++ name)
      language := r.chosenLanguage config }

/-- The manifest of the new project. -/
def Options.manifest (o : Options) : Manifest.Template where
  name := o.name
  version := "1.0.0".toList
  description := o.description
  entry := "src/".toList ++ o.language.entryFile.text
  authorId := o.authorId
  packageId := o.packageId

end Scaffold

end PluginPack
