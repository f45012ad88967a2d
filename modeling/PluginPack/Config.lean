import PluginPack.Console
import PluginPack.Toml.Document

/-!
# User configuration

Defaults for new projects, read from a TOML file. A file that does not exist gives no defaults; keys
that are not known are passed over, and a known key has to be a string.
-/

namespace PluginPack

open Text

/-- The defaults that a user has set. -/
structure Config where
  packageId : Option Text
  authorId : Option Text
  language : Option Text
deriving DecidableEq, Repr

/-- What is wrong with a configuration file. -/
structure TomlFault where
  path : Path
  /-- What is said of it, if anything is said. -/
  cause : Option Text
deriving DecidableEq, Repr

/-- Why there is no configuration. -/
inductive ConfigError where
  | noDirectory
  | unreadable (path : Path) (cause : FileError)
  | malformed (fault : TomlFault)
deriving DecidableEq, Repr

/-- What an error is reported as. -/
def ConfigError.message : ConfigError → Text
  | .noDirectory => "Could not determine config directory".toList
  | .unreadable p e => "Failed to read config ".toList ++ p.text ++ ": ".toList ++ e.message
  | .malformed f =>
    "Failed to parse config ".toList ++ f.path.text ++ f.cause.elim [] (": ".toList ++ ·)

namespace Config

/-- The configuration without any defaults. -/
def empty : Config := ⟨none, none, none⟩

/-- The name of the configuration file in its directory. -/
def fileName : Path := ⟨"sapphillon.toml".toList⟩

/-- Where the configuration file is. One that the surroundings name comes first, unless its name is
blank. -/
def path (env : Environment) : Except ConfigError Path :=
  match trim (env.configFile.getD []), env.directory with
  | [], some dir => .ok (dir.join fileName)
  | [], none => .error .noDirectory
  | p, _ => .ok ⟨p⟩

/-- The string of a key, if the key has a value. The answer is nothing when the value is no string.
-/
def string? (es : Toml.Entries) (key : Text) : Option (Option Text) :=
  match es.get? key with
  | none => some none
  | some (.string t) => some (some t)
  | some _ => none

/-- Reads the text of a configuration file. -/
def parse? (content : Text) : Option Config :=
  (Toml.parse? content).bind fun es ↦
    (string? es "package_id".toList).bind fun p ↦
      (string? es "author_id".toList).bind fun a ↦
        (string? es "language".toList).map fun l ↦ ⟨p, a, l⟩

/-- Reads a configuration file. What is said of a text that is no configuration is a parameter: the
words are those of the TOML reader in use. -/
def loadFrom (fs : FileSystem) (p : Path) (tomlFault : Text → Option Text := fun _ ↦ none) :
    Except ConfigError Config :=
  if fs.pathExists p then
    match fs.readText p with
    | .error e => .error (.unreadable p e)
    | .ok content =>
      match parse? content with
      | none => .error (.malformed ⟨p, tomlFault content⟩)
      | some c => .ok c
  else .ok empty

/-- Reads the configuration file of the surroundings. -/
def load (fs : FileSystem) (env : Environment) : Except ConfigError Config :=
  match path env with
  | .error e => .error e
  | .ok p => loadFrom fs p env.tomlFault

/-- The defaults that are set, with their keys. -/
def values (c : Config) : List (Text × Text) :=
  [("package_id".toList, c.packageId), ("author_id".toList, c.authorId),
    ("language".toList, c.language)].filterMap fun (k, v) ↦ v.map (k, ·)

/-- Whether no default is set. -/
def isEmpty (c : Config) : Bool := c == empty

end Config

end PluginPack
