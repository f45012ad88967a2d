import PluginPack.Scaffold.Options

/-!
# Invocations

What a command line asks for once it has been read: one command, or none, and how much is to be
told.
-/

namespace PluginPack

open Text

/-- How much the user wants to be told. -/
structure Loudness where
  quiet : Bool
  verbose : Nat
deriving DecidableEq, Repr

/-- The verbosity of the console. Quiet comes before verbose. -/
def Loudness.verbosity (l : Loudness) : Nat := if l.quiet then 0 else l.verbose

/-- A command with its arguments. -/
inductive Command where
  | build (project : Path) (output : Option Path)
  | init (request : Scaffold.Request)
  | showConfig
  | showConfigPath
deriving DecidableEq, Repr

/-- A command line that has been read. -/
structure Invocation where
  loudness : Loudness
  command : Option Command
deriving DecidableEq, Repr

end PluginPack
