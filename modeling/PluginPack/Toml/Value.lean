import PluginPack.Text.Basic

/-!
# TOML values

The values of a TOML document. A number, a date or a time that is well formed is kept as it is
written. Tables remember how they came about, because that decides whether a later line may add
to them.
-/

namespace PluginPack.Toml

/-- How a table came about. -/
inductive Origin where
  /-- A header names it. -/
  | header
  /-- A header names a table below it. -/
  | implicit
  /-- A dotted key leads through it. -/
  | dotted
  /-- It is written in braces. -/
  | inline
deriving DecidableEq, Repr

/-- A value. -/
inductive Value where
  | string (t : Text)
  | integer (n : Int)
  | float (t : Text)
  | boolean (b : Bool)
  | datetime (t : Text)
  | array (items : List Value)
  | table (origin : Origin) (entries : List (Text × Value))
  /-- The tables of headers in double brackets, the last one first. -/
  | tables (elements : List (List (Text × Value)))
deriving Repr

/-- The entries of a table, in the order of their keys' first appearance. -/
abbrev Entries := List (Text × Value)

end PluginPack.Toml
