import PluginPack.Toml.Value

/-!
# Building TOML tables

Adding the lines of a document to the tables that they name. A key gets a value once; a header may
name a table again only when the table has so far been named as the parent of another one; a dotted
key gives its value only in a table that dotted keys have made, and reaches it through tables that
no header names; and tables in braces and arrays in brackets are complete as they stand.
-/

namespace PluginPack.Toml

namespace Entries

/-- The value of a key. -/
def get? (es : Entries) (key : Text) : Option Value := es.lookup key

/-- Gives a value to a key, in the place of the one it has. -/
def set (key : Text) (v : Value) : Entries → Entries
  | [] => [(key, v)]
  | e :: es => if e.1 = key then (key, v) :: es else e :: set key v es

end Entries

/-- How a line walks down to the table it adds to. -/
inductive Walk where
  /-- Along the keys of a header. -/
  | header
  /-- Along the keys before the last one of a dotted key. -/
  | dotted
deriving DecidableEq, Repr

/-- The table that a walk enters at a key, and how to put it back when it has changed. Where a walk
along a dotted key ends, the table has to be one that dotted keys have made. -/
def enter? (walk : Walk) (ends : Bool) : Option Value → Option (Entries × (Entries → Value))
  | none =>
    let origin := if walk = .dotted then .dotted else .implicit
    some ([], .table origin)
  | some (.table origin es) =>
    match walk, origin with
    | _, .inline => none
    | .dotted, .header => none
    | .dotted, .implicit => if ends then none else some (es, .table .implicit)
    | _, _ => some (es, .table origin)
  | some (.tables (last :: others)) =>
    if walk = .dotted ∧ ends then none else some (last, fun es ↦ .tables (es :: others))
  | some _ => none

/-- Changes the table at the end of a path of keys. Tables that are missing on the way are made. -/
def updateAt? (walk : Walk) (change : Entries → Option Entries) :
    List Text → Entries → Option Entries
  | [], es => change es
  | k :: ks, es =>
    (enter? walk ks.isEmpty (es.get? k)).bind fun (inner, wrap) ↦
      (updateAt? walk change ks inner).map fun inner ↦ es.set k (wrap inner)

/-- Gives a key its value. -/
def assign? (key : Text) (v : Value) (es : Entries) : Option Entries :=
  if (es.get? key).isSome then none else some (es.set key v)

/-- Gives a dotted key its value. -/
def assignPath? (keys : List Text) (v : Value) (es : Entries) : Option Entries :=
  keys.getLast?.bind fun last ↦ updateAt? .dotted (assign? last v) keys.dropLast es

/-- Opens the table that a header names. -/
def openTable? (keys : List Text) (es : Entries) : Option Entries :=
  keys.getLast?.bind fun last ↦
    updateAt? .header (fun es ↦
      match es.get? last with
      | none => some (es.set last (.table .header []))
      | some (.table .implicit inner) => some (es.set last (.table .header inner))
      | some _ => none) keys.dropLast es

/-- Begins the table that a header in double brackets names. -/
def appendTable? (keys : List Text) (es : Entries) : Option Entries :=
  keys.getLast?.bind fun last ↦
    updateAt? .header (fun es ↦
      match es.get? last with
      | none => some (es.set last (.tables [[]]))
      | some (.tables elements) => some (es.set last (.tables ([] :: elements)))
      | some _ => none) keys.dropLast es

/-- Changes the table that was opened last, given the keys of its header. -/
def updateOpen? (change : Entries → Option Entries) (opened : List Text) (es : Entries) :
    Option Entries :=
  updateAt? .header change opened es

end PluginPack.Toml
