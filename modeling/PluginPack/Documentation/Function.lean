import PluginPack.Documentation.Line

/-!
# Documented functions

The record of a documented function: what its documentation block says and what its source shows.
-/

namespace PluginPack

open Text

namespace Documentation

/-- A documented parameter. -/
structure Parameter where
  name : Text
  /-- The place among the parameters of the block, from 0. -/
  index : Nat
  type : Text
  description : Text
deriving DecidableEq, Repr

/-- A documented return value. -/
structure Return where
  type : Text
  /-- The place among the return values of the block, from 0. -/
  index : Nat
  description : Text
deriving DecidableEq, Repr

/-- The record of a documented function. -/
structure Function where
  name : Text
  /-- The first line of free text in the block. -/
  description : Text
  parameters : List Parameter
  returns : List Return
  permissions : List Permission
  /-- The body between the braces. -/
  body : Text
  /-- The text between the parentheses of the signature. -/
  params : Text
  isAsync : Bool
  /-- The line of the word `export`, from 1. -/
  line : Nat
deriving DecidableEq, Repr

/-- The functions of a list whose names are not taken, each name once. -/
def distinctFrom (taken : List Text) : List Function → List Function
  | [] => []
  | f :: fs =>
    if f.name ∈ taken then distinctFrom taken fs else f :: distinctFrom (f.name :: taken) fs

/-- The functions of a list without those whose name comes earlier in it. -/
def distinct (fs : List Function) : List Function := distinctFrom [] fs

/-! ## What a block says -/

/-- The parameters that lines describe. -/
def parameters (lines : List Line) : List Parameter :=
  (lines.filterMap fun
    | .param type name description => some (type, name, description)
    | _ => none).zipIdx.map fun ((type, name, description), i) ↦ ⟨name, i, type, description⟩

/-- The return values that lines describe. -/
def returnValues (lines : List Line) : List Return :=
  (lines.filterMap fun
    | .returns type description => some (type, description)
    | _ => none).zipIdx.map fun ((type, description), i) ↦ ⟨type, i, description⟩

/-- The permissions that lines list. -/
def permissionsOf (lines : List Line) : List Permission :=
  lines.flatMap fun
    | .permissions ps => ps
    | _ => []

/-- The first line of free text. -/
def description (lines : List Line) : Text :=
  (lines.findSome? fun
    | .text t => some t
    | _ => none).getD []

/-- The lines of the text between the ends of a block. -/
def readBlock (inner : Text) : List Line := (Text.lines inner).map fun l ↦ .read (cleanLine l)

end Documentation

end PluginPack
