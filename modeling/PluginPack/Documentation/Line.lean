import PluginPack.Text.Marker

/-!
# Lines of a documentation block

What one line of a documentation block says. Lines are cleaned of white space at both ends and of
one asterisk in front. A cleaned line is a parameter, a return value, a list of permissions, free
text, or nothing of interest, which includes tags of other kinds and tags that are not well formed.
-/

namespace PluginPack

open Text

namespace Documentation

/-- A capability that a function needs, and the resource it needs it for. -/
structure Permission where
  capability : Text
  resource : Text
deriving DecidableEq, Repr

/-- What a line says. -/
inductive Line where
  | param (type name description : Text)
  | returns (type description : Text)
  | permissions (ps : List Permission)
  | text (t : Text)
  | other
deriving DecidableEq, Repr

/-- The line without white space around it and without one asterisk in front. -/
def cleanLine (line : Text) : Text :=
  match trimStart line with
  | '*' :: r => trim r
  | t => trim t

/-- The type in braces that a text begins with, which is not empty, and the rest. -/
def bracedType? : Text → Option (Text × Text)
  | '{' :: r =>
    match r.takeWhile (· != '}'), r.dropWhile (· != '}') with
    | c :: cs, '}' :: rest => some (c :: cs, rest)
    | _, _ => none
  | _ => none

/-- Reads `@param {type} name - description`. The dash may be missing. -/
def param? (line : Text) : Option Line :=
  (keyword? "@param".toList line).bind fun r ↦ (bracedType? r).bind fun (type, r) ↦
    (white? r).bind fun r ↦
      let name := r.takeWhile isNameChar
      if name = [] then none
      else
        let r := trimStart (r.dropWhile isNameChar)
        some (.param (trim type) name (trim (optionally (word? ['-']) r)))

/-- Reads `@returns {type} description` or `@return {type} description`. A dash before the
description is dropped only when white space follows it. -/
def returns? (line : Text) : Option Line :=
  ((keyword? "@returns".toList line).or (keyword? "@return".toList line)).bind fun r ↦
    (bracedType? r).map fun (type, r) ↦
      .returns (trim type) (trim (optionally (keyword? ['-']) (trimStart r)))

/-! ## Permissions -/

/-- A character of a capability. -/
def isCapabilityChar (c : Char) : Bool := c != '"' && c != '\'' && c != ':'

/-- A character of a resource. -/
def isResourceChar (c : Char) : Bool := c != '"' && c != '\''

/-- The quoted permission that a text begins with, and the rest. Quotes of both kinds serve at
either end. -/
def permission? : Text → Option (Permission × Text)
  | [] => none
  | q :: r =>
    if isResourceChar q then none
    else
      match r.takeWhile isCapabilityChar, r.dropWhile isCapabilityChar with
      | [], _ => none
      | capability, ':' :: r =>
        match r.takeWhile isResourceChar, r.dropWhile isResourceChar with
        | [], _ => none
        | _, [] => none
        | resource, _ :: rest => some (⟨trim capability, trim resource⟩, rest)
      | _, _ => none

theorem permission?_suffix {t r : Text} {p : Permission} (h : permission? t = some (p, r)) :
    r <:+ t ∧ r.length < t.length := by
  unfold permission? at h
  split at h
  · cases h
  · rename_i q s
    split at h
    · cases h
    · split at h
      · cases h
      · rename_i u hu _
        have hus : ':' :: u <:+ s := hu ▸ List.dropWhile_suffix _
        split at h
        · cases h
        · cases h
        · rename_i c rest hd _
          cases h
          have hru : c :: r <:+ u := hd ▸ List.dropWhile_suffix _
          have hr : r <:+ s := (List.suffix_cons c r).trans <| hru.trans <|
            (List.suffix_cons ':' u).trans hus
          exact ⟨hr.trans (List.suffix_cons q s), Nat.lt_succ_of_le hr.length_le⟩
      · cases h

/-- Quoted permissions, wherever they begin. -/
def permission : Marker Permission where
  find? _ t := permission? t
  suffix h := (permission?_suffix h).1
  shorter h := (permission?_suffix h).2

/-- The permissions in a list, in order. A permission without a capability does not count. -/
def readPermissions (list : Text) : List Permission :=
  ((permission.findAll list).map (·.value)).filter (·.capability ≠ [])

/-- Reads `@permission ["capability:resource", ...]`. The list ends at the last closing bracket. -/
def permissions? (line : Text) : Option Line :=
  (keyword? "@permission".toList line).bind fun r ↦ (word? ['['] r).bind fun r ↦
    match r.reverse.dropWhile (· != ']') with
    | [] => none
    | _ :: list => some (.permissions (readPermissions list.reverse))

/-- Tells what a cleaned line says. -/
def Line.read (line : Text) : Line :=
  ((param? line).or <| (returns? line).or (permissions? line)).getD <|
    if line.head?.all (· == '@') then .other else .text line

end Documentation

end PluginPack
