import PluginPack.Text.Basic

/-!
# Sections of a manifest

A manifest is a sequence of lines: headers in square brackets, assignments, blank lines and
comments. An assignment belongs to the section of the last header before it, or to the root before
any header; a section whose header comes again goes on. A value in matching quotes loses them, and
nothing in it is an escape.
-/

namespace PluginPack

open Text

namespace Manifest

/-- A named list of keys with their values, in the order in which the keys came first. -/
structure Section where
  name : Text
  entries : List (Text × Text)
deriving DecidableEq, Repr

namespace Section

/-- A section without keys. -/
def empty (name : Text) : Section := ⟨name, []⟩

/-- The value of a key. -/
def get? (s : Section) (key : Text) : Option Text := s.entries.lookup key

/-- Gives a value to a key in a list of entries, in the place of its first entry if there is one. -/
def assign (key value : Text) : List (Text × Text) → List (Text × Text)
  | [] => [(key, value)]
  | e :: es => if e.1 = key then (key, value) :: es else e :: assign key value es

/-- Gives a value to a key. A key that has one already keeps its place. -/
def insert (s : Section) (key value : Text) : Section :=
  { s with entries := assign key value s.entries }

end Section

/-- The sections of a manifest. -/
structure Table where
  /-- The assignments before any header. -/
  root : Section
  sections : List Section
deriving DecidableEq, Repr

namespace Table

/-- The table of an empty manifest. -/
def empty : Table := ⟨.empty [], []⟩

/-- The section of a name. -/
def section? (t : Table) (name : Text) : Option Section := t.sections.find? (·.name = name)

/-- Adds a section unless there is one of that name. -/
def openSection (t : Table) (name : Text) : Table :=
  if t.sections.any (·.name = name) then t
  else { t with sections := t.sections ++ [.empty name] }

/-- Gives a value to a key in the named section, or in the root. -/
def insert (t : Table) (current : Option Text) (key value : Text) : Table :=
  match current with
  | none => { t with root := t.root.insert key value }
  | some name =>
    { t with sections := t.sections.map fun s ↦ if s.name = name then s.insert key value else s }

end Table

/-! ## Reading -/

/-- What a line of a manifest says. -/
inductive Line where
  | header (name : Text)
  | assignment (key value : Text)
  /-- A line without meaning: blank, a comment, or not an assignment. -/
  | other
deriving DecidableEq, Repr

/-- The name between square brackets, which holds at least one character and no closing bracket. -/
def header? : Text → Option Text
  | '[' :: r =>
    if r.getLast? = some ']' ∧ r.dropLast ≠ [] ∧ ']' ∉ r.dropLast then some r.dropLast else none
  | _ => none

/-- The text without the quotes around it, if these are two and the same. -/
def unquote (t : Text) : Text :=
  match t with
  | q :: r => if (q = '"' ∨ q = '\'') ∧ r.getLast? = some q then r.dropLast else t
  | [] => t

/-- Reads a line. -/
def Line.read (line : Text) : Line :=
  let t := trim line
  if t.head?.all (· == '#') then .other
  else
    match header? t with
    | some name => .header name
    | none =>
      match t.span (· != '=') with
      | (key, _ :: value) =>
        if trim key = [] then .other else .assignment (trim key) (unquote (trim value))
      | (_, []) => .other

/-- Takes a line into account, given the table so far and the section that is open. -/
def Line.apply : Table × Option Text → Line → Table × Option Text
  | (t, _), .header name => (t.openSection name, some name)
  | (t, current), .assignment key value => (t.insert current key value, current)
  | s, .other => s

/-- The sections of a manifest text. -/
def Table.parse (content : Text) : Table :=
  ((lines content).map Line.read |>.foldl Line.apply (.empty, none)).1

end Manifest

end PluginPack
