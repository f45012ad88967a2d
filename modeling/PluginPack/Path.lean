import PluginPack.Text.Basic

/-!
# Paths

A path is kept as it was written, and what it means is read off its components: a root, steps up,
and names. A single dot counts only where a relative path begins with it, and doubled or trailing
slashes count nowhere. `normalize` gives the shortest path of the same meaning in a tree without
links, without looking at any tree.
-/

namespace PluginPack

open Text

/-- A path as written. -/
structure Path where
  text : Text
deriving DecidableEq, Repr

namespace Path

/-- A component of a path. -/
inductive Component where
  | root
  /-- A dot at the beginning of a relative path. -/
  | here
  /-- A step to the parent directory. -/
  | up
  | name (n : Text)
deriving DecidableEq, Repr

/-- The pieces of a text between slashes. -/
def splitSlashes : Text → List Text
  | [] => [[]]
  | c :: r =>
    if c = '/' then [] :: splitSlashes r
    else
      match splitSlashes r with
      | [] => [[c]]
      | p :: ps => (c :: p) :: ps

/-- Whether a path begins at the root. -/
def isAbsolute (p : Path) : Bool := p.text.head? == some '/'

/-- The component that a piece between slashes stands for, if it stands for one. -/
def Component.ofPiece? (piece : Text) : Option Component :=
  if piece = [] ∨ piece = ['.'] then none
  else if piece = ['.', '.'] then some .up
  else some (.name piece)

/-- The components of a path. -/
def components (p : Path) : List Component :=
  let pieces := splitSlashes p.text
  let start :=
    if p.isAbsolute then [.root] else if pieces.head? = some ['.'] then [.here] else []
  start ++ pieces.filterMap Component.ofPiece?

/-- How a component other than the root is written. -/
def Component.text : Component → Text
  | .root => []
  | .here => ['.']
  | .up => ['.', '.']
  | .name n => n

/-- Writes components, with single slashes between them. -/
def ofComponents : List Component → Path
  | .root :: cs => ⟨'/' :: List.intercalate ['/'] (cs.map Component.text)⟩
  | cs => ⟨List.intercalate ['/'] (cs.map Component.text)⟩

/-- Takes one component into account, given the components before it with the nearest first. A step
up takes back a name, is nothing at the root, and otherwise stays. -/
def normalStep (before : List Component) : Component → List Component
  | .here => before
  | .up =>
    match before with
    | .name _ :: rest => rest
    | .root :: _ => before
    | _ => .up :: before
  | c => c :: before

/-- The components of the normal form of a path. -/
def normalComponents (p : Path) : List Component := (p.components.foldl normalStep []).reverse

/-- The normal form of a path. Where nothing is left it is a single dot. -/
def normalize (p : Path) : Path :=
  match p.normalComponents with
  | [] => ⟨['.']⟩
  | cs => ofComponents cs

/-- Appends a path to a directory. An absolute path takes its place, and a slash is written only
after a directory that is not empty and does not end in one. -/
def join (dir p : Path) : Path :=
  if p.isAbsolute then p
  else if dir.text = [] ∨ dir.text.getLast? = some '/' then ⟨dir.text ++ p.text⟩
  else ⟨dir.text ++ '/' :: p.text⟩

/-- The path without its last component. The root and the empty path have no parent. -/
def parent? (p : Path) : Option Path :=
  match p.components with
  | [] => none
  | [.root] => none
  | cs => some (ofComponents cs.dropLast)

/-- The name that a path ends in, if it ends in one. -/
def fileName? (p : Path) : Option Text :=
  match p.components.getLast? with
  | some (.name n) => some n
  | _ => none

/-- The part of a file name behind its last dot. A dot that begins the name does not count. -/
def extension? (p : Path) : Option Text :=
  p.fileName?.bind fun n ↦
    match n.reverse.span (· != '.') with
    | (ext, '.' :: _ :: _) => some ext.reverse
    | _ => none

/-- Whether a path names a typed module. -/
def isTyped (p : Path) : Bool :=
  p.extension? == some "ts".toList || p.extension? == some "tsx".toList

/-- The path with something written behind it. -/
def append (p : Path) (t : Text) : Path := ⟨p.text ++ t⟩

end Path

end PluginPack
