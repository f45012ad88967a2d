import PluginPack.Path

/-!
# File systems

A file system is a finite tree of directories and regular files, with a working directory that
relative paths begin at. Nodes are kept by their location, the list of names that leads to them from
the root. A path is followed from left to right, and every directory on the way has to exist, also
one that the path leaves again by a step up.

An operation fails for the form of a path or for what stands in the tree, and for nothing else:
there are no permissions and no links, and a disk is never full. So of several files that a program
writes one after the other, the later ones may be sure to be written where the first was. The list
of files to ignore and the entry module of a new project are: a project that can not be written
fails with its directories or with its manifest.
-/

namespace PluginPack

/-- What a file holds: a text, or bytes that are not a text in UTF-8. -/
inductive Content where
  | text (t : Text)
  | bytes (b : List UInt8)
deriving DecidableEq, Repr

/-- The content that bytes make up. -/
def Content.ofBytes (b : ByteArray) : Content :=
  match String.fromUTF8? b with
  | some s => .text s.toList
  | none => .bytes b.toList

/-- The bytes of a content. -/
def Content.toBytes : Content → ByteArray
  | .text t => (String.ofList t).toUTF8
  | .bytes b => ⟨b.toArray⟩

/-- The content with a text written behind it. -/
def Content.append : Content → Text → Content
  | .text t, s => .text (t ++ s)
  | .bytes b, s => .bytes (b ++ (String.ofList s).toUTF8.toList)

/-- A node of a file system. -/
inductive Node where
  | dir
  | file (content : Content)
deriving DecidableEq, Repr

/-- The names that lead from the root to a node. -/
abbrev Location := List Text

/-- A file system. -/
structure FileSystem where
  /-- The nodes below the root. -/
  nodes : List (Location × Node)
  /-- The location of the working directory. -/
  workingDirectory : Location
deriving DecidableEq, Repr

/-- Why an operation on files fails. -/
inductive FileError where
  | notFound
  | resourceBusy
  | alreadyExists
  | notADirectory
  | isADirectory
  | invalidArgument
  | nameTooLong
  | directoryNotEmpty
  | notUtf8
  | nulInPath
deriving DecidableEq, Repr

/-- What an error is reported as. -/
def FileError.message : FileError → Text
  | .notFound => "No such file or directory (os error 2)".toList
  | .resourceBusy => "Device or resource busy (os error 16)".toList
  | .alreadyExists => "File exists (os error 17)".toList
  | .notADirectory => "Not a directory (os error 20)".toList
  | .isADirectory => "Is a directory (os error 21)".toList
  | .invalidArgument => "Invalid argument (os error 22)".toList
  | .nameTooLong => "File name too long (os error 36)".toList
  | .directoryNotEmpty => "Directory not empty (os error 39)".toList
  | .notUtf8 => "stream did not contain valid UTF-8".toList
  | .nulInPath => "file name contained an unexpected NUL byte".toList

namespace FileSystem

/-- The number of bytes that a name may have. -/
def maxNameBytes : Nat := 255

/-- The number of bytes that a path may have. -/
def maxPathBytes : Nat := 4095

/-- A file system that holds a working directory and nothing else. -/
def withWorkingDirectory (loc : Location) : FileSystem where
  nodes := (List.range loc.length).map fun i ↦ (loc.take (i + 1), .dir)
  workingDirectory := loc

/-! ## Nodes -/

/-- The node at a location. The root is always a directory. -/
def node? (fs : FileSystem) (loc : Location) : Option Node :=
  if loc = [] then some .dir else fs.nodes.lookup loc

/-- Puts a node at a location, in the place of what was there. -/
def setNode (fs : FileSystem) (loc : Location) (n : Node) : FileSystem :=
  { fs with nodes := (loc, n) :: fs.nodes.filter (·.1 ≠ loc) }

/-- Removes every node for which a test on its location holds. -/
def removeWhere (fs : FileSystem) (p : Location → Bool) : FileSystem :=
  { fs with nodes := fs.nodes.filter fun n ↦ !p n.1 }

/-! ## Following paths -/

/-- Goes one step from a location, which has to be a directory. -/
def step (fs : FileSystem) (loc : Location) (piece : Text) : Except FileError Location :=
  match fs.node? loc with
  | none => .error .notFound
  | some (.file _) => .error .notADirectory
  | some .dir =>
    if piece = [] ∨ piece = ['.'] then .ok loc
    else if piece = ['.', '.'] then .ok loc.dropLast
    else if maxNameBytes < Text.utf8Length piece then .error .nameTooLong
    else .ok (loc ++ [piece])

/-- Where a path begins. -/
def start (fs : FileSystem) (p : Path) : Location :=
  if p.isAbsolute then [] else fs.workingDirectory

/-- Follows the pieces of a path from a location. Nothing need exist where they lead. -/
def follow (fs : FileSystem) (loc : Location) (pieces : List Text) : Except FileError Location :=
  pieces.foldlM fs.step loc

/-- Refuses the paths that lead nowhere, whatever the file system holds. -/
def checkPath (p : Path) : Except FileError Unit :=
  if p.text.contains '\x00' then .error .nulInPath
  else if p.text = [] then .error .notFound
  else if maxPathBytes < Text.utf8Length p.text then .error .nameTooLong
  else .ok ()

/-- The location and the node that a path leads to. -/
def locate (fs : FileSystem) (p : Path) : Except FileError (Location × Node) := do
  checkPath p
  let loc ← fs.follow (fs.start p) (Path.splitSlashes p.text)
  match fs.node? loc with
  | none => .error .notFound
  | some n => .ok (loc, n)

/-- Whether a path leads to anything. -/
def pathExists (fs : FileSystem) (p : Path) : Bool := (fs.locate p).isOk

/-- Whether a path leads to a directory. -/
def isDir (fs : FileSystem) (p : Path) : Bool :=
  match fs.locate p with
  | .ok (_, .dir) => true
  | _ => false

/-- The content of the regular file that a path leads to, if it leads to one. -/
def fileAt? (fs : FileSystem) (p : Path) : Option Content :=
  match fs.locate p with
  | .ok (_, .file c) => some c
  | _ => none

theorem utf8Length_le_of_checkPath {p : Path} (h : checkPath p = .ok ()) :
    Text.utf8Length p.text ≤ maxPathBytes := by
  refine Nat.le_of_not_lt fun hlong ↦ ?_
  rw [checkPath, if_pos hlong] at h
  split at h
  · exact absurd h nofun
  · split at h
    · exact absurd h nofun
    · exact absurd h nofun

/-- A path that leads to a file is not too long. -/
theorem length_le_of_fileAt? {fs : FileSystem} {p : Path} (h : (fs.fileAt? p).isSome) :
    p.text.length ≤ maxPathBytes := by
  have hp : checkPath p = .ok () := by
    rw [fileAt?, locate] at h
    revert h
    cases checkPath p with
    | error e => exact fun h ↦ absurd h Bool.false_ne_true
    | ok u => exact fun _ ↦ rfl
  exact Nat.le_trans (Text.length_le_utf8Length p.text) (utf8Length_le_of_checkPath hp)

/-- The text of the file that a path leads to. -/
def readText (fs : FileSystem) (p : Path) : Except FileError Text :=
  match fs.locate p with
  | .ok (_, .file (.text t)) => .ok t
  | .ok (_, .file (.bytes _)) => .error .notUtf8
  | .ok (_, .dir) => .error .isADirectory
  | .error e => .error e

/-! ## Changing files and directories -/

/-- The last piece of a path, as far as making or removing a node there is concerned. -/
inductive LastPiece where
  | root
  | here
  | up
  | name (n : Text)
deriving DecidableEq, Repr

/-- Cuts a path, without its trailing slashes, into the pieces before the last one and the last. -/
def splitLast (p : Path) : List Text × LastPiece :=
  match ((Path.splitSlashes p.text).reverse.dropWhile (· = [])) with
  | [] => ([], .root)
  | piece :: rest =>
    (rest.reverse,
      if piece = ['.'] then .here else if piece = ['.', '.'] then .up else .name piece)

/-- The directory in which a path names its last piece, and that piece. -/
def locateParent (fs : FileSystem) (p : Path) : Except FileError (Location × LastPiece) := do
  checkPath p
  let (pieces, last) := splitLast p
  let loc ← fs.follow (fs.start p) pieces
  match fs.node? loc with
  | none => .error .notFound
  | some (.file _) => .error .notADirectory
  | some .dir => .ok (loc, last)

/-- Makes one directory. -/
def makeDir (fs : FileSystem) (p : Path) : Except FileError FileSystem := do
  let (dir, last) ← fs.locateParent p
  match last with
  | .name n =>
    let loc ← fs.step dir n
    match fs.node? loc with
    | some _ => .error .alreadyExists
    | none => .ok (fs.setNode loc .dir)
  | _ => .error .alreadyExists

/-- A path and the paths to its parents, as far as a directory may have to be made for them. -/
def ancestors (p : Path) : List Path :=
  let cs := p.components
  let above := (List.range cs.length).reverse.map cs.take
  p :: (above.filter fun c ↦ c ≠ [] ∧ c ≠ [.root]).map Path.ofComponents

/-- Makes the directories of a list, nearest to the root last, that do not exist yet. Answers with
the file system, and with an error where a directory can not be made; what was made before stays. -/
def makeDirsDown (fs : FileSystem) : List Path → FileSystem × Except FileError Unit
  | [] => (fs, .ok ())
  | p :: ps =>
    match fs.makeDir p with
    | .ok fs' => fs'.makeDirsDown ps
    | .error .alreadyExists =>
      if fs.isDir p then fs.makeDirsDown ps else (fs, .error .alreadyExists)
    | .error e => (fs, .error e)

/-- Makes the first directory of a list that can be made, and then those before it. The list goes
from a directory to the directories above it, and `missing` holds those already found missing. -/
def makeDirsUp (fs : FileSystem) (missing : List Path) :
    List Path → FileSystem × Except FileError Unit
  | [] => fs.makeDirsDown missing
  | p :: ps =>
    match fs.makeDir p with
    | .ok fs' => fs'.makeDirsDown missing
    | .error .notFound => fs.makeDirsUp (p :: missing) ps
    | .error .alreadyExists =>
      if fs.isDir p then fs.makeDirsDown missing else (fs, .error .alreadyExists)
    | .error e => (fs, .error e)

/-- Makes a directory and the directories above it. -/
def makeDirs (fs : FileSystem) (p : Path) : FileSystem × Except FileError Unit :=
  if p.parent?.isNone then (fs, .ok ()) else fs.makeDirsUp [] (ancestors p)

/-- Writes a file, in the place of one that is there. -/
def writeFile (fs : FileSystem) (p : Path) (c : Content) : Except FileError FileSystem := do
  let (dir, last) ← fs.locateParent p
  match last with
  | .name n =>
    let loc ← fs.step dir n
    if fs.node? loc = some .dir ∨ p.text.getLast? = some '/' then .error .isADirectory
    else .ok (fs.setNode loc (.file c))
  | _ => .error .isADirectory

/-- Writes a text behind what a file holds. A file that is missing is made. -/
def appendFile (fs : FileSystem) (p : Path) (t : Text) : Except FileError FileSystem :=
  fs.writeFile p (((fs.fileAt? p).getD (.text [])).append t)

/-- Removes a regular file. -/
def removeFile (fs : FileSystem) (p : Path) : Except FileError FileSystem := do
  match ← fs.locate p with
  | (_, .dir) => .error .isADirectory
  | (loc, .file _) => .ok (fs.removeWhere (· = loc))

/-- Removes one empty directory. -/
def removeEmptyDir (fs : FileSystem) (p : Path) : Except FileError FileSystem := do
  let (dir, last) ← fs.locateParent p
  match last with
  | .name n => .ok (fs.removeWhere (· = dir ++ [n]))
  | .here => .error .invalidArgument
  | .up => .error .directoryNotEmpty
  | .root => .error .resourceBusy

/-- Removes a directory with all that is below it. What is below it goes first, so that a path that
leads back to where it came from may no longer lead anywhere when the directory itself is due. -/
def removeDirAll (fs : FileSystem) (p : Path) : FileSystem × Except FileError Unit :=
  match fs.locate p with
  | .error e => (fs, .error e)
  | .ok (_, .file _) => (fs, .error .notADirectory)
  | .ok (loc, .dir) =>
    let emptied := fs.removeWhere fun l ↦ loc.isPrefixOf l && l != loc
    match emptied.removeEmptyDir p with
    | .ok fs' => (fs', .ok ())
    | .error .notFound => (emptied, .ok ())
    | .error e => (emptied, .error e)

/-- Removes a file, or a directory with all that is below it. -/
def remove (fs : FileSystem) (p : Path) : FileSystem × Except FileError Unit :=
  match fs.removeFile p with
  | .ok fs' => (fs', .ok ())
  | .error _ => fs.removeDirAll p

/-! ## Looking at a whole tree -/

/-- The files and the empty directories below the working directory, by the names that lead there.
-/
def tree (fs : FileSystem) : List (Location × Node) :=
  let below := fs.nodes.filterMap fun (loc, n) ↦
    if fs.workingDirectory.isPrefixOf loc && loc != fs.workingDirectory then
      some (loc.drop fs.workingDirectory.length, n)
    else none
  below.filter fun (loc, n) ↦
    match n with
    | .file _ => true
    | .dir => below.all fun (l, _) ↦ !(loc.isPrefixOf l && l != loc)

/-- A tree shows the files below the working directory, all of them and no others. -/
theorem mem_tree_iff {fs : FileSystem} {loc : Location} {c : Content} :
    (loc, .file c) ∈ fs.tree ↔ loc ≠ [] ∧ (fs.workingDirectory ++ loc, .file c) ∈ fs.nodes := by
  simp only [tree, List.mem_filter, and_true, List.mem_filterMap]
  constructor
  · rintro ⟨⟨l, n⟩, hmem, hshown⟩
    split at hshown
    · next hbelow =>
      obtain ⟨hwithin, hne⟩ := Bool.and_eq_true_iff.mp hbelow
      obtain ⟨rest, rfl⟩ := List.isPrefixOf_iff_prefix.mp hwithin
      obtain ⟨rfl, rfl⟩ : rest = loc ∧ n = .file c := by simpa using hshown
      refine ⟨fun hnil ↦ ?_, hmem⟩
      simp [hnil] at hne
    · cases hshown
  · rintro ⟨hne, hmem⟩
    refine ⟨_, hmem, ?_⟩
    simp [hne]

end FileSystem

end PluginPack
