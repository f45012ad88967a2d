import PluginPack.CommandLine.Run
import Std.Time.Format

/-!
# The program

Takes the files that a run may touch from the disk, runs the command line on them, and puts back
what has changed. The files are those below the working directory, those below the paths of the
command, and the program's own.
-/

namespace PluginPack.Disk

/-- The absolute name of a location. -/
def nameOf (loc : Location) : String := String.ofList ('/' :: List.intercalate ['/'] loc)

/-- The location of a path that begins at a location. -/
def locationOf (here : Location) (p : Path) : Location :=
  ((Path.mk (nameOf here).toList).join p).normalize.normalComponents.filterMap fun
    | .name n => some n
    | _ => none

/-- The directories above a location. -/
def above (loc : Location) : List Location := (List.range loc.length).map loc.take

/-- Reads one node. -/
def readNode (loc : Location) : IO (List (Location × Node)) := do
  let p := (← IO.currentDir) / nameOf loc
  if ← p.isDir then return [(loc, .dir)]
  else if ← p.pathExists then return [(loc, .file (.ofBytes (← IO.FS.readBinFile p)))]
  else return []

/-- Whether a location holds a symbolic link. -/
def isLink (loc : Location) : IO Bool := do
  match (← ((← IO.currentDir) / nameOf loc).symlinkMetadata).type with
  | .symlink => return true
  | _ => return false

/-- Reads a node and all that is below it, without going into directories through links. -/
partial def readTree (loc : Location) : IO (List (Location × Node)) := do
  let node ← readNode loc
  match node with
  | [(_, .dir)] =>
    let entries ← ((← IO.currentDir) / nameOf loc).readDir
    let locs := entries.toList.map fun e ↦ loc ++ [e.fileName.toList]
    let below ← locs.mapM fun l ↦ do if ← isLink l then readNode l else readTree l
    return node ++ below.flatten
  | _ => return node

/-- Reads the trees at some locations and the nodes above them. -/
def read (here : Location) (locs : List Location) : IO FileSystem := do
  let nodes ← (locs.flatMap above).eraseDups.mapM readNode
  let trees ← locs.mapM readTree
  let found := (nodes ++ trees).flatten.filter (·.1 ≠ [])
  return ⟨(found.map (·.1)).eraseDups.filterMap fun l ↦ (found.lookup l).map (l, ·), here⟩

/-- Writes what has changed between two file systems. -/
def write (old new : FileSystem) : IO Unit := do
  for (loc, node) in old.nodes do
    if (new.node? loc).isNone ∧ (← ((← IO.currentDir) / nameOf loc).pathExists) then
      match node with
      | .dir => IO.FS.removeDirAll (nameOf loc)
      | .file _ => IO.FS.removeFile (nameOf loc)
  for (loc, node) in new.nodes.mergeSort (fun a b ↦ a.1.length ≤ b.1.length) do
    if old.node? loc ≠ some node then
      match node with
      | .dir => IO.FS.createDirAll (nameOf loc)
      | .file c => IO.FS.writeBinFile (nameOf loc) c.toBytes

/-- The paths that a command works on. -/
def pathsOf : Command → List Path
  | .build project output => project :: output.toList
  | .init r => (r.directory.or r.name?).toList.map Path.mk
  | .showConfig | .showConfigPath => []

/-- The paths that a command line works on, none if it asks for no work. -/
def paths (env : Environment) (words : List Text) : List Path :=
  match CommandLine.read words with
  | .error _ => []
  | .ok i => ⟨['.']⟩ :: env.directory.toList ++ (Config.path env).toOption.toList ++
      (i.command.map pathsOf).getD []

end PluginPack.Disk

open PluginPack

/-- Runs the command line. -/
def main (args : List String) : IO UInt32 := do
  let words := args.map String.toList
  let home ← IO.getEnv "HOME"
  let configFile ← IO.getEnv "SAPPHILLON_CONFIG"
  let env := Environment.ofVariables (home.map String.toList) (configFile.map String.toList)
  let here := Disk.locationOf [] ⟨(← IO.currentDir).toString.toList⟩
  let files ← Disk.read here ((Disk.paths env words).map (Disk.locationOf here))
  let now := (← Std.Time.PlainDateTime.now).format "uuuu-MM-dd HH:mm:ss"
  let outcome := CommandLine.run (.start files ("[" ++ now ++ "] ").toList) env words
  Disk.write files outcome.console.files
  (← IO.getStdout).putStr (String.ofList outcome.console.output)
  (← IO.getStderr).putStr (String.ofList outcome.console.errors)
  return if outcome.succeeded then 0 else 1
