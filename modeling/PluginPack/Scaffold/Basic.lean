import PluginPack.Scaffold.Options

/-!
# Making a project

A new project is a directory with a manifest, a list of files to ignore, and an entry module. Its
path must not hold steps up, and nothing may be there yet. When writing fails, the directory is
removed.
-/

namespace PluginPack

open Text

namespace Scaffold

/-- The files that version control is to ignore. -/
def ignoreList : Text :=
  ("# Build output\npackage.js\n*.js.map\n\n# Dependencies\nnode_modules/\ndeno.lock\n\n" ++
    "# Editors\n.vscode/\n.idea/\n*.swp\n*.swo\n*~\n\n# OS\n.DS_Store\nThumbs.db\n\n" ++
    "# Logs and temporary files\n*.log\n*.tmp\ntmp/\n").toList

/-- The documentation of the function in a new entry module. -/
def entryDocumentation : Text :=
  ("/**\n * Adds two numbers.\n * @param \x7bnumber\x7d a - The first addend\n" ++
    " * @param \x7bnumber\x7d b - The second addend\n * @returns \x7bnumber\x7d The sum\n" ++
    " * @permission [\"FileSystemRead:/etc\", \"FileSystemWrite:/etc\"]\n */\n").toList

/-- The text of a new entry module. -/
def entryText : Language → Text
  | .javascript => entryDocumentation ++
    "export function add(a, b) \x7b\n  return a + b;\n\x7d\n".toList
  | .typescript => entryDocumentation ++
    "export function add(a: number, b: number): number \x7b\n  return a + b;\n\x7d\n".toList

/-- Reads backslashes as slashes, and refuses a path that holds two dots before a slash or begins
with two dots. -/
def validatePath (path : Text) : Except InitError Text :=
  let p := path.map fun c ↦ if c = '\\' then '/' else c
  if (cutAt? "../".toList p).isSome ∨ (word? "..".toList p).isSome then .error (.invalidPath path)
  else .ok p

/-- Writes one file of a project and tells the user. -/
def writeStep (c : Console) (p : Path) (content : Text) (shown : Text) :
    Console × Except FileError Unit :=
  match c.files.writeFile p (.text content) with
  | .error e => (c, .error e)
  | .ok fs => ({ c with files := fs }.tell .step ("Created ".toList ++ shown), .ok ())

/-- Writes files until one can not be written. -/
def writeSteps (c : Console) : List (Path × Text × Text) → Console × Except FileError Unit
  | [] => (c, .ok ())
  | (p, content, shown) :: rest =>
    match writeStep c p content shown with
    | (c, .error e) => (c, .error e)
    | (c, .ok _) => writeSteps c rest

/-- The files of a project: where each goes, what it holds, and what it is called in messages. -/
def files (target : Path) (o : Options) : List (Path × Text × Text) :=
  [(target.join Manifest.fileName, o.manifest.render, Manifest.fileName.text),
    (target.join ⟨".gitignore".toList⟩, ignoreList, ".gitignore".toList),
    ((target.join ⟨"src".toList⟩).join o.language.entryFile, entryText o.language,
      "src/".toList ++ o.language.entryFile.text)]

/-- Writes a project into a directory. -/
def writeProject (c : Console) (target : Path) (o : Options) : Console × Except FileError Unit :=
  match c.files.makeDirs (target.join ⟨"src".toList⟩) with
  | (fs, .error e) => ({ c with files := fs }, .error e)
  | (fs, .ok _) => writeSteps { c with files := fs } (files target o)

/-- Removes what is in the way of trying again. -/
def cleanUp (c : Console) (target : Path) : Console :=
  match c.files.removeDirAll target with
  | (fs, .ok _) => { c with files := fs }
  | (fs, .error e) => { c with files := fs }.tell .debug
      ("Failed to clean up ".toList ++ target.text ++ ": ".toList ++ e.message)

/-- Makes a project and answers with its directory. -/
def run (c : Console) (o : Options) : Console × Except InitError Path :=
  match validatePath o.directory with
  | .error e => (c, .error e)
  | .ok p =>
    let target : Path := ⟨p⟩
    match c.files.locate target with
    | .ok (_, .dir) => (c, .error (.alreadyExists target))
    | .ok (_, .file _) => (c, .error (.notADirectory target))
    | .error .notFound =>
      match writeProject c target o with
      | (c, .ok _) => (c, .ok target)
      | (c, .error e) => (cleanUp c target, .error (.failed target e))
    | .error e => (c, .error (.failed target e))

end Scaffold

end PluginPack
