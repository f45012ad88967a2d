import PluginPack.Documentation.Extract
import PluginPack.Registry.Script

/-!
# Building a package

A build reads the manifest of a project, bundles its entry module, takes the documentation of the
functions from the entry module as it is written, and writes one script.
-/

namespace PluginPack

open Text

/-- Why a build fails. -/
inductive BuildError where
  | manifest (e : ManifestError)
  | bundle (e : BundleError)
  | unreadableEntry (path : Path) (cause : FileError)
  | notWritten (path : Path) (cause : FileError)
deriving DecidableEq, Repr

/-- What an error is reported as. -/
def BuildError.message : BuildError → Text
  | .manifest e => e.message
  | .bundle e => e.message
  | .unreadableEntry p e =>
    "Failed to read entry module ".toList ++ p.text ++ ": ".toList ++ e.message
  | .notWritten p e => "Failed to write ".toList ++ p.text ++ ": ".toList ++ e.message

namespace Build

/-- The name of the script in the output directory. -/
def outputName : Path := ⟨"package.js".toList⟩

/-- What a build has made. -/
structure Summary where
  output : Path
  functionCount : Nat
  moduleCount : Nat
deriving DecidableEq, Repr

/-- A script that is ready to be written. -/
structure Product where
  script : Text
  functionCount : Nat
  moduleCount : Nat
deriving DecidableEq, Repr

/-- Makes the script of a project, without writing anything. -/
def prepare (fs : FileSystem) (project : Path) : Except BuildError Product := do
  let package ← (Descriptor.load fs project).mapError .manifest
  let bundle ← (Bundle.make fs.moduleStore project ⟨package.entry⟩).mapError .bundle
  let entry := bundle.modules.getLast?.getD (package.entryPath project)
  let source ← (fs.readText entry).mapError (.unreadableEntry entry)
  let functions := Documentation.extract source
  pure
    { script := Registry.script bundle.code bundle.isTyped functions package
      functionCount := functions.length
      moduleCount := bundle.modules.length }

/-- Writes a script into a directory, which is made if need be. -/
def write (fs : FileSystem) (outputDir : Path) (p : Product) :
    FileSystem × Except BuildError Summary :=
  match fs.makeDirs outputDir with
  | (fs', .error e) => (fs', .error (.notWritten outputDir e))
  | (fs', .ok _) =>
    let output := outputDir.join outputName
    match fs'.writeFile output (.text p.script) with
    | .error e => (fs', .error (.notWritten output e))
    | .ok fs'' => (fs'', .ok ⟨output, p.functionCount, p.moduleCount⟩)

/-- Builds the project in a directory into an output directory. -/
def run (fs : FileSystem) (project outputDir : Path) : FileSystem × Except BuildError Summary :=
  match prepare fs project with
  | .error e => (fs, .error e)
  | .ok p => write fs outputDir p

end Build

end PluginPack
