import PluginPack.Build
import PluginPack.CommandLine.Reader
import PluginPack.Console
import PluginPack.Scaffold.Basic

/-!
# Running a command line

A command line is read, a log is begun, and the command is carried out. A fault in the command line
ends the run before any file is touched; a command that fails is told to the user together with the
place of the log.
-/

namespace PluginPack.CommandLine

open Text

/-- Why a command fails. -/
inductive CommandError where
  | build (e : BuildError)
  | init (e : Scaffold.InitError)
  | config (e : ConfigError)
deriving DecidableEq, Repr

/-- What an error is reported as. -/
def CommandError.message : CommandError → Text
  | .build e => e.message
  | .init e => e.message
  | .config e => e.message

/-- Writes lines on the output stream. -/
def printAll (c : Console) (ls : List Text) : Console := ls.foldl Console.print c

/-! ## The commands -/

/-- What a build reports on the output stream. -/
def buildReport (s : Build.Summary) : List Text :=
  ["✔ Build complete: ".toList ++ s.output.text,
    "   - Found ".toList ++ ofNat s.functionCount ++ " function(s)".toList]

/-- Tells the user about a script that has been written. -/
def reportBuild (c : Console) (l : Loudness) (s : Build.Summary) : Console :=
  let c := if s.functionCount = 0 then
    c.tell .warning "No documented exported functions found in entry module".toList else c
  let c := c.tell .info
    ("Bundled ".toList ++ ofNat s.moduleCount ++ " module(s) into ".toList ++ s.output.text)
  if l.quiet then c else printAll c (buildReport s)

/-- Builds a package. -/
def runBuild (c : Console) (l : Loudness) (project : Path) (output : Option Path) :
    Console × Except CommandError Unit :=
  let outputDir := output.getD project
  let c := c.tell .debug
    ("Project: ".toList ++ project.text ++ ", output: ".toList ++ outputDir.text)
  let c := c.announce ("Building ".toList ++ project.text)
  match Build.run c.files project outputDir with
  | (fs, .error e) => ({ c with files := fs }, .error (.build e))
  | (fs, .ok s) => (reportBuild { c with files := fs } l s, .ok ())

/-- What is reported on the output stream about a new project. -/
def initReport (o : Scaffold.Options) (target : Path) : List Text :=
  [[], "  Language: ".toList ++ o.language.displayName, "  Package id: ".toList ++ o.packageId, [],
    "Next steps:".toList, "  1. cd ".toList ++ target.text,
    "  2. Edit src/".toList ++ o.language.entryFile.text ++ " to add your plugin functions".toList,
    "  3. Run 'sapphillon build' to build your package".toList]

/-- The defaults of the user. A configuration that can not be read is passed over with a warning. -/
def defaults (c : Console) (env : Environment) : Console × Config :=
  match Config.load c.files env with
  | .ok config => (c, config)
  | .error e => (c.tell .warning ("Ignoring config file: ".toList ++ e.message), .empty)

/-- Completes a request, and warns of a language in the configuration that is not known. -/
def complete (c : Console) (r : Scaffold.Request) (config : Config) :
    Console × Except Scaffold.InitError Scaffold.Options :=
  match r.resolve config with
  | .error e => (c, .error e)
  | .ok o =>
    match r.unknownLanguage? config with
    | none => (c, .ok o)
    | some n => (c.tell .warning
      ("Unknown language ".toList ++ quoted n ++ " in config, using javascript".toList), .ok o)

/-- Makes a new project. -/
def runInit (c : Console) (env : Environment) (l : Loudness) (r : Scaffold.Request) :
    Console × Except CommandError Unit :=
  let (c, config) := defaults (c.tell .debug "Handling init command".toList) env
  match complete c r config with
  | (c, .error e) => (c, .error (.init e))
  | (c, .ok o) =>
    match Scaffold.run c o with
    | (c, .error e) => (c, .error (.init e))
    | (c, .ok target) =>
      let c := c.tell .success ("Created plugin package: ".toList ++ o.name)
      (if l.quiet then c else printAll c (initReport o target), .ok ())

/-- What is shown of the configuration. That there is none is said only to a verbose user. -/
def configReport (config : Config) (l : Loudness) : List Text :=
  "Configuration:".toList ::
    if config.isEmpty then if 0 < l.verbosity then ["  (empty)".toList] else []
    else config.values.map fun (k, v) ↦ "  ".toList ++ k ++ ": ".toList ++ v

/-- Shows the configuration. -/
def runShowConfig (c : Console) (env : Environment) (l : Loudness) :
    Console × Except CommandError Unit :=
  match Config.load c.files env with
  | .error e => (c, .error (.config e))
  | .ok config => (printAll c (configReport config l), .ok ())

/-- Shows where the configuration is. -/
def runShowConfigPath (c : Console) (env : Environment) : Console × Except CommandError Unit :=
  match Config.path env with
  | .error e => (c, .error (.config e))
  | .ok p => (c.print p.text, .ok ())

/-- Carries out a command. -/
def runCommand (c : Console) (env : Environment) (l : Loudness) :
    Command → Console × Except CommandError Unit
  | .build project output => runBuild c l project output
  | .init r => runInit c env l r
  | .showConfig => runShowConfig c env l
  | .showConfigPath => runShowConfigPath c env

/-! ## A whole run -/

/-- What a run leaves behind. -/
structure Outcome where
  succeeded : Bool
  console : Console
deriving DecidableEq, Repr

/-- What the program says of its version. -/
def versionText : Text := "sapphillon 0.1.0".toList

/-- Begins the log of a run. A run goes on without a log. -/
def beginLog (c : Console) (env : Environment) (verbosity : Nat) : Console :=
  match c.openDefaultLog env verbosity with
  | (c, .ok _) => c
  | (c, .error e) =>
    c.printError ("Warning: Failed to initialize logger: ".toList ++ e.message)

/-- Carries out what a command line asks for. -/
def runInvocation (c : Console) (env : Environment) (i : Invocation) : Outcome :=
  let c := beginLog c env i.loudness.verbosity
  match i.command with
  | none => ⟨true, { c with output := c.output ++ Scope.program.shortHelp }⟩
  | some command =>
    match runCommand c env i.loudness command with
    | (c, .ok _) => ⟨true, c⟩
    | (c, .error e) => ⟨false, (c.tell .error e.message).showLogFile env⟩

/-- Runs a command line, given as its words behind the name of the program. -/
def run (c : Console) (env : Environment) (words : List Text) : Outcome :=
  match read words with
  | .error (.help t) => ⟨true, { c with output := c.output ++ t }⟩
  | .error .version => ⟨true, c.print versionText⟩
  | .error (.usage e) => ⟨false, c.printError ("error: ".toList ++ e.message)⟩
  | .ok i => runInvocation c env i

end PluginPack.CommandLine
