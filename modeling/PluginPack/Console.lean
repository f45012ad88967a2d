import PluginPack.FileSystem.Basic

/-!
# Messages

What a program tells its user while it works on files: messages on the error stream, some of them
only when it is to be verbose, and one line for every message in a log file. Every line of the log
begins with a time stamp, for which the time at which the program began will do.

The error stream is taken to be no terminal: it goes to a file or to another program. On a terminal,
work that takes a while is shown by a moving sign, unless the program is to be verbose, and the sign
is removed when the work ends. Elsewhere nothing is drawn at any verbosity, so the sign is left out
here together with the question whether to draw it.
-/

namespace PluginPack

open Text

/-- The surroundings of a program. -/
structure Environment where
  /-- The home directory. -/
  home : Option Path
  /-- The configuration file that is to be used in the place of the usual one. -/
  configFile : Option Text
  /-- What is said to be wrong with a text that is no configuration, if anything is said of it. The
  words are those of the TOML reader in use. -/
  tomlFault : Text → Option Text := fun _ ↦ none

/-- The surroundings that variables describe. An empty home directory is none. Nothing is said of
what is wrong with a configuration. -/
def Environment.ofVariables (home configFile : Option Text) : Environment where
  home := (home.filter (· ≠ [])).map Path.mk
  configFile := configFile

/-- The directory of the program's own files. -/
def Environment.directory (env : Environment) : Option Path :=
  env.home.map fun h ↦ (h.join ⟨".config".toList⟩).join ⟨"sapphillon".toList⟩

/-- The files that a program works on, and what it has told its user. -/
structure Console where
  files : FileSystem
  /-- What the lines of the log begin with. -/
  stamp : Text
  logFile : Option Path
  verbosity : Nat
  output : Text
  errors : Text
deriving DecidableEq, Repr

/-- A kind of message. -/
inductive Level where
  | info
  | debug
  | warning
  | error
  | success
  | step
deriving DecidableEq, Repr

namespace Level

/-- What a line of the log begins with. -/
def logMark : Level → Text
  | .info => "INFO ".toList
  | .debug => "DEBUG ".toList
  | .warning => "WARN ".toList
  | .error => "ERROR ".toList
  | .success => "SUCCESS ".toList
  | .step => "STEP: ".toList

/-- What a line on the error stream begins with. -/
def screenMark : Level → Text
  | .info => []
  | .debug => "DEBUG: ".toList
  | .warning => "Warning: ".toList
  | .error => "Error: ".toList
  | .success => "✔ ".toList
  | .step => "TRACE: ".toList

/-- The least verbosity at which a message is shown. -/
def threshold : Level → Nat
  | .info => 1
  | .debug => 1
  | .warning => 0
  | .error => 0
  | .success => 0
  | .step => 2

end Level

namespace Console

/-- A console over a file system, before anything has happened. -/
def start (files : FileSystem) (stamp : Text) : Console := ⟨files, stamp, none, 0, [], []⟩

/-- The name of the log file in its directory. -/
def logName : Path := ⟨"sapphillon.log".toList⟩

/-- Writes a line on the output stream. -/
def print (c : Console) (line : Text) : Console := { c with output := c.output ++ line ++ ['\n'] }

/-- Writes a line on the error stream. -/
def printError (c : Console) (line : Text) : Console :=
  { c with errors := c.errors ++ line ++ ['\n'] }

/-- Writes a line to the log file. Without a log file, or when it can not be written, the line is
lost. -/
def log (c : Console) (line : Text) : Console :=
  match c.logFile with
  | none => c
  | some p =>
    match c.files.appendFile p (c.stamp ++ line ++ ['\n']) with
    | .ok fs => { c with files := fs }
    | .error _ => c

/-- Gives a message: always to the log, and to the error stream if the verbosity is high enough. -/
def tell (c : Console) (level : Level) (message : Text) : Console :=
  let c := c.log (level.logMark ++ message)
  if level.threshold ≤ c.verbosity then c.printError (level.screenMark ++ message) else c

/-- Announces work that takes a while. The announcement goes to the log alone: nothing is drawn on
an error stream that is no terminal, so the verbosity, which decides only whether to draw, is not
asked for. -/
def announce (c : Console) (message : Text) : Console := c.log (Level.step.logMark ++ message)

/-- Sets how verbose the console is. -/
def setVerbosity (c : Console) (n : Nat) : Console := { c with verbosity := n }

/-- The name of the verbosity for filters of diagnostic events. -/
def filterName (verbosity : Nat) : Text :=
  match verbosity with
  | 0 => "warn".toList
  | 1 => "info".toList
  | _ => "debug".toList

/-! ## The log file -/

/-- Why there is no log. -/
inductive LogError where
  | noHome
  | noDirectory (cause : FileError)
deriving DecidableEq, Repr

/-- What an error is reported as. -/
def LogError.message : LogError → Text
  | .noHome => "Could not determine home directory".toList
  | .noDirectory e => "Failed to create log directory: ".toList ++ e.message

/-- Begins a new log in a directory, which is made if need be. An old log there is removed. -/
def openLog (c : Console) (dir : Path) : Console × Except LogError Unit :=
  match c.files.makeDirs dir with
  | (fs, .error e) => ({ c with files := fs }, .error (.noDirectory e))
  | (fs, .ok _) =>
    let p := dir.join logName
    ({ c with files := (fs.removeFile p).toOption.getD fs, logFile := some p }, .ok ())

/-- Sets the verbosity and begins a new log in the directory of the program's own files. -/
def openDefaultLog (c : Console) (env : Environment) (verbosity : Nat) :
    Console × Except LogError Unit :=
  let c := c.setVerbosity verbosity
  match env.directory with
  | none => (c, .error .noHome)
  | some dir => c.openLog dir

/-- Tells the user where the log is. -/
def showLogFile (c : Console) (env : Environment) : Console :=
  match c.logFile, env.directory with
  | some p, _ => c.printError ("Log file: ".toList ++ p.text)
  | none, some dir => c.printError ("Log file: ".toList ++ (dir.join logName).text)
  | none, none => c.printError "Log file location not available".toList

end Console

/-! ## Time stamps

Two runs of a program leave the same log but for its time stamps, so logs are compared without them.
-/

/-- The form of a time stamp, with zeros for digits. -/
def stampForm : Text := "[0000-00-00 00:00:00] ".toList

/-- Whether a character stands where the form of a time stamp has another. -/
def fitsStamp (form c : Char) : Bool := if form = '0' then c.isDigit else c == form

/-- A line without the time stamp that it begins with. -/
def dropStamp (line : Text) : Text :=
  if stampForm.length ≤ line.length ∧ (stampForm.zip line).all fun p ↦ fitsStamp p.1 p.2 then
    line.drop stampForm.length
  else line

/-- A log without the time stamps of its lines. -/
def dropStamps (log : Text) : Text :=
  List.intercalate ['\n'] ((splitNewlines log).map dropStamp)

end PluginPack
