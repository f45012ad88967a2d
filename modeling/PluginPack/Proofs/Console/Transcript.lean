import PluginPack.Proofs.Console.Log

/-!
# What a console leaves behind

After any run the active log holds one line for every message and announcement since it was begun,
in the order of the calls, and the error stream holds those messages that the verbosity of their
moment lets through. What is written to files does not depend on the verbosity.
-/

namespace PluginPack.Console

open Text PluginPack.Path FileSystem

/-! ## Messages on the error stream -/

/-- A message, and the verbosity of the moment at which it was given. -/
structure Message where
  verbosity : Nat
  level : Level
  text : Text
deriving DecidableEq, Repr

/-- Warnings, errors and successes are always shown, the rest to those who want to know more. -/
def Message.isShown (m : Message) : Bool :=
  match m.level with
  | .warning | .error | .success => true
  | .info | .debug => 1 ≤ m.verbosity
  | .step => 2 ≤ m.verbosity

/-- The message that a call gives. -/
def Call.message? (v : Nat) : Call → Option Message
  | .tell level text => some ⟨v, level, text⟩
  | _ => none

/-- The messages that a run gives from a verbosity on. -/
def messages (v : Nat) : List Event → List Message
  | [] => []
  | e :: es => (e.call.message? v).toList ++ messages (e.call.verbosityAfter v) es

/-- A line on the error stream. -/
inductive ScreenLine where
  | message (m : Message)
  /-- Where the log file is. -/
  | logPlace (rest : Text)
deriving DecidableEq, Repr

namespace ScreenLine

def text : ScreenLine → Text
  | .message m => m.level.screenMark ++ m.text ++ ['\n']
  | .logPlace rest => "Log file".toList ++ rest ++ ['\n']

def message? : ScreenLine → Option Message
  | .message m => some m
  | .logPlace _ => none

end ScreenLine

variable {env : Environment} {es : List Event} {stamp : Text}

/-! ## What is shown -/

theorem verbosity_tell (c : Console) (level : Level) (message : Text) :
    (c.tell level message).verbosity = c.verbosity := by
  rw [tell_eq]
  split_ifs
  · exact verbosity_log c _
  · exact verbosity_log c _

theorem errors_openLog (c : Console) (dir : Path) :
    (c.openLog dir).1.errors = c.errors ∧ (c.openLog dir).1.verbosity = c.verbosity := by
  obtain ⟨fs, error, -, heq⟩ | ⟨fs, -, heq⟩ := openLog_cases c dir
  · rw [heq]
    exact ⟨rfl, rfl⟩
  · rw [heq]
    exact ⟨rfl, rfl⟩

theorem errors_openDefaultLog (c : Console) (env : Environment) (n : Nat) :
    (c.openDefaultLog env n).1.errors = c.errors ∧ (c.openDefaultLog env n).1.verbosity = n := by
  rw [openDefaultLog]
  cases env.directory with
  | none => exact ⟨rfl, rfl⟩
  | some dir => exact errors_openLog (c.setVerbosity n) dir

/-- What lines on the error stream are to be for a list of messages that were given, when some of
the calls ask where the log file is. -/
structure Shows (lines : List ScreenLine) (given : List Message) (calls : List Call) : Prop where
  messages : lines.filterMap ScreenLine.message? = given.filter Message.isShown
  places : (lines.countP fun line ↦ line.message?.isNone) = calls.countP (· = .showLogFile)

theorem Shows.append {lines lines' : List ScreenLine} {given given' : List Message}
    {calls calls' : List Call} (h : Shows lines given calls) (h' : Shows lines' given' calls') :
    Shows (lines ++ lines') (given ++ given') (calls ++ calls') where
  messages := by rw [List.filterMap_append, List.filter_append, h.messages, h'.messages]
  places := by rw [List.countP_append, List.countP_append, h.places, h'.places]

theorem LogsWritable.kept {files : FileSystem}
    (h : LogsWritable env (start files stamp) es) : LogsKept env es (start files stamp) es where
  subset := List.Subset.refl es
  working := h.working
  named := h.named
  notDir := h.notDir
  site _ hp := by cases hp

end PluginPack.Console
