import PluginPack.CommandLine.Help
import PluginPack.CommandLine.Invocation

/-!
# Reading a command line

The words of a command line are read from left to right. A word opens a subcommand, gives an option,
is the value of the option before it, or is a plain argument. The value of an option is looked at
only when the next thing is given, so a fault in it may come after a fault in a later word. Asking
for help or for the version ends the reading at once.
-/

namespace PluginPack.CommandLine

open Text

/-! ## Faults -/

/-- What is wrong with a command line. -/
inductive UsageError where
  | unknownCommand (word : Text)
  | unexpectedArgument (word : Text)
  | unexpectedValue (value : Text) (option : Opt)
  | missingValue (option : Opt)
  | repeated (option : Opt)
  | invalidValue (value : Text) (option : Opt)
  | conflict (first second : Opt)
deriving DecidableEq, Repr

/-- A text in single quotes. -/
def quoted (t : Text) : Text := ['\''] ++ t ++ ['\'']

/-- What an error is reported as. -/
def UsageError.message : UsageError → Text
  | .unknownCommand w => "unrecognized subcommand ".toList ++ quoted w
  | .unexpectedArgument w => "unexpected argument ".toList ++ quoted w ++ " found".toList
  | .unexpectedValue v o =>
    "unexpected value ".toList ++ quoted v ++ " for ".toList ++ quoted o.shown ++
      " found; no more were expected".toList
  | .missingValue o =>
    "a value is required for ".toList ++ quoted o.shown ++ " but none was supplied".toList
  | .repeated o =>
    "the argument ".toList ++ quoted o.shown ++ " cannot be used multiple times".toList
  | .invalidValue v o => "invalid value ".toList ++ quoted v ++ " for ".toList ++ quoted o.shown
  | .conflict a b =>
    "the argument ".toList ++ quoted a.shown ++ " cannot be used with ".toList ++ quoted b.shown

/-- Why reading ends before the command line does. -/
inductive Interruption where
  | help (text : Text)
  | version
  | usage (e : UsageError)
deriving DecidableEq, Repr

/-! ## One command -/

/-- What has been read of one command. -/
structure Frame where
  scope : Scope
  /-- The options given so far with their values, the last one first. An option that takes no value
  has the empty one. -/
  given : List (Opt × Text)
  /-- The plain argument. -/
  argument : Option Text
  /-- An option that has not been looked at yet, and its value if it has come. -/
  pending : Option (Opt × Option Text)
  /-- Whether two dashes have ended the options. -/
  plainOnly : Bool
deriving DecidableEq, Repr

namespace Frame

/-- A command of which nothing has been read. -/
def start (s : Scope) : Frame := ⟨s, [], none, none, false⟩

/-- Whether an option has been given. -/
def has (f : Frame) (o : Opt) : Bool := f.given.any (·.1 == o)

/-- The value of an option. -/
def value? (f : Frame) (o : Opt) : Option Text := f.given.lookup o

/-- How often an option has been given. -/
def count (f : Frame) (o : Opt) : Nat := f.given.countP (·.1 == o)

/-- Whether the next word is the value of an option. -/
def awaitsValue (f : Frame) : Bool :=
  match f.pending with
  | some (_, none) => !f.plainOnly
  | _ => false

/-- Refuses a value that an option does not take. -/
def checkValue (o : Opt) (v : Text) : Except UsageError Unit :=
  match o with
  | .project | .output => if v = [] then .error (.missingValue o) else .ok ()
  | .language =>
    if v = [] then .error (.missingValue o)
    else if (Language.ofName? v).isNone then .error (.invalidValue v o)
    else .ok ()
  | _ => .ok ()

/-- Takes an option with its value. -/
def give (f : Frame) (o : Opt) (v : Text) : Except UsageError Frame :=
  if f.has o && !o.isCounted then .error (.repeated o)
  else (checkValue o v).map fun _ ↦ { f with given := (o, v) :: f.given }

/-- Takes the option that has not been looked at yet. -/
def settle (f : Frame) : Except UsageError Frame :=
  match f.pending with
  | none => .ok f
  | some (o, none) => .error (.missingValue o)
  | some (o, some v) => { f with pending := none }.give o v

/-- Takes an option without a value. -/
def giveFlag (f : Frame) (o : Opt) (help : Text) : Except Interruption Frame := do
  let f ← f.settle.mapError .usage
  match o with
  | .help => .error (.help help)
  | .version => .error .version
  | o => (f.give o []).mapError .usage

/-- Takes an option with a value attached to it. -/
def giveAttached (f : Frame) (o : Opt) (v : Text) : Except Interruption Frame := do
  let f ← f.settle.mapError .usage
  (f.give o v).mapError .usage

/-- Takes an option whose value is the next word. -/
def await (f : Frame) (o : Opt) : Except Interruption Frame := do
  let f ← f.settle.mapError .usage
  .ok { f with pending := some (o, none) }

/-- Reads what follows two dashes: a name, and perhaps an equals sign and a value. -/
def readLong (f : Frame) (body : Text) : Except Interruption Frame :=
  let (name, value) :=
    match cutAt? ['='] body with
    | some (n, v) => (n, some v)
    | none => (body, none)
  match f.scope.longOption? name with
  | none => .error (.usage (.unexpectedArgument ("--".toList ++ name)))
  | some o =>
    match o.takesValue, value with
    | true, some v => f.giveAttached o v
    | true, none => f.await o
    | false, some v => .error (.usage (.unexpectedValue v o))
    | false, none => f.giveFlag o f.scope.longHelp

/-- Reads what follows one dash: letters of options, of which the last one may have its value behind
it, with or without an equals sign. -/
def readShort (f : Frame) : Text → Except Interruption Frame
  | [] => .ok f
  | c :: r =>
    match f.scope.shortOption? c with
    | none => .error (.usage (.unexpectedArgument ['-', c]))
    | some o =>
      if o.takesValue then
        match r with
        | [] => f.await o
        | '=' :: v => f.giveAttached o v
        | v => f.giveAttached o v
      else
        match f.giveFlag o f.scope.shortHelp with
        | .error e => .error e
        | .ok f => f.readShort r

/-- Reads a plain argument. -/
def readPlain (f : Frame) (w : Text) : Except Interruption Frame :=
  if f.scope.takesArgument ∧ f.argument = none then do
    let f ← f.settle.mapError .usage
    .ok { f with argument := some w }
  else if f.scope.subcommands.isEmpty ∨ (f.plainOnly ∧ (f.scope.subcommand? w).isSome) then
    .error (.usage (.unexpectedArgument w))
  else .error (.usage (.unknownCommand w))

/-- Reads one word that opens no subcommand. -/
def read (f : Frame) (w : Text) : Except Interruption Frame :=
  if f.plainOnly then f.readPlain w
  else
    match w with
    | ['-', '-'] => .ok { f with plainOnly := true }
    | '-' :: '-' :: body => f.readLong body
    | '-' :: c :: r => f.readShort (c :: r)
    | w =>
      match f.pending with
      | some (o, none) => .ok { f with pending := some (o, some w) }
      | _ => f.readPlain w

/-- The subcommand that a word opens. -/
def subcommand? (f : Frame) (w : Text) : Option Scope :=
  if f.plainOnly || f.awaitsValue then none else f.scope.subcommand? w

/-- Refuses a command that is to be quiet and verbose at once. The one that was given last is named
last. -/
def check (f : Frame) : Except UsageError Unit :=
  match (f.given.map (·.1)).filter fun o ↦ o = .quiet ∨ o = .verbose with
  | [] => .ok ()
  | o :: os =>
    match os.find? (· ≠ o) with
    | none => .ok ()
    | some other => .error (.conflict other o)

end Frame

/-! ## A whole command line -/

/-- The explanation that a list of words asks for, from a command on. -/
def helpFor (s : Scope) : List Text → Except UsageError Text
  | [] => .ok s.longHelp
  | w :: ws =>
    match s.subcommand? w with
    | none => .error (.unknownCommand w)
    | some t => helpFor t ws

/-- Reads words into a command. Answers with what was read of the commands, the innermost first. -/
def readWords (outer : List Frame) (f : Frame) : List Text → Except Interruption (List Frame)
  | [] => do
    let f ← f.settle.mapError .usage
    .ok (f :: outer)
  | w :: ws =>
    match f.subcommand? w with
    | some s =>
      if s.isHelp then
        match helpFor f.scope ws with
        | .ok t => .error (.help t)
        | .error e => .error (.usage e)
      else readWords (f :: outer) (.start s) ws
    | none =>
      match f.read w with
      | .error e => .error e
      | .ok f => readWords outer f ws

/-- How much is to be told. Being quiet may be asked for in any command, and of the commands that
ask to be verbose the innermost one counts. -/
def loudness (frames : List Frame) : Loudness where
  quiet := frames.any (·.has .quiet)
  verbose := ((frames.map (·.count .verbose)).find? (· ≠ 0)).getD 0

/-- The command that has been read. -/
def Frame.command? (f : Frame) : Option Command :=
  match f.scope with
  | .build => some (.build ⟨(f.value? .project).getD ['.']⟩ ((f.value? .output).map Path.mk))
  | .init => some (.init
    { positionalName := f.argument
      name := f.value? .name
      directory := f.value? .directory
      packageId := f.value? .packageId
      description := f.value? .description
      language := (f.value? .language).bind Language.ofName? })
  | .config | .configShow => some .showConfig
  | .configPath => some .showConfigPath
  | .program | .help | .configHelp => none

/-- Reads the words of a command line behind the name of the program. -/
def read (words : List Text) : Except Interruption Invocation := do
  let frames ← readWords [] (.start .program) words
  (frames.forM Frame.check).mapError .usage
  .ok ⟨loudness frames, frames.head?.bind Frame.command?⟩

end PluginPack.CommandLine
