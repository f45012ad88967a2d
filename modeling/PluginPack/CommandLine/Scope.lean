import PluginPack.Text.Basic

/-!
# Commands and their options

A command line is read word by word, and what a word means depends on the command that it belongs
to. A scope is a command as seen by the reader of a command line: its options, its subcommands, and
whether it takes a plain argument.
-/

namespace PluginPack.CommandLine

open Text

/-! ## Options -/

/-- An option. -/
inductive Opt where
  | version
  | quiet
  | verbose
  | help
  | project
  | output
  | name
  | directory
  | packageId
  | description
  | language
deriving DecidableEq, Repr

namespace Opt

/-- The name behind two dashes. -/
def long : Opt → Text
  | version => "version".toList
  | quiet => "quiet".toList
  | verbose => "verbose".toList
  | help => "help".toList
  | project => "project".toList
  | output => "output".toList
  | name => "name".toList
  | directory => "directory".toList
  | packageId => "package-id".toList
  | description => "description".toList
  | language => "language".toList

/-- The letter behind one dash. -/
def short? : Opt → Option Char
  | version => some 'v'
  | quiet => some 'q'
  | help => some 'h'
  | project => some 'p'
  | output => some 'o'
  | name => some 'n'
  | directory => some 'd'
  | verbose | packageId | description | language => none

/-- What the value is called, for an option that takes one. -/
def valueName? : Opt → Option Text
  | project | output | directory => some "DIR".toList
  | name => some "NAME".toList
  | packageId => some "ID".toList
  | description => some "DESCRIPTION".toList
  | language => some "LANGUAGE".toList
  | version | quiet | verbose | help => none

/-- Whether an option takes a value. -/
def takesValue (o : Opt) : Bool := o.valueName?.isSome

/-- Whether an option may be given more than once. -/
def isCounted (o : Opt) : Bool := o == verbose

/-- How an option is shown to the user. -/
def shown (o : Opt) : Text :=
  "--".toList ++ o.long ++
    match o.valueName? with
    | some n => " <".toList ++ n ++ ">".toList
    | none => if o.isCounted then "...".toList else []

end Opt

/-! ## Scopes -/

/-- A command as seen by the reader of a command line. -/
inductive Scope where
  | program
  | build
  | init
  | config
  | configShow
  | configPath
  | help
  | configHelp
deriving DecidableEq, Repr

namespace Scope

/-- The options, in the order in which they are listed to the user. -/
def options : Scope → List Opt
  | program => [.version, .quiet, .verbose, .help]
  | build => [.project, .output, .quiet, .verbose, .help]
  | init => [.name, .directory, .quiet, .packageId, .verbose, .description, .language, .help]
  | config | configShow | configPath => [.quiet, .verbose, .help]
  | help | configHelp => []

/-- The subcommands. -/
def subcommands : Scope → List Scope
  | program => [build, init, config, help]
  | config => [configShow, configPath, configHelp]
  | build | init | configShow | configPath | help | configHelp => []

/-- Whether a scope explains others, which the words behind it name. -/
def isHelp (s : Scope) : Bool := s == help || s == configHelp

/-- Whether a scope takes a plain argument. -/
def takesArgument (s : Scope) : Bool := s == init

/-- The word for a command. -/
def word : Scope → Text
  | program => "sapphillon".toList
  | build => "build".toList
  | init => "init".toList
  | config => "config".toList
  | configShow => "show".toList
  | configPath => "path".toList
  | help | configHelp => "help".toList

/-- The words that lead to a command. -/
def words (s : Scope) : List Text :=
  match s with
  | program => [s.word]
  | build | init | config | help => [program.word, s.word]
  | configShow | configPath | configHelp => [program.word, config.word, s.word]

/-- The command with all the words that lead to it. -/
def fullName (s : Scope) : Text := List.intercalate [' '] s.words

/-- The subcommand of a word. -/
def subcommand? (s : Scope) (w : Text) : Option Scope := s.subcommands.find? (·.word = w)

/-- The option of a name behind two dashes. -/
def longOption? (s : Scope) (name : Text) : Option Opt := s.options.find? (·.long = name)

/-- The option of a letter behind one dash. -/
def shortOption? (s : Scope) (c : Char) : Option Opt := s.options.find? (·.short? = some c)

end Scope

end PluginPack.CommandLine
