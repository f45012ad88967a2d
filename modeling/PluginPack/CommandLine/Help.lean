import PluginPack.CommandLine.Scope

/-!
# Help

The explanation of a command: what it does, how it is used, and a table of its arguments, its
subcommands and its options. The program itself has a longer explanation besides the usual one.
-/

namespace PluginPack.CommandLine

open Text

/-- What an option does, in one line. The help option of the program tells of the other explanation.
-/
def Opt.summary : Opt → Text
  | .version => "Print version".toList
  | .quiet => "Only print warnings and errors".toList
  | .verbose => "Increase verbosity (--verbose for info, twice for debug)".toList
  | .help => "Print help".toList
  | .project => "Plugin project directory containing package.toml [default: .]".toList
  | .output => "Directory to write package.js into (default: the project directory)".toList
  | .name => "Plugin name (takes precedence over NAME)".toList
  | .directory => "Target directory (default: the plugin name)".toList
  | .packageId =>
    "Package id written to package.toml (default: config package_id or com.example)".toList
  | .description => "Package description (default: \"Plugin package for <NAME>\")".toList
  | .language => "Entry module language [possible values: javascript, typescript]".toList

/-- How an option is listed: its letter, or blanks in its place, and its name. -/
def Opt.listed (o : Opt) : Text :=
  (match o.short? with
    | some c => ['-', c, ',', ' ']
    | none => "    ".toList) ++ o.shown

namespace Scope

/-- What a command does, in one line. -/
def summary : Scope → Text
  | program => "Sapphillon plugin package builder".toList
  | build => "Build package.js from a plugin project".toList
  | init => "Create a new plugin project".toList
  | config => "Show the user configuration".toList
  | configShow => "Show the values read from the config file".toList
  | configPath => "Print the config file location".toList
  | help | configHelp => "Print this message or the help of the given subcommand(s)".toList

/-- What a command does, at length. -/
def description : Scope → Text
  | program =>
    ("Sapphillon builds plugin projects (package.toml plus a documented JavaScript/TypeScript " ++
      "entry module) into a single package.js.").toList
  | s => s.summary

/-- How a command is used. -/
def usage (s : Scope) : Text :=
  s.fullName ++
    (if s.options.isEmpty then [] else " [OPTIONS]".toList) ++
    (if s.subcommands.isEmpty then [] else " [COMMAND]".toList) ++
    (if s.takesArgument then " [NAME]".toList else []) ++
    if s.isHelp then " [COMMAND]...".toList else []

/-- The plain arguments and what they are. -/
def arguments (s : Scope) : List (Text × Text) :=
  if s.takesArgument then [("[NAME]".toList, "Plugin name".toList)]
  else if s.isHelp then [("[COMMAND]...".toList, "Print help for the subcommand(s)".toList)]
  else []

end Scope

/-- A titled table of two columns. A table without rows is left out. -/
def table (title : Text) (rows : List (Text × Text)) : Text :=
  if rows.isEmpty then []
  else
    let width := (rows.map (·.1.length)).foldl max 0
    ['\n'] ++ title ++ ":\n".toList ++ rows.flatMap fun (left, right) ↦
      "  ".toList ++ left ++ List.replicate (width - left.length + 2) ' ' ++ right ++ ['\n']

/-- A titled list in which every explanation stands on a line of its own. -/
def spacedTable (title : Text) (rows : List (Text × Text)) : Text :=
  ['\n'] ++ title ++ ":\n".toList ++ List.intercalate ['\n'] (rows.map fun (left, right) ↦
    "  ".toList ++ left ++ "\n          ".toList ++ right ++ ['\n'])

namespace Scope

/-- The options and what they do, with what is said of the help option. -/
def optionRows (s : Scope) (ofHelp : Text) : List (Text × Text) :=
  s.options.map fun o ↦ (o.listed, if o = .help then ofHelp else o.summary)

/-- The explanation down to the options. -/
def helpHead (s : Scope) (opening : Text) : Text :=
  opening ++ "\n\nUsage: ".toList ++ s.usage ++ ['\n'] ++
    table "Arguments".toList s.arguments ++
    table "Commands".toList (s.subcommands.map fun c ↦ (c.word, c.summary))

/-- The short explanation. -/
def shortHelp (s : Scope) : Text :=
  s.helpHead s.summary ++ table "Options".toList (s.optionRows
    (if s = program then "Print help (see more with '--help')".toList else Opt.help.summary))

/-- The long explanation, which for all commands but the program itself is the short one. -/
def longHelp (s : Scope) : Text :=
  if s = program then
    s.helpHead s.description ++
      spacedTable "Options".toList (s.optionRows "Print help (see a summary with '-h')".toList)
  else s.shortHelp

end Scope

end PluginPack.CommandLine
