import ScopeCheck.Files.Path

namespace ScopeCheck

inductive Flag where
  | help
  | version
  | logLevel
  | logJson
  | format
  | symbols
  | failOnSymbolErrors
  | noColor
  deriving DecidableEq, Repr

namespace Flag

def long : Flag → String
  | help => "help"
  | version => "version"
  | logLevel => "log-level"
  | logJson => "log-json"
  | format => "format"
  | symbols => "symbols"
  | failOnSymbolErrors => "fail-on-symbol-errors"
  | noColor => "no-color"

def short? : Flag → Option Char
  | help => some 'h'
  | version => some 'V'
  | format => some 'f'
  | _ => none

def takesValue : Flag → Bool
  | logLevel | format => true
  | _ => false

/-- Whether a value can be given. The format is looked at later. -/
def accepts : Flag → String → Bool
  | logLevel, value => ["trace", "debug", "info", "warn", "error"].contains value
  | _, _ => true

end Flag

inductive Command where
  | program
  | check
  | explain
  | help
  deriving DecidableEq, Repr

namespace Command

/-- The options that a command has; those of the program stand before the command. -/
def flags : Command → List Flag
  | program => [.help, .version, .logLevel, .logJson]
  | check => [.help, .format, .symbols, .failOnSymbolErrors, .noColor, .logLevel, .logJson]
  | explain => [.help, .logLevel, .logJson]
  | help => []

def ofWord? : String → Option Command
  | "check" => some check
  | "explain" => some explain
  | "help" => some help
  | _ => none

end Command

inductive UsageError where
  | unknownOption (argument : String)
  | missingValue (flag : Flag)
  | badValue (flag : Flag) (value : String)
  | unwantedValue (flag : Flag)
  | repeatedOption (flag : Flag)
  | missingCommand
  | unknownCommand (name : String)
  | missingArgument (name : String)
  | emptyArgument (name : String)
  | unexpectedArgument (argument : String)
  deriving DecidableEq, Repr

namespace UsageError

def quoted (text : String) : String := "'" ++ text ++ "'"

def message : UsageError → String
  | unknownOption argument | unexpectedArgument argument =>
    "unexpected argument " ++ quoted argument ++ " found"
  | missingValue flag => "a value is required for " ++ quoted ("--" ++ flag.long)
  | badValue flag value =>
    "invalid value " ++ quoted value ++ " for " ++ quoted ("--" ++ flag.long)
  | unwantedValue flag => "unexpected value for " ++ quoted ("--" ++ flag.long)
  | repeatedOption flag => quoted ("--" ++ flag.long) ++ " cannot be used multiple times"
  | missingCommand => "a command is required: check or explain"
  | unknownCommand name => "unrecognized command " ++ quoted name
  | missingArgument name => "the argument " ++ name ++ " is required"
  | emptyArgument name => "the argument " ++ name ++ " is empty"

end UsageError

/-- Why no command is run: the version or help is asked for, or the command line is wrong. -/
inductive Halt where
  | help (command : Command)
  | version
  | usage (error : UsageError)
  deriving DecidableEq, Repr

/-- What an argument looks like. Of short options in a row only the first is looked at; the rest is
its value. -/
inductive Shape where
  | word
  | escape
  | long (name : String) (value : Option String)
  | short (letter : Char) (value : Option String)
  deriving DecidableEq, Repr

namespace Shape

def splitValue (text : List Char) : String × Option String :=
  let name := text.takeWhile (· ≠ '=')
  match text.dropWhile (· ≠ '=') with
  | [] => (String.ofList name, none)
  | _ :: value => (String.ofList name, some (String.ofList value))

/-- A dash alone is a word. -/
def ofArgument (argument : String) : Shape :=
  match argument.toList with
  | ['-', '-'] => .escape
  | '-' :: '-' :: text =>
    let (name, value) := splitValue text
    .long name value
  | ['-', letter] => .short letter none
  | '-' :: letter :: '=' :: value => .short letter (some (String.ofList value))
  | '-' :: letter :: value => .short letter (some (String.ofList value))
  | _ => .word

end Shape

structure Given where
  options : List (Flag × String)
  words : List String
  deriving DecidableEq, Repr

namespace Given

def none : Given := ⟨[], []⟩

def has (given : Given) (flag : Flag) : Bool := given.options.any (·.1 = flag)

def value? (given : Given) (flag : Flag) : Option String := given.options.lookup flag

def addWords (given : Given) (words : List String) : Given :=
  { given with words := given.words ++ words }

/-- Takes an option in. Asking for help or the version ends the reading. -/
def add (given : Given) (command : Command) (flag : Flag) (value : String) : Except Halt Given :=
  if flag = .help then .error (.help command)
  else if flag = .version then .error .version
  else if given.has flag then .error (.usage (.repeatedOption flag))
  else if flag.accepts value then
    .ok { given with options := given.options ++ [(flag, value)] }
  else .error (.usage (.badValue flag value))

/-- Takes in an option with the value that is attached to it. Where the value is still to come, the
option is given back. -/
def addLong (given : Given) (command : Command) (flag : Flag) (value : Option String) :
    Except Halt (Given × Option Flag) :=
  match flag.takesValue, value with
  | true, Option.none => .ok (given, some flag)
  | true, some value => do return (← given.add command flag value, Option.none)
  | false, Option.none => do return (← given.add command flag "", Option.none)
  | false, some _ => .error (.usage (.unwantedValue flag))

/-- Takes in an option by its letter. What stands behind the letter of an option without a value would
be further letters; such an option ends the reading. -/
def addShort (given : Given) (command : Command) (flag : Flag) (value : Option String) :
    Except Halt (Given × Option Flag) :=
  if flag.takesValue then given.addLong command flag value
  else given.addLong command flag Option.none

end Given

namespace Arguments

def findLong (command : Command) (argument name : String) : Except Halt Flag :=
  match command.flags.find? (·.long = name) with
  | none => .error (.usage (.unknownOption argument))
  | some flag => .ok flag

def findShort (command : Command) (argument : String) (letter : Char) : Except Halt Flag :=
  match command.flags.find? (·.short? = some letter) with
  | none => .error (.usage (.unknownOption argument))
  | some flag => .ok flag

/-- A value cannot start with a dash, unless it is one. -/
def isValue (argument : String) : Bool := Shape.ofArgument argument = .word

/-- Reads options and words. In front of a command the first word ends the reading; what starts with
it is given back. `pending` waits for its value. -/
def read (command : Command) :
    Option Flag → Given → List String → Except Halt (Given × List String)
  | none, given, [] => .ok (given, [])
  | some flag, _, [] => .error (.usage (.missingValue flag))
  | some flag, given, argument :: rest =>
    if isValue argument then do read command none (← given.add command flag argument) rest
    else .error (.usage (.missingValue flag))
  | none, given, argument :: rest =>
    match Shape.ofArgument argument with
    | .word =>
      if command = .program then .ok (given, argument :: rest)
      else read command none (given.addWords [argument]) rest
    | .escape =>
      if command = .program then .error (.usage (.unexpectedArgument argument))
      else .ok (given.addWords rest, [])
    | .long name value => do
      let flag ← findLong command argument name
      let (given, pending) ← given.addLong command flag value
      read command pending given rest
    | .short letter value => do
      let flag ← findShort command argument letter
      let (given, pending) ← given.addShort command flag value
      read command pending given rest

end Arguments

structure CheckRequest where
  trees : List Path
  format : String
  symbols : Bool
  failOnSymbolErrors : Bool
  noColor : Bool
  deriving DecidableEq, Repr

inductive Request where
  | check (request : CheckRequest)
  | explain (query : String)
  deriving DecidableEq, Repr

namespace Request

def ofCheck (given : Given) : Except Halt Request :=
  if given.words = [] then .error (.usage (.missingArgument "TREE"))
  else if given.words.contains "" then .error (.usage (.emptyArgument "TREE"))
  else .ok (.check {
    trees := given.words.map Path.mk
    format := (given.value? .format).getD "text"
    symbols := given.has .symbols
    failOnSymbolErrors := given.has .failOnSymbolErrors
    noColor := given.has .noColor })

def ofExplain (given : Given) : Except Halt Request :=
  match given.words with
  | [] => .error (.usage (.missingArgument "CODE"))
  | [query] => .ok (.explain query)
  | _ :: extra :: _ => .error (.usage (.unexpectedArgument extra))

/-- The names behind `help` lead to the command that help is wanted for. -/
def ofHelp : List String → Halt
  | [] => .help .program
  | name :: names =>
    match Command.ofWord? name, names with
    | none, _ => .usage (.unknownCommand name)
    | some command, [] => .help command
    | some _, name :: _ => .usage (.unknownCommand name)

open Arguments in
def ofArguments (arguments : List String) : Except Halt Request := do
  let (_, rest) ← read .program none .none arguments
  match rest with
  | [] => .error (.usage .missingCommand)
  | name :: rest =>
    match Command.ofWord? name with
    | some .check => do
      let (given, _) ← read .check none .none rest
      ofCheck given
    | some .explain => do
      let (given, _) ← read .explain none .none rest
      ofExplain given
    | some .help => .error (ofHelp rest)
    | _ => .error (.usage (.unknownCommand name))

end Request

end ScopeCheck
