import ScopeCheck.Command.Arguments

namespace ScopeCheck

namespace Flag

def description : Flag → String
  | help => "Print help"
  | version => "Print version"
  | logLevel => "Set the log level"
  | logJson => "Output logs in JSON format"
  | format => "Output format for diagnostics (text, json)"
  | symbols => "Print the symbol table of every tree"
  | failOnSymbolErrors => "Fail on symbol errors as well as type errors (exit code 1)"
  | noColor => "Disable colored output"

def helpLine (flag : Flag) : String :=
  let letter := match flag.short? with
    | some letter => "-" ++ letter.toString ++ ", "
    | none => "    "
  let value := if flag.takesValue then " <" ++ flag.long.toUpper ++ ">" else ""
  "  " ++ letter ++ "--" ++ flag.long ++ value ++ "  " ++ flag.description

end Flag

namespace Command

def description : Command → String
  | program => "Scope resolution and type checking for C-Minus programs"
  | check => "Analyze one or more C-Minus syntax trees"
  | explain => "Show detailed explanation for a diagnostic code"
  | help => "Print this message or the help of the given subcommand(s)"

def usage : Command → String
  | program => "cminus [OPTIONS] <COMMAND>"
  | check => "cminus check [OPTIONS] <TREE>..."
  | explain => "cminus explain [OPTIONS] <CODE>"
  | help => "cminus help [COMMAND]..."

/-- What stands behind the options: the commands of the program, the arguments of a command. -/
def argumentLines : Command → List String
  | program => ["", "Commands:"] ++ [("check", check), ("explain", explain), ("help", help)].map
      fun (name, command) => "  " ++ name ++ "  " ++ command.description
  | check => ["", "Arguments:", "  <TREE>...  Syntax tree files (JSON) to analyze"]
  | explain => ["", "Arguments:", "  <CODE>  Diagnostic code or name to explain"]
  | help => []

def optionLines (command : Command) : List String :=
  match command.flags with
  | [] => []
  | flags => ["", "Options:"] ++ flags.map Flag.helpLine

def helpText (command : Command) : String :=
  "".intercalate (([command.description, "", "Usage: " ++ command.usage] ++ command.argumentLines
    ++ command.optionLines).map (· ++ "\n"))

end Command

end ScopeCheck
