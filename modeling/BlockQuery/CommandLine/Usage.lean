import BlockQuery.CommandLine.Arguments

/-!
# Usage

What is printed when the arguments ask for help or are not a command.
-/

namespace BlockQuery.CommandLine

def programName : String := "tessera"

def programVersion : String := programName ++ " 0.1.0"

def usageText : String :=
  "\n".intercalate
    ["Distributed query planning, block scheduling and two-level file indexes",
      "",
      "Usage: " ++ programName ++ " <COMMAND>",
      "",
      "Commands:",
      "  explain --plan <PLAN> [--config <CONFIG>] [--json]",
      "              Plan and optimize a logical plan, then print its execution blocks",
      "  index-info --index <INDEX> [--json]",
      "              Print the header of a two-level index file",
      "  help        Print this text",
      "",
      "Options:",
      "  --config <CONFIG>  Path to configuration file [default: " ++ Command.defaultConfig ++ "]",
      "  --plan <PLAN>      Logical plan encoded as JSON",
      "  --index <INDEX>    Path to the index file",
      "  --json             Emit JSON instead of text",
      "  -h, --help         Print help",
      "  -V, --version      Print version",
      ""]

namespace UsageError

/-- Help and the version were asked for; all else is a mistake. -/
def isRequest : UsageError → Bool
  | help | version => true
  | _ => false

def message : UsageError → String
  | help | noCommand => usageText
  | version => programVersion ++ "\n"
  | unknownCommand => mistake "unrecognized subcommand"
  | unknownArgument => mistake "unexpected argument"
  | missingArgument => mistake "a required argument was not provided"
  | missingValue => mistake "a value is required for an argument"
  | unexpectedValue => mistake "a value was given for an argument that takes none"
  | repeated => mistake "an argument cannot be used multiple times"
where
  mistake (text : String) : String := "error: " ++ text ++ "\n\n" ++ usageText

end UsageError
end BlockQuery.CommandLine
