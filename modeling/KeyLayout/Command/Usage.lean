import KeyLayout.Command.Arguments

/-! What the program tells about itself. -/
namespace KeyLayout.Command

def versionText : String := "keyloom 0.1.0\n"

def usageText : String := "Usage: keyloom [OPTIONS] <COMMAND>

Commands:
  list   List the keyboards declared by the catalog
  show   Load one keyboard and print its sections, keys and symbols
  check  Load keyboards and report every one that fails
  help   Print this message

Options:
  -k, --keyboards-dir <DIR>    Directory holding keyboards.xml, geometry/ and symbols/
  -c, --config <CONFIG>        Path to configuration file (TOML)
      --log-level <LOG_LEVEL>  Log level (off, error, warn, info, debug, trace) [default: warn]
  -h, --help                   Print help
  -V, --version                Print version
"

namespace ArgumentError

/-- Help and version are asked for; all else is wrong. -/
def isAnswer : ArgumentError → Bool
  | displayHelp | displayVersion => true
  | _ => false

def text : ArgumentError → String
  | unknownArgument => "error: unexpected argument\n\n" ++ usageText
  | argumentConflict =>
    "error: an argument cannot be used with another one, or twice\n\n" ++ usageText
  | invalidSubcommand => "error: unrecognized subcommand\n\n" ++ usageText
  | invalidValue => "error: a value is required\n\n" ++ usageText
  | tooManyValues => "error: unexpected value\n\n" ++ usageText
  | missingSubcommand => "error: a subcommand is required\n\n" ++ usageText
  | displayHelp | helpOnMissing => usageText
  | displayVersion => versionText

end ArgumentError

/-- How much is told beside the output. -/
inductive Verbosity where
  | silent
  | failuresOnly
  | everything
  deriving DecidableEq, Repr

namespace Verbosity

/-- The names of levels count in any case. -/
def ofLevel? (level : String) : Option Verbosity :=
  match level.toLower with
  | "off" => some .silent
  | "error" => some .failuresOnly
  | "warn" | "info" | "debug" | "trace" => some .everything
  | _ => none

/-- The lines told about an outcome: its warnings in order, then the reports on its failure. -/
def lines (verbosity : Verbosity) (outcome : Outcome) : List String :=
  let reports := outcome.failure.toList.flatMap fun failure => failure.reports.flatMap (·.lines)
  match verbosity with
  | silent => []
  | failuresOnly => reports
  | everything => outcome.warnings.map (·.line) ++ reports

end Verbosity
end KeyLayout.Command
