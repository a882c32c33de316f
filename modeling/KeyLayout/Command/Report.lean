import KeyLayout.Load.Error
import KeyLayout.Settings.Basic

/-! Failures of commands, and the reports that explain them. -/
namespace KeyLayout.Command

/-- Why a command failed. -/
inductive Failure where
  | load (error : Load.Error)
  | settings (error : Settings.Error)
  | output (reason : String)
  /-- So many keyboards were checked, and some cannot be loaded. -/
  | check (checked : Nat) (failures : List Load.Error)
  deriving DecidableEq, Repr

structure Report where
  message : String
  code : String
  help : Option String
  causes : List String
  deriving DecidableEq, Repr

/-- The lines in which a report is told. -/
def Report.lines (report : Report) : List String :=
  s!"error[{report.code}]: {report.message}" :: report.causes.map ("  caused by: " ++ ·) ++
    report.help.toList.map ("  help: " ++ ·)

/-- The code of an error is that of its root. -/
def loadCode (e : Load.Error) : String :=
  match e.root with
  | .notOpened _ => "keyloom::io"
  | .document _ error => "keyloom::parse::" ++ error.code.text
  | .unknownKeyboard _ | .missingSymbols _ => "keyloom::catalog"
  | .repeatedInclude _ => "keyloom::include"
  | .danglingOutline _ _ => "keyloom::outline"
  | .keyboard _ _ => "keyloom"

/-- The help for an error is that for its root. -/
def loadHelp (e : Load.Error) : Option String :=
  match e.root with
  | .notOpened _ => some "check --keyboards-dir or the KEYLOOM_KEYBOARDS_DIR environment variable"
  | .document _ error => error.help
  | .unknownKeyboard _ => some "run `keyloom list` to see the known keyboards"
  | .missingSymbols _ => some "add a `symbols` attribute to the keyboard in keyboards.xml"
  | .repeatedInclude _ => some "each symbols document can be included once per keyboard"
  | .danglingOutline _ _ =>
    some "define the outline in the geometry document or drop the `oref` attribute"
  | .keyboard _ _ => none

def loadReport (e : Load.Error) : Report := ⟨e.message, loadCode e, loadHelp e, e.causes⟩

def settingsHelp : Settings.Error → Option String
  | .missingFile _ => some "pass an existing TOML file to --config"
  | _ => none

namespace Failure

/-- A failed check is explained keyboard by keyboard, and then summed up. -/
def reports : Failure → List Report
  | load e => [loadReport e]
  | settings e => [⟨e.message, "keyloom::config", settingsHelp e, []⟩]
  | output reason => [⟨"Failed to write output: " ++ reason, "keyloom::output", none, []⟩]
  | check checked failures =>
    failures.map loadReport ++
      [⟨s!"{failures.length} of {checked} keyboards failed to load", "keyloom::check", none, []⟩]

end Failure
end KeyLayout.Command
