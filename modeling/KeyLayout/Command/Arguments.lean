import KeyLayout.Command.Run

/-! The command line. Options can stand before and behind the name of the command;
those behind it count more. -/
namespace KeyLayout.Command

inductive ArgumentError where
  | unknownArgument
  | argumentConflict
  | invalidSubcommand
  | invalidValue
  | tooManyValues
  | missingSubcommand
  | displayHelp
  | displayVersion
  | helpOnMissing
  deriving DecidableEq, Repr

/-- Options that take a value. -/
inductive Setting where
  | keyboardsDir
  | config
  | logLevel
  deriving DecidableEq, Repr

/-- Options that are given or not. -/
inductive Switch where
  | all
  | help
  | version
  deriving DecidableEq, Repr

inductive OptionName where
  | setting (s : Setting)
  | switch (s : Switch)
  deriving DecidableEq, Repr

/-- The places at which arguments can stand: before the name of the command, or behind it. -/
inductive Stage where
  | root
  | list
  | «show»
  | check
  deriving DecidableEq, Repr

namespace Stage

def long? (stage : Stage) (name : List Char) : Option OptionName :=
  if name = "keyboards-dir".toList then some (.setting .keyboardsDir)
  else if name = "config".toList then some (.setting .config)
  else if name = "log-level".toList then some (.setting .logLevel)
  else if name = "help".toList then some (.switch .help)
  else if name = "version".toList ∧ stage = root then some (.switch .version)
  else if name = "all".toList ∧ stage = check then some (.switch .all)
  else none

def short? (stage : Stage) (c : Char) : Option OptionName :=
  if c = 'k' then some (.setting .keyboardsDir)
  else if c = 'c' then some (.setting .config)
  else if c = 'h' then some (.switch .help)
  else if c = 'V' ∧ stage = root then some (.switch .version)
  else none

/-- How many words a command takes; `none` if any number. -/
def capacity : Stage → Option Nat
  | root | list => some 0
  | «show» => some 1
  | check => none

def named? (word : String) : Option Stage :=
  match word with
  | "list" => some .list
  | "show" => some .show
  | "check" => some .check
  | _ => none

end Stage

/-- What has been read at one stage. A setting is open until the next one begins. -/
structure Given where
  settings : List (Setting × String) := []
  all : Bool := false
  words : List String := []
  opened : Option (Setting × Option String) := none

namespace Given

/-- Settles the open setting: it must have a value, and may not be given twice. -/
def settle (g : Given) : Except ArgumentError Given :=
  match g.opened with
  | none => .ok g
  | some (_, none) => .error .invalidValue
  | some (s, some value) =>
    match g.settings.lookup s with
    | some _ => .error .argumentConflict
    | none => .ok { g with settings := g.settings ++ [(s, value)], opened := none }

/-- A setting with its value attached. -/
def attach (g : Given) (s : Setting) (value : String) : Except ArgumentError Given := do
  let g ← g.settle
  { g with opened := some (s, some value) }.settle

/-- A setting whose value is the next argument. -/
def begin (g : Given) (s : Setting) : Except ArgumentError Given := do
  let g ← g.settle
  return { g with opened := some (s, none) }

def switch (g : Given) (s : Switch) : Except ArgumentError Given := do
  let g ← g.settle
  match s with
  | .all => if g.all then throw .argumentConflict else return { g with all := true }
  | .help => throw .displayHelp
  | .version => throw .displayVersion

/-- An option with two dashes, perhaps with a value behind an equals sign. -/
def longOption (g : Given) (stage : Stage) (cs : List Char) : Except ArgumentError Given :=
  let name := cs.takeWhile (· ≠ '=')
  match stage.long? name, cs.dropWhile (· ≠ '=') with
  | none, _ => .error .unknownArgument
  | some (.setting s), _ :: value => g.attach s (String.ofList value)
  | some (.setting s), [] => g.begin s
  | some (.switch _), _ :: _ => .error .tooManyValues
  | some (.switch s), [] => g.switch s

/-- Options of one letter behind one dash; a value can follow at once. -/
def shortOptions (g : Given) (stage : Stage) : List Char → Except ArgumentError Given
  | [] => .ok g
  | c :: cs =>
    match stage.short? c with
    | none => .error .unknownArgument
    | some (.switch s) => do shortOptions (← g.switch s) stage cs
    | some (.setting s) =>
      match cs with
      | [] => g.begin s
      | '=' :: value => g.attach s (String.ofList value)
      | value => g.attach s (String.ofList value)

/-- A word that is no option. -/
def word (g : Given) (stage : Stage) (w : String) : Except ArgumentError Given := do
  if stage.capacity.any (· ≤ g.words.length) then throw .unknownArgument
  let g ← g.settle
  return { g with words := g.words ++ [w] }

/-- Reads one argument; behind `--` every argument is a word. -/
def argument (g : Given) (stage : Stage) (arg : String) : Except ArgumentError Given :=
  match arg.toList, g.opened with
  | '-' :: '-' :: cs, _ => g.longOption stage cs
  | '-' :: c :: cs, _ => g.shortOptions stage (c :: cs)
  | _, some (s, none) => .ok { g with opened := some (s, some arg) }
  | _, _ => g.word stage arg

/-- Reads the arguments behind the name of a command. -/
def arguments (g : Given) (stage : Stage) (wordsOnly : Bool) :
    List String → Except ArgumentError Given
  | [] => g.settle
  | arg :: args =>
    if wordsOnly then do (← g.word stage arg).arguments stage true args
    else if arg = "--" then g.arguments stage true args
    else do (← g.argument stage arg).arguments stage false args

end Given

/-- The log level where none is given. -/
def defaultLogLevel : String := "warn"

structure Arguments where
  request : Request
  logLevel : String
  deriving DecidableEq, Repr

/-- The command that the words behind its name make. -/
def actionOf (stage : Stage) (g : Given) : Except ArgumentError Action :=
  match stage with
  | .root => .error .missingSubcommand
  | .list => .ok .list
  | .show => .ok (.show g.words.head?)
  | .check =>
    if g.all && !g.words.isEmpty then .error .argumentConflict else .ok (.check g.words g.all)

/-- Puts together what stands before the name of a command and behind it. -/
def combine (before behind : Given) (action : Action) : Arguments :=
  let setting s := (behind.settings.lookup s).or (before.settings.lookup s)
  { request := { action, keyboardsDir := setting .keyboardsDir, config := setting .config }
    logLevel := (setting .logLevel).getD defaultLogLevel }

/-- The words behind `help` name a command, and nothing else. -/
def helpFor : List String → ArgumentError
  | [] => .displayHelp
  | [name] =>
    if name = "help" ∨ (Stage.named? name).isSome then .displayHelp else .invalidSubcommand
  | _ => .invalidSubcommand

/-- A word before the name of the command, where only that name may stand. -/
def strayWord (wordsOnly : Bool) (word : String) : ArgumentError :=
  if wordsOnly && (word = "help" || (Stage.named? word).isSome) then .unknownArgument
  else .invalidSubcommand

/-- Without the name of a command there is help if nothing at all is given. -/
def withoutCommand (g : Given) : ArgumentError :=
  if g.settings.isEmpty then .helpOnMissing else .missingSubcommand

/-- Reads the arguments up to the name of the command, and those behind it. -/
def readFrom (g : Given) (wordsOnly : Bool) : List String → Except ArgumentError Arguments
  | [] => do throw (withoutCommand (← g.settle))
  | arg :: args =>
    if wordsOnly then .error (strayWord true arg)
    else if arg = "--" then readFrom g true args
    else match arg.toList, g.opened with
      | '-' :: _ :: _, _ | _, some (_, none) => do readFrom (← g.argument .root arg) false args
      | _, _ =>
        match Stage.named? arg with
        | some stage => do
          let behind ← Given.arguments {} stage false args
          let action ← actionOf stage behind
          return combine (← g.settle) behind action
        | none => .error (if arg = "help" then helpFor args else strayWord false arg)

/-- Reads the arguments behind the name of the program. -/
def readArguments (args : List String) : Except ArgumentError Arguments := readFrom {} false args

end KeyLayout.Command
