import KeyLayout.Command.Listing
import KeyLayout.Command.Output
import KeyLayout.Command.Report
import KeyLayout.Load.Loader

/-! The commands: listing, showing and checking keyboards. -/
namespace KeyLayout.Command
open Document Load Resource Settings

inductive Action where
  | list
  | «show» (id : Option String)
  | check (ids : List String) (all : Bool)
  deriving DecidableEq, Repr

/-- What a command is given on the command line. -/
structure Request where
  action : Action
  keyboardsDir : Option String := none
  config : Option String := none
  deriving DecidableEq, Repr

/-- What a command finds around it. -/
structure Surroundings where
  files : Files
  /-- The value of the environment variable for the keyboards directory. -/
  keyboardsDir : Option String := none
  systemPath : String := ""
  systemSettings : Option Entry := none

/-- What a command leaves behind. -/
structure Outcome where
  output : Output
  warnings : List Warning := []
  failure : Option Failure := none

/-- The reason given when the output accepts no more. -/
def diskFull : String := "disk full"

/-- Writes lines, as long as the output accepts them. -/
def writeLines (out : Output) (lines : List String) (warnings : List Warning) : Outcome :=
  match out.writeEach lines with
  | (output, true) => { output, warnings }
  | (output, false) => { output, warnings, failure := some (.output diskFull) }

def runList (loader : Loader) (out : Output) : Outcome :=
  match loader.list with
  | .ok keyboards => writeLines out (listLines keyboards) []
  | .error e => { output := out, failure := some (.load e) }

def runShow (loader : Loader) (id : String) (out : Output) : Outcome :=
  let loaded := loader.load id
  match loaded.result with
  | .ok keyboard => writeLines out (keyboardLines keyboard) loaded.warnings
  | .error e => { output := out, warnings := loaded.warnings, failure := some (.load e) }

def okLine (id : String) (keys : Nat) : String := s!"ok    {id} ({keys} keys)\n"

def failLine (id : String) (e : Load.Error) : String := s!"FAIL  {id}: {e.root.message}\n"

/-- What has been found out about the keyboards checked so far. -/
structure Checking where
  output : Output
  warnings : List Warning := []
  failures : List Load.Error := []

/-- Checks one keyboard, and tells whether its record could be written. -/
def Checking.step (loader : Loader) (c : Checking) (id : String) : Checking × Bool :=
  let loaded := loader.load id
  match loaded.result with
  | .ok keyboard =>
    let (output, accepted) := c.output.write (okLine id keyboard.keys.length)
    ({ c with output, warnings := c.warnings ++ loaded.warnings }, accepted)
  | .error e =>
    let (output, accepted) := c.output.write (failLine id e)
    let warnings := c.warnings ++ loaded.warnings
    if accepted then
      ({ output, warnings := warnings ++ [.notLoaded id], failures := c.failures ++ [e] }, true)
    else ({ c with output, warnings }, false)

/-- Checks keyboards one by one, as long as the output accepts their records. -/
def Checking.steps (loader : Loader) (checked : Nat) (c : Checking) : List String → Outcome
  | [] =>
    { output := c.output, warnings := c.warnings
      failure := if c.failures.isEmpty then none else some (.check checked c.failures) }
  | id :: ids =>
    match c.step loader id with
    | (c, true) => c.steps loader checked ids
    | (c, false) =>
      { output := c.output, warnings := c.warnings, failure := some (.output diskFull) }

def runCheck (loader : Loader) (ids : List String) (out : Output) : Outcome :=
  Checking.steps loader ids.length { output := out } ids

def runWith (settings : Settings) (loader : Loader) (action : Action) (out : Output) : Outcome :=
  match action with
  | .list => runList loader out
  | .show id => runShow loader (id.getD settings.defaultKeyboard) out
  | .check ids all =>
    if all then
      match loader.list with
      | .ok keyboards => runCheck loader (keyboards.map (·.id)) out
      | .error e => { output := out, failure := some (.load e) }
    else if ids.isEmpty then runCheck loader [settings.defaultKeyboard] out
    else runCheck loader ids out

/-- The loader that a request asks for. A directory on the command line takes the
place of one in the settings. -/
def loaderFor (request : Request) (settings : Settings) (around : Surroundings) : Loader :=
  { library := .ofFiles around.files
    root := chooseRoot (request.keyboardsDir.or settings.keyboardsDir) around.keyboardsDir }

def run (request : Request) (around : Surroundings) (out : Output) : Outcome :=
  match Settings.find around.files request.config around.systemPath around.systemSettings with
  | .error e => { output := out, failure := some (.settings e) }
  | .ok settings => runWith settings (loaderFor request settings around) request.action out

end KeyLayout.Command
