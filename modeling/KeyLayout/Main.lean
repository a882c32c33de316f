import KeyLayout.Command.Usage
import KeyLayout.Load.Need

/-! The program: it gathers the files that a command can come to, runs the
command and tells its outcome. -/
namespace KeyLayout.Program
open Command Load Resource Settings

/-- What a path leads to on the disk. What opens but cannot be read counts as a folder. -/
def entryAt? (path : String) : IO (Option Entry) := do
  match ← (IO.FS.Handle.mk path .read).toBaseIO with
  | .error _ => return none
  | .ok handle =>
    match ← handle.readBinToEnd.toBaseIO with
    | .ok bytes => return some (.file bytes.toList)
    | .error _ => return some .folder

/-- Adds the documents needed, and those they lead to, to the entries known. -/
partial def gather (root : Name) (known : List (String × Entry)) (seen : List Need) :
    List Need → IO (List (String × Entry))
  | [] => return known
  | need :: needs => do
    if need ∈ seen then gather root known seen needs
    else
      match need.document root with
      | .bundled _ => gather root known (need :: seen) needs
      | .path path =>
        match ← entryAt? path with
        | none => gather root known (need :: seen) needs
        | some entry =>
          gather root ((path, entry) :: known) (need :: seen) (need.next entry.source ++ needs)

/-- The place of the settings for the whole system. -/
def systemSettingsPath : IO (Option String) := do
  match (← IO.getEnv "XDG_CONFIG_HOME").filter (·.startsWith "/") with
  | some folder => return some (joinPath folder localPath)
  | none => return (← IO.getEnv "HOME").map fun home => joinPath home (".config/" ++ localPath)

/-- What the program finds around it that a request can come to. -/
def surroundings (request : Request) : IO Surroundings := do
  let keyboardsDir ← IO.getEnv "KEYLOOM_KEYBOARDS_DIR"
  let systemPath := (← systemSettingsPath).getD ""
  let systemSettings ← entryAt? systemPath
  let path := request.config.getD localPath
  let known := (← entryAt? path).toList.map (path, ·)
  let around : Surroundings := { files := .ofList known, keyboardsDir, systemPath, systemSettings }
  match Settings.find around.files request.config systemPath systemSettings with
  | .error _ => return around
  | .ok settings =>
    let root := (loaderFor request settings around).root
    return { around with files := .ofList (← gather root known [] [.catalog]) }

/-- Writes the output of a command, and adds to its outcome if that fails. -/
def print (outcome : Outcome) : IO Outcome := do
  match ← ((← IO.getStdout).write ⟨outcome.output.written.toArray⟩).toBaseIO with
  | .ok () => return outcome
  | .error e => return { outcome with failure := some (.output (toString e)) }

def verbosityOf (logLevel : String) : IO Verbosity := do
  match Verbosity.ofLevel? logLevel with
  | some verbosity => return verbosity
  | none =>
    IO.eprintln s!"Invalid log level: {logLevel}. Using 'warn' instead."
    return .everything

end KeyLayout.Program

open KeyLayout Command Program

def main (args : List String) : IO UInt32 := do
  match readArguments args with
  | .error e =>
    if e.isAnswer then IO.print e.text else IO.eprint e.text
    return if e.isAnswer then 0 else 2
  | .ok arguments =>
    let verbosity ← verbosityOf arguments.logLevel
    let outcome ← print (run arguments.request (← surroundings arguments.request) {})
    for line in verbosity.lines outcome do IO.eprintln line
    return if outcome.failure.isNone then 0 else 1
