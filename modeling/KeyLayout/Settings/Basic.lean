import KeyLayout.Resource.Files
import KeyLayout.Settings.Toml.Reader
import KeyLayout.Text.Utf8

/-! Settings of the command line, and the files they are read from. -/
namespace KeyLayout
open Resource

structure Settings where
  keyboardsDir : Option String := none
  /-- The keyboard that is shown or checked when none is named. -/
  defaultKeyboard : String := "us"
  deriving DecidableEq, Repr

namespace Settings
open Toml

inductive Error where
  | malformed
  | missingFile (path : String)
  | unreadable (path : String)
  deriving DecidableEq, Repr

def Error.message : Error → String
  | malformed => "Failed to parse TOML configuration"
  | missingFile path => "Missing configuration file: " ++ path
  | unreadable path => "Failed to read configuration file " ++ path

def textValue? : Value → Option String
  | .text t => some t
  | _ => none

/-- The keyboards directory in a table of settings, or in a list that gives settings by position. A
moment is a table without settings. -/
def keyboardsDir? : Value → Option (Option String)
  | .table _ entries =>
    match entries.lookup "keyboards_dir" with
    | some v => (textValue? v).map some
    | none => some none
  | .array _ (v :: _) => (textValue? v).map some
  | .array _ [] => some none
  | .moment => some none
  | _ => none

/-- An entry that can be read or passed over: its numbers are represented, unless it is a list that
gives settings by position, of which the items behind the last setting do not count. -/
def isAcceptable : String × Value → Bool
  | ("loader", .array _ _) => true
  | (_, v) => v.isRepresented

/-- Settings that are not known are passed over. -/
def ofEntries? (entries : Entries) : Option Settings := do
  if !entries.all isAcceptable then none
  let keyboardsDir ← match entries.lookup "loader" with
    | some v => keyboardsDir? v
    | none => some none
  let defaultKeyboard ← match entries.lookup "default_keyboard" with
    | some v => textValue? v
    | none => some "us"
  return { keyboardsDir, defaultKeyboard }

/-- The settings in a file. -/
def ofFile (path : String) : Option Entry → Except Error Settings
  | none => .error (.missingFile path)
  | some .folder => .error (.unreadable path)
  | some (.file content) =>
    match Utf8.decode content with
    | .error _ => .error (.unreadable path)
    | .ok text =>
      match (read? text).bind ofEntries? with
      | some settings => .ok settings
      | none => .error .malformed

def localPath : String := "keyloom/config.toml"

/-- Where settings can be: a named file, else one in the working directory, else
one for the whole system. -/
def find (files : Files) (named : Option String) (systemPath : String) (system : Option Entry) :
    Except Error Settings :=
  match named with
  | some path => ofFile path (files.find? path)
  | none =>
    match files.find? localPath with
    | some entry => ofFile localPath (some entry)
    | none =>
      match system with
      | some entry => ofFile systemPath (some entry)
      | none => .ok {}

end Settings
end KeyLayout
