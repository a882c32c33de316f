import KeyLayout.Markup.Fault

/-! What can be wrong with a document. -/
namespace KeyLayout.Document

/-- The kinds of error, by the phase in which they arise. -/
inductive ErrorCode where
  | unreadable
  | malformed
  | misplaced
  | missingAttribute
  | invalidAttribute
  | unknownKey
  | duplicateKeyboard
  | duplicateKeycode
  | emptyInclude
  deriving DecidableEq, Repr

namespace ErrorCode

def all : List ErrorCode :=
  [.unreadable, .malformed, .misplaced, .missingAttribute, .invalidAttribute, .unknownKey,
    .duplicateKeyboard, .duplicateKeycode, .emptyInclude]

def text : ErrorCode → String
  | .unreadable => "E000"
  | .malformed => "E001"
  | .misplaced => "E100"
  | .missingAttribute => "E200"
  | .invalidAttribute => "E201"
  | .unknownKey => "E300"
  | .duplicateKeyboard => "E301"
  | .duplicateKeycode => "E302"
  | .emptyInclude => "E303"

def description : ErrorCode → String
  | .unreadable => "unreadable document"
  | .malformed => "malformed markup"
  | .misplaced => "element in disallowed position"
  | .missingAttribute => "missing required attribute"
  | .invalidAttribute => "invalid attribute value"
  | .unknownKey => "unknown key reference"
  | .duplicateKeyboard => "duplicate keyboard id"
  | .duplicateKeycode => "duplicate keycode"
  | .emptyInclude => "empty include"

end ErrorCode

inductive Error where
  /-- The bytes could not be read, for the given reason. -/
  | unreadable (reason : String)
  | markup (failure : Markup.Failure)
  | misplaced (element path : String)
  | missingAttribute (element name : String)
  | invalidAttribute (element name value : String)
  | unknownKey (name : String)
  | duplicateKeyboard (id : String)
  | duplicateKeycode (keycode : Nat) (key other : String)
  | emptyInclude
  deriving DecidableEq, Repr

namespace Error

def message : Error → String
  | unreadable reason => s!"I/O error: {reason}"
  | markup failure => s!"malformed markup at byte {failure.offset}: {failure.fault.message}"
  | misplaced element path => s!"`{element}` cannot appear as `{path}`"
  | missingAttribute element name => s!"no `{name}` attribute for `{element}`"
  | invalidAttribute element name value => s!"invalid `{name}` value `{value}` for `{element}`"
  | unknownKey name => s!"no such key `{name}`"
  | duplicateKeyboard id => s!"keyboard `{id}` is listed more than once"
  | duplicateKeycode keycode key other =>
    s!"keycode {keycode} of `{key}` is already used by `{other}`"
  | emptyInclude => "`include` does not name a document"

def code : Error → ErrorCode
  | unreadable _ => .unreadable
  | markup _ => .malformed
  | misplaced _ _ => .misplaced
  | missingAttribute _ _ => .missingAttribute
  | invalidAttribute _ _ _ => .invalidAttribute
  | unknownKey _ => .unknownKey
  | duplicateKeyboard _ => .duplicateKeyboard
  | duplicateKeycode _ _ _ => .duplicateKeycode
  | emptyInclude => .emptyInclude

/-- How the document can be mended. -/
def help : Error → Option String
  | misplaced _ _ => some "check the element nesting against the document kind"
  | unknownKey _ => some "every bound key must be introduced by the geometry document"
  | duplicateKeycode _ _ _ =>
    some "explicit keycodes must not collide with automatically assigned ones"
  | emptyInclude => some "put the included document name inside `include`"
  | _ => none

end Error
end KeyLayout.Document
