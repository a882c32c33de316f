import KeyLayout.Document.Error

/-! Why a keyboard cannot be loaded. -/
namespace KeyLayout.Load

inductive Error where
  | notOpened (resource : String)
  /-- The named document is wrong. -/
  | document (name : String) (error : Document.Error)
  | unknownKeyboard (id : String)
  | missingSymbols (id : String)
  | repeatedInclude (name : String)
  | danglingOutline (key outline : String)
  /-- The keyboard that was being loaded, and what went wrong. -/
  | keyboard (id : String) (cause : Error)
  deriving DecidableEq, Repr

namespace Error

/-- What went wrong, whichever keyboard was being loaded. -/
def root : Error → Error
  | keyboard _ cause => cause.root
  | error => error

def message : Error → String
  | notOpened resource => s!"cannot open {resource}"
  | document name error => s!"{name}: {error.message}"
  | unknownKeyboard id => s!"no keyboard with id `{id}` in the catalog"
  | missingSymbols id => s!"keyboard `{id}` does not name a symbols document"
  | repeatedInclude name => s!"symbols document `{name}` is included more than once"
  | danglingOutline key outline => s!"key `{key}` uses outline `{outline}`, which is not defined"
  | keyboard id _ => s!"cannot load keyboard `{id}`"

/-- The messages of the causes, from the nearest to the farthest. -/
def causes : Error → List String
  | keyboard _ cause => cause.message :: cause.causes
  | _ => []

end Error
end KeyLayout.Load
