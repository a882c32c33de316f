/-! The attributes of an element, in the order in which they were written. -/
namespace KeyLayout.Markup

structure Attributes where
  entries : List (String × String) := []
  deriving DecidableEq, Repr

namespace Attributes

def get? (a : Attributes) (name : String) : Option String := a.entries.lookup name

/-- Adds an attribute at the end; an attribute of that name may not be there yet. -/
def insert? (a : Attributes) (name value : String) : Option Attributes :=
  match a.get? name with
  | some _ => none
  | none => some ⟨a.entries ++ [(name, value)]⟩

end Attributes
end KeyLayout.Markup
