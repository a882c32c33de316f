import KeyLayout.Document.Error

/-! Where elements may stand in each kind of document. -/
namespace KeyLayout.Document

inductive Kind where
  | catalog
  | geometry
  | symbols
  /-- A symbols document of which only the includes are read. -/
  | prerequisites
  deriving DecidableEq, Repr

namespace Kind

def text : Kind → String
  | catalog => "catalog"
  | geometry => "geometry"
  | symbols => "symbols"
  | prerequisites => "prerequisites"

/-- The allowed paths, each from the element outwards. -/
def paths : Kind → List String
  | catalog => ["keyboards", "keyboard/keyboards"]
  | geometry =>
    ["geometry", "bounds/geometry", "section/geometry", "bounds/section/geometry",
      "button/section/geometry", "button/geometry", "outline/geometry", "point/outline/geometry"]
  | symbols | prerequisites =>
    ["symbols", "include/symbols", "key/symbols", "symbol/key/symbols", "keysym/key/symbols",
      "text/key/symbols", "invalid/key/symbols"]

/-- The path of an element inside open elements, which are listed innermost first. -/
def pathOf (element : String) (path : List String) : String := "/".intercalate (element :: path)

/-- Refuses an element that may not stand inside these. -/
def check (kind : Kind) (element : String) (path : List String) : Except Error Unit :=
  if pathOf element path ∈ kind.paths then .ok ()
  else .error (.misplaced element (pathOf element path))

end Kind
end KeyLayout.Document
