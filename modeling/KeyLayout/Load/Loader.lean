import KeyLayout.Document.Catalog
import KeyLayout.Load.Include

/-! Loading a keyboard: its place in the catalog, its geometry and symbols,
and their link to a whole. -/
namespace KeyLayout.Load
open Document Model Resource

/-- Gives each key the number of its outline. A key without symbols is odd, one
without an outline is wrong. -/
def linkKeys (outlines : OutlineTable) : List KeyDraft → Reported Error (List Key)
  | [] => .ok []
  | key :: keys =>
    match outlines.handle? key.outline with
    | none => .error (.danglingOutline key.name key.outline)
    | some outline =>
      let warnings := if key.levels.isEmpty then [Warning.withoutSymbols key.name] else []
      let linked : Key :=
        { name := key.name, keycode := key.keycode, outline, levels := key.levels }
      let more := linkKeys outlines keys
      ⟨warnings ++ more.warnings, more.result.map (linked :: ·)⟩

/-- The keyboard that a geometry with symbols describes, with its outlines numbered anew. -/
def assemble (descriptor : Descriptor) (geometry : Geometry) : Reported Error Keyboard := do
  let outlines := OutlineTable.ofEntries geometry.outlines.entries
  let keys ← linkKeys outlines geometry.keys
  return { descriptor, bounds := geometry.bounds, sections := geometry.sections, keys, outlines }

/-- The first keyboard of this id. -/
def resolve (keyboards : List Descriptor) (id : String) : Except Error Descriptor :=
  match keyboards.find? (·.id == id) with
  | some descriptor => .ok descriptor
  | none => .error (.unknownKeyboard id)

/-- Where keyboards are loaded from. -/
structure Loader where
  library : Library
  root : Name

namespace Loader

/-- The keyboards of the catalog. -/
def list (l : Loader) : Except Error (List Descriptor) :=
  readWith l.library l.root.catalog readCatalog

def readGeometry (l : Loader) (name : String) : Reported Error Geometry :=
  let document := l.root.geometry name
  match l.library.open? document with
  | none => .error (.notOpened document.text)
  | some source => (Document.readGeometry source).mapError (.document document.text)

/-- Reads and links the documents of a keyboard. -/
def build (l : Loader) (descriptor : Descriptor) : Reported Error Keyboard :=
  match descriptor.symbols with
  | none => .error (.missingSymbols descriptor.id)
  | some symbols => do
    let geometry ← l.readGeometry descriptor.geometry
    let geometry ← Reported.ofExcept (bindAll l.library l.root geometry symbols)
    assemble descriptor geometry

/-- Loads a keyboard that need not be in the catalog. -/
def loadDescribed (l : Loader) (descriptor : Descriptor) : Reported Error Keyboard :=
  (l.build descriptor).mapError (.keyboard descriptor.id)

/-- Loads the keyboard with this id. -/
def load (l : Loader) (id : String) : Reported Error Keyboard :=
  Reported.mapError (.keyboard id) do
    let keyboards ← Reported.ofExcept l.list
    let descriptor ← Reported.ofExcept (resolve keyboards id)
    l.build descriptor

end Loader
end KeyLayout.Load
