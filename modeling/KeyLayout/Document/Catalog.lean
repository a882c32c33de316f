import KeyLayout.Document.Attribute
import KeyLayout.Document.Grammar
import KeyLayout.Document.Session
import KeyLayout.Model.Keyboard

/-! Catalogs: the keyboards that can be chosen, in document order. -/
namespace KeyLayout.Document
open Markup Model

/-- A catalog read so far. -/
structure CatalogDraft where
  keyboards : List Descriptor := []
  /-- The ids that are taken. -/
  ids : List String := []
  deriving DecidableEq, Repr

namespace CatalogDraft

def add (d : CatalogDraft) (keyboard : Descriptor) : CatalogDraft where
  keyboards := d.keyboards ++ [keyboard]
  ids := d.ids ++ [keyboard.id]

/-- The keyboard that an element lists comes behind those already known. -/
def list (d : CatalogDraft) (a : Attributes) : Except Error CatalogDraft := do
  let id ← a.required "keyboard" "id"
  let geometry ← a.required "keyboard" "geometry"
  if id ∈ d.ids then throw (.duplicateKeyboard id)
  return d.add { id, geometry, symbols := a.get? "symbols", name := a.get? "name"
                 longName := a.get? "longname", language := a.get? "language" }

def step (d : CatalogDraft) : Event → Except Error CatalogDraft
  | .start name attributes path => do
    Kind.catalog.check name path
    if name = "keyboard" then d.list attributes else return d
  | .stop _ _ => return d
  | .text _ _ => return d

end CatalogDraft

/-- The keyboards of a catalog. -/
def readCatalog (source : Source) : Except Error (List Descriptor) :=
  match consume (.ofExcept CatalogDraft.step) {} source with
  | (d, none) => .ok d.keyboards
  | (_, some e) => .error e

end KeyLayout.Document
