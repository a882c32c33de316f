import KeyLayout.Model.Plane

/-! Outlines of keys, and the table that numbers them. -/
namespace KeyLayout.Model

/-- A polygon with rounded corners. -/
structure Outline where
  radius : Float
  points : List (Point Float)
  deriving Repr

def Outline.bounds (o : Outline) : Option (Rect Float) := Rect.enclosing o.points

/-- Outlines by id. The number of an entry is its position; it stays
when the outline is replaced. -/
structure OutlineTable where
  entries : List (String × Outline) := []
  deriving Repr

namespace OutlineTable

def handle? (t : OutlineTable) (id : String) : Option Nat := t.entries.findIdx? (·.1 == id)

def get? (t : OutlineTable) (handle : Nat) : Option Outline := t.entries[handle]?.map (·.2)

def id? (t : OutlineTable) (handle : Nat) : Option String := t.entries[handle]?.map (·.1)

def size (t : OutlineTable) : Nat := t.entries.length

/-- The entries in their order, each with its number. -/
def numbered (t : OutlineTable) : List (Nat × String × Outline) :=
  t.entries.zipIdx.map fun (entry, handle) => (handle, entry.1, entry.2)

/-- Stores an outline under an id, which keeps its number if it has one. -/
def intern (t : OutlineTable) (id : String) (outline : Outline) : OutlineTable × Nat :=
  match t.handle? id with
  | some handle => (⟨t.entries.set handle (id, outline)⟩, handle)
  | none => (⟨t.entries ++ [(id, outline)]⟩, t.size)

/-- A new table of the outlines that come one behind the other. -/
def ofEntries (entries : List (String × Outline)) : OutlineTable :=
  entries.foldl (fun t entry => (t.intern entry.1 entry.2).1) {}

end OutlineTable
end KeyLayout.Model
