import KeyLayout.Model.Outline

/-! The table of outlines as it is kept in memory, where symbols stand for the ids. -/
namespace KeyLayout.Model

variable {State Symbol : Type}

/-- What gives out symbols for strings, and the strings back for them. -/
structure Interner (State Symbol : Type) where
  empty : State
  intern : State → String → State × Symbol
  get? : State → String → Option Symbol
  resolve? : State → Symbol → Option String

namespace Interner

/-- The state behind these strings, given one after the other. -/
def after (i : Interner State Symbol) (strings : List String) : State :=
  strings.foldl (fun s string => (i.intern s string).1) i.empty

/-- Symbols are numbers, in the order in which their strings first come. -/
def dense : Interner (List String) Nat where
  empty := []
  intern strings string :=
    (if string ∈ strings then strings else strings ++ [string], strings.idxOf string)
  get? strings string := if string ∈ strings then some (strings.idxOf string) else none
  resolve? strings symbol := strings[symbol]?

end Interner

/-- Outlines by number, each with the symbol of its id, and the numbers of the symbols. -/
structure OutlineStore (State Symbol : Type) where
  ids : State
  slots : List (Symbol × Outline) := []
  handles : List (Symbol × Nat) := []

namespace OutlineStore

variable [BEq Symbol] (i : Interner State Symbol)

def empty : OutlineStore State Symbol := { ids := i.empty }

def handle? (t : OutlineStore State Symbol) (id : String) : Option Nat :=
  (i.get? t.ids id).bind fun symbol => t.handles.lookup symbol

def get? (t : OutlineStore State Symbol) (handle : Nat) : Option Outline :=
  t.slots[handle]?.map (·.2)

def id? (t : OutlineStore State Symbol) (handle : Nat) : Option String :=
  t.slots[handle]?.bind fun slot => i.resolve? t.ids slot.1

def size (t : OutlineStore State Symbol) : Nat := t.slots.length

/-- The outlines in their order, each with its number and its id. -/
def numbered (t : OutlineStore State Symbol) : List (Nat × String × Outline) :=
  t.slots.zipIdx.filterMap fun (slot, handle) =>
    (i.resolve? t.ids slot.1).map fun id => (handle, id, slot.2)

/-- Stores an outline under an id, which keeps its number if it has one. -/
def intern (t : OutlineStore State Symbol) (id : String) (outline : Outline) :
    OutlineStore State Symbol × Nat :=
  let given := i.intern t.ids id
  match t.handles.lookup given.2 with
  | some handle =>
    ({ t with ids := given.1, slots := t.slots.modify handle fun slot => (slot.1, outline) },
      handle)
  | none =>
    (⟨given.1, t.slots ++ [(given.2, outline)], (given.2, t.slots.length) :: t.handles⟩,
      t.slots.length)

/-- A new table of the outlines that come one behind the other. -/
def ofEntries (entries : List (String × Outline)) : OutlineStore State Symbol :=
  entries.foldl (fun t entry => (t.intern i entry.1 entry.2).1) (empty i)

end OutlineStore
end KeyLayout.Model
