import KeyLayout.Document.Geometry

/-! Symbols documents: what the keys of a geometry produce. The children of a `key` element are its
slots; they are spread over groups behind the groups that the key already has. -/
namespace KeyLayout.Document
open Markup Model

/-- A `key` element whose end has not been read. -/
structure KeyBlock where
  key : Nat
  groups : Nat
  slots : List (Option Symbol) := []
  deriving Repr

/-- A symbol whose end has not been read. -/
structure SymbolDraft where
  keyval : Option Nat
  decoration : Decoration
  content : String := ""
  deriving Repr

/-- A symbols document read so far, with the geometry to which it binds symbols. -/
structure SymbolsDraft where
  geometry : Geometry
  /-- The levels of the blocks that have ended, each with its key. -/
  staged : List (Nat × List Level) := []
  /-- The next free groups of the keys for which levels are staged, those found last first. -/
  nextGroups : List (Nat × Nat) := []
  block : Option KeyBlock := none
  symbol : Option SymbolDraft := none
  deriving Repr

/-- Numbers slots from group `base` on, so many levels to a group. -/
def numberSlots (base levelsPerGroup : Nat) (slots : List (Option Symbol)) : List Level :=
  slots.mapIdx fun i slot => ⟨base + i / levelsPerGroup, i % levelsPerGroup, slot.toList⟩

/-- The quotient rounded up. -/
def divUp (n d : Nat) : Nat := (n + d - 1) / d

namespace Geometry

/-- The number of groups of a key. -/
def groupsOf (g : Geometry) (i : Nat) : Nat := (g.keys[i]?.map KeyDraft.groups).getD 0

def extendLevels (g : Geometry) (i : Nat) (levels : List Level) : Geometry :=
  g.modifyKey i fun key => { key with levels := key.levels ++ levels }

end Geometry

namespace SymbolsDraft

def startKey (d : SymbolsDraft) (a : Attributes) : Except Error SymbolsDraft := do
  let name ← a.required "key" "name"
  match d.geometry.findKey? name with
  | none => throw (.unknownKey name)
  | some key =>
    let groups := (← a.read? Number.word64? "key" "groups").getD 1
    if groups = 0 then throw (.invalidAttribute "key" "groups" "0")
    return { d with block := some { key, groups } }

def symbolKeyval (name : String) (a : Attributes) : Except Error (Option Nat) := do
  if name = "keysym" then
    match ← a.prefixed? name "keyval" with
    | some keyval => return some keyval
    | none => throw (.missingAttribute name "keyval")
  else return none

def startSymbol (d : SymbolsDraft) (name : String) (a : Attributes) :
    Except Error SymbolsDraft := do
  let keyval ← symbolKeyval name a
  let decoration := { label := a.get? "label", icon := a.get? "icon", tooltip := a.get? "tooltip" }
  return { d with symbol := some { keyval, decoration } }

def start (d : SymbolsDraft) (name : String) (a : Attributes) : Except Error SymbolsDraft :=
  match name with
  | "key" => d.startKey a
  | "symbol" | "keysym" | "text" => d.startSymbol name a
  | _ => .ok d

/-- The kind of symbol that an element of this name stands for. -/
def symbolKind (name : String) (keyval : Option Nat) (content : String) : SymbolKind :=
  match name, keyval with
  | "keysym", some value =>
    let name := Text.trim content
    .keyval value (if name.isEmpty then none else some name)
  | "symbol", _ => .keysym (Text.trim content)
  | _, _ => .text content

def addSlot (d : SymbolsDraft) (slot : Option Symbol) : SymbolsDraft :=
  { d with block := d.block.map fun b => { b with slots := b.slots ++ [slot] } }

def stopSymbol (d : SymbolsDraft) (name : String) : SymbolsDraft :=
  match d.symbol with
  | none => d
  | some s =>
    { d with symbol := none }.addSlot (some ⟨symbolKind name s.keyval s.content, s.decoration⟩)

/-- The next free group of a key, behind the groups that it has and those staged for it. -/
def nextGroup (d : SymbolsDraft) (key : Nat) : Nat :=
  (d.nextGroups.lookup key).getD (d.geometry.groupsOf key)

def stage (d : SymbolsDraft) (key : Nat) (levels : List Level) : SymbolsDraft :=
  let next := (levels.getLast?.map (·.group + 1)).getD (d.nextGroup key)
  { d with staged := d.staged ++ [(key, levels)], nextGroups := (key, next) :: d.nextGroups }

/-- Stages the slots of the block that ends, numbered from the next free group of its key. -/
def stopKey (d : SymbolsDraft) : SymbolsDraft :=
  match d.block with
  | none => d
  | some b =>
    let d := { d with block := none }
    if b.slots.isEmpty then d
    else d.stage b.key (numberSlots (d.nextGroup b.key) (divUp b.slots.length b.groups) b.slots)

def stop (d : SymbolsDraft) (name : String) : SymbolsDraft :=
  match name with
  | "key" => d.stopKey
  | "symbol" | "keysym" | "text" => d.stopSymbol name
  | "invalid" => d.addSlot none
  | _ => d

def addText (d : SymbolsDraft) (text : String) : SymbolsDraft :=
  { d with symbol := d.symbol.map fun s => { s with content := s.content ++ text } }

def step (d : SymbolsDraft) : Event → Except Error SymbolsDraft
  | .start name attributes path => do
    Kind.symbols.check name path
    d.start name attributes
  | .stop name _ => return d.stop name
  | .text text _ => return d.addText text

/-- The geometry with all that is staged bound to its keys. -/
def bound (d : SymbolsDraft) : Geometry :=
  d.staged.foldl (fun g (key, levels) => g.extendLevels key levels) d.geometry

end SymbolsDraft

/-- The geometry with the symbols of a document bound to its keys, once the
whole document has been read. -/
def bindSymbols (geometry : Geometry) (source : Source) : Except Error Geometry :=
  match consume (.ofExcept SymbolsDraft.step) { geometry } source with
  | (d, none) => .ok d.bound
  | (_, some e) => .error e

/-- The includes of a symbols document read so far. -/
structure IncludesDraft where
  includes : List String := []
  content : Option String := none
  deriving Repr

namespace IncludesDraft

def step (d : IncludesDraft) : Event → Except Error IncludesDraft
  | .start name _ path => do
    Kind.prerequisites.check name path
    if name = "include" then return { d with content := some "" } else return d
  | .stop name _ =>
    if name = "include" then
      let document := Text.trim (d.content.getD "")
      if document.isEmpty then .error .emptyInclude
      else .ok { includes := d.includes ++ [document], content := none }
    else .ok d
  | .text text _ => .ok { d with content := d.content.map (· ++ text) }

end IncludesDraft

/-- The names of the documents that a symbols document includes. -/
def readIncludes (source : Source) : Except Error (List String) :=
  match consume (.ofExcept IncludesDraft.step) {} source with
  | (d, none) => .ok d.includes
  | (_, some e) => .error e

end KeyLayout.Document
