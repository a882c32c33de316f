import KeyLayout.Model.Key
import KeyLayout.Model.Outline
import KeyLayout.Number.Digits

/-! A linked keyboard: its keys by number, the sections that arrange them, and their outlines. -/
namespace KeyLayout.Model

/-- A keyboard as a catalog lists it. -/
structure Descriptor where
  id : String
  geometry : String
  symbols : Option String := none
  name : Option String := none
  longName : Option String := none
  language : Option String := none
  deriving DecidableEq, Repr

/-- Rows of keys, each key by its number. -/
structure Section where
  name : Option String := none
  angle : Int := 0
  bounds : Option (Rect Float) := none
  rows : List (List Nat) := []
  deriving Repr

def Section.keys (s : Section) : List Nat := s.rows.flatten

/-- A set of modifiers. -/
structure Modifiers where
  bits : UInt32
  deriving DecidableEq, Repr

namespace Modifiers

def none : Modifiers := ⟨0⟩
def shift : Modifiers := ⟨1⟩
def lock : Modifiers := ⟨2⟩
def control : Modifiers := ⟨4⟩
def mod1 : Modifiers := ⟨8⟩
def mod2 : Modifiers := ⟨16⟩
def mod3 : Modifiers := ⟨32⟩
def mod4 : Modifiers := ⟨64⟩
def mod5 : Modifiers := ⟨128⟩
def button1 : Modifiers := ⟨256⟩

def contains (m other : Modifiers) : Bool := m.bits &&& other.bits == other.bits

def text (m : Modifiers) : String := "0x" ++ Number.hex 4 m.bits.toNat

end Modifiers

structure Keyboard where
  descriptor : Descriptor
  bounds : Option (Rect Float)
  sections : List Section
  keys : List Key
  outlines : OutlineTable
  numLock : Modifiers := .mod2
  altGr : Modifiers := .button1
  deriving Repr

namespace Keyboard

/-- The position of the last key of this name. -/
def lastNamed? (name : String) : List Key → Option Nat
  | [] => none
  | key :: keys =>
    match lastNamed? name keys with
    | some i => some (i + 1)
    | none => if key.name = name then some 0 else none

def findKey? (k : Keyboard) (name : String) : Option Nat := lastNamed? name k.keys

/-- The keys of a section, row by row, without numbers that no key has. -/
def keysIn (k : Keyboard) (s : Section) : List Key := s.keys.filterMap fun i => k.keys[i]?

def outlineOf? (k : Keyboard) (i : Nat) : Option Outline :=
  (k.keys[i]?).bind fun key => k.outlines.get? key.outline

/-- Changes one key; `none` if no key has the number. -/
def modifyKey? (k : Keyboard) (i : Nat) (f : Key → Key) : Option Keyboard :=
  if i < k.keys.length then some { k with keys := k.keys.modify i f } else none

def setPressed? (k : Keyboard) (i : Nat) (pressed : Bool) : Option Keyboard :=
  k.modifyKey? i fun key => { key with pressed }

def setLocked? (k : Keyboard) (i : Nat) (locked : Bool) : Option Keyboard :=
  k.modifyKey? i fun key => { key with locked }

end Keyboard
end KeyLayout.Model
