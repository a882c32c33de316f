import KeyLayout.Model.Keyboard

/-! A keyboard as it is kept in memory: the names of its keys are indexed when it is made, and from
then on only flags of keys are set. -/
namespace KeyLayout.Model

/-- What a keyboard in use says of a key. -/
inductive Flag where
  | pressed
  | locked
  deriving DecidableEq, Repr

def Key.flag (key : Key) : Flag → Bool
  | .pressed => key.pressed
  | .locked => key.locked

/-- Sets a flag of one key; `none` if no key has the number. -/
def Keyboard.setFlag? (k : Keyboard) (flag : Flag) (i : Nat) (value : Bool) : Option Keyboard :=
  match flag with
  | .pressed => k.setPressed? i value
  | .locked => k.setLocked? i value

/-- The positions of keys by name. The key that comes last of a name is the one that is found. -/
def indexNames (keys : List Key) : List (String × Nat) :=
  keys.zipIdx.foldl (fun index (key, i) => (key.name, i) :: index) []

structure KeyboardStore where
  keyboard : Keyboard
  index : List (String × Nat)

namespace KeyboardStore

def ofKeyboard (keyboard : Keyboard) : KeyboardStore := ⟨keyboard, indexNames keyboard.keys⟩

def findKey? (t : KeyboardStore) (name : String) : Option Nat := t.index.lookup name

/-- A value for one flag of one key. -/
structure Setting where
  key : Nat
  flag : Flag
  value : Bool
  deriving DecidableEq, Repr

/-- Sets a flag, and tells whether there is such a key. -/
def set (t : KeyboardStore) (setting : Setting) : KeyboardStore × Bool :=
  match t.keyboard.setFlag? setting.flag setting.key setting.value with
  | some keyboard => ({ t with keyboard }, true)
  | none => (t, false)

/-- Sets flags one after the other. -/
def setAll (t : KeyboardStore) : List Setting → KeyboardStore × List Bool
  | [] => (t, [])
  | setting :: more =>
    let (t, known) := t.set setting
    let (t, others) := t.setAll more
    (t, known :: others)

end KeyboardStore
end KeyLayout.Model
