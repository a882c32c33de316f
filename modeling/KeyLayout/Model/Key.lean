import KeyLayout.Model.Symbol

/-! Keys of a keyboard. -/
namespace KeyLayout.Model

structure Key where
  name : String
  keycode : Nat
  /-- The number of the key's outline in the keyboard's table. -/
  outline : Nat
  levels : List Level
  pressed : Bool := false
  locked : Bool := false
  deriving DecidableEq, Repr

namespace Key

def groups (k : Key) : Nat := groupCount k.levels

def levelsIn (k : Key) (group : Nat) : List Level := k.levels.filter (·.group == group)

/-- The first symbol of the first level with these numbers. -/
def symbolAt? (k : Key) (group level : Nat) : Option Symbol :=
  (k.levels.find? fun l => l.group == group && l.level == level).bind (·.symbols.head?)

end Key
end KeyLayout.Model
