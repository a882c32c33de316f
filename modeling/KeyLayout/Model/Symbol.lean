/-! What a key produces: symbols, by group and level. -/
namespace KeyLayout.Model

/-- How a symbol is shown. -/
structure Decoration where
  label : Option String := none
  icon : Option String := none
  tooltip : Option String := none
  deriving DecidableEq, Repr

def Decoration.isEmpty (d : Decoration) : Bool :=
  d.label.isNone && d.icon.isNone && d.tooltip.isNone

inductive SymbolKind where
  /-- Text that is entered as it stands. -/
  | text (text : String)
  | keysym (name : String)
  | keyval (value : Nat) (name : Option String)
  deriving DecidableEq, Repr

structure Symbol where
  kind : SymbolKind
  decoration : Decoration := {}
  deriving DecidableEq, Repr

/-- What is written on the key: the label, else the text or name. -/
def Symbol.shown (s : Symbol) : Option String :=
  match s.decoration.label with
  | some label => some label
  | none =>
    match s.kind with
    | .text text => some text
    | .keysym name => some name
    | .keyval _ name => name

/-- The symbols of one group and level; there are none where a binding is left out. -/
structure Level where
  group : Nat
  level : Nat
  symbols : List Symbol
  deriving DecidableEq, Repr

/-- One more than the greatest group. -/
def groupCount (levels : List Level) : Nat := levels.foldl (fun n l => max n (l.group + 1)) 0

end KeyLayout.Model
