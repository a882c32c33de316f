/-! Values of TOML documents, and how the tables of a document come about. -/
namespace KeyLayout.Settings.Toml

/-- How a table or array of tables came about; this decides what may be added to it. -/
inductive Origin where
  /-- Written out as a value; nothing can be added. -/
  | closed
  /-- Named on the way to another table in a header. -/
  | implied
  /-- Named on the way to a key with dots. -/
  | dotted
  /-- Named by a header. -/
  | header
  deriving DecidableEq, Repr

inductive Value where
  | text (text : String)
  | integer (value : Int)
  | real (value : Float)
  /-- What is written like a number, but is too great or has no digits or
  other characters among them. -/
  | unvalued
  | boolean (value : Bool)
  | moment
  | array (origin : Origin) (items : List Value)
  | table (origin : Origin) (entries : List (String × Value))

abbrev Entries := List (String × Value)

/-- Changes the value of a key, or adds the key; `change` may refuse. -/
def Entries.alter? (key : String) (change : Option Value → Option Value) : Entries → Option Entries
  | [] => (change none).map fun value => [(key, value)]
  | (k, v) :: entries =>
    if k = key then (change (some v)).map fun value => (k, value) :: entries
    else (Entries.alter? key change entries).map ((k, v) :: ·)

/-- Changes the last table of an array of tables. -/
def inLast? (change : Entries → Option Entries) (tables : List Value) : Option Value :=
  match tables.getLast? with
  | some (.table origin inner) =>
    (change inner).map fun inner => .array .header (tables.dropLast ++ [.table origin inner])
  | _ => none

/-- Adds a value under a key with dots, given as its first part and the others. On the way, tables
are dotted from then on if they were only implied, and tables with a header are closed; of an array
of tables the last one can be gone through, but takes no values. No key can be given twice. -/
def insert? (value : Value) : (key : String) → (more : List String) → Entries → Option Entries
  | key, [], entries =>
    Entries.alter? key (fun
      | none => some value
      | some _ => none) entries
  | key, next :: more, entries =>
    Entries.alter? key (fun
      | none => (insert? value next more []).map (.table .dotted)
      | some (.table .dotted inner) | some (.table .implied inner) =>
        (insert? value next more inner).map (.table .dotted)
      | some (.array .header tables) =>
        if more.isEmpty then none else inLast? (insert? value next more) tables
      | some _ => none) entries

/-- Changes the table at a path of headers. Missing tables on the way are implied, and of an array
of tables the last one is meant. -/
def inside? (change : Entries → Option Entries) : (path : List String) → Entries → Option Entries
  | [], entries => change entries
  | key :: path, entries =>
    Entries.alter? key (fun
      | none => (inside? change path []).map (.table .implied)
      | some (.table .closed _) => none
      | some (.table origin inner) => (inside? change path inner).map (.table origin)
      | some (.array .header tables) => inLast? (inside? change path) tables
      | some _ => none) entries

/-- Begins the table that a header names; only a table that is merely implied may be there. -/
def openTable? (path : List String) (name : String) : Entries → Option Entries :=
  inside? (Entries.alter? name fun
    | none => some (.table .header [])
    | some (.table .implied inner) => some (.table .header inner)
    | some _ => none) path

/-- Begins the next table of the array that a header names. -/
def openItem? (path : List String) (name : String) : Entries → Option Entries :=
  inside? (Entries.alter? name fun
    | none => some (.array .header [.table .header []])
    | some (.array .header items) => some (.array .header (items ++ [.table .header []]))
    | some _ => none) path

mutual

/-- Whether all numbers in a value have a value themselves. -/
def Value.isRepresented : Value → Bool
  | .unvalued => false
  | .array _ items => itemsRepresented items
  | .table _ entries => entriesRepresented entries
  | _ => true

def itemsRepresented : List Value → Bool
  | [] => true
  | v :: more => v.isRepresented && itemsRepresented more

def entriesRepresented : List (String × Value) → Bool
  | [] => true
  | (_, v) :: more => v.isRepresented && entriesRepresented more

end

end KeyLayout.Settings.Toml
