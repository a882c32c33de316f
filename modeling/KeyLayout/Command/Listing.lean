import KeyLayout.Model.Keyboard
import KeyLayout.Number.Shortest
import KeyLayout.Text.Quoted

/-! Keyboards as lines of text. -/
namespace KeyLayout.Command
open Model Text

def orDash (text : Option String) : String := text.getD "-"

/-- One keyboard of a list; ids take the given width. -/
def listLine (width : Nat) (d : Descriptor) : String :=
  padRight width d.id ++ "  " ++ padRight 24 (orDash d.name) ++ "  " ++
    padRight 8 (orDash d.language) ++ "  " ++
    padRight 16 (orDash d.longName) ++ "  geometry=" ++ d.geometry ++ " symbols=" ++
    orDash d.symbols ++ "\n"

/-- The width of the ids in a list: that of the one with the most bytes. -/
def idWidth (keyboards : List Descriptor) : Nat := (keyboards.map (·.id.utf8ByteSize)).foldl max 0

/-- One line for each keyboard. -/
def listLines (keyboards : List Descriptor) : List String :=
  keyboards.map (listLine (idWidth keyboards))

/-- The first symbol of a level, in short. A label of blanks is quoted. -/
def levelLabel (l : Level) : String :=
  match l.symbols with
  | [] => "-"
  | symbol :: _ =>
    match symbol.shown with
    | some label => if (trim label).isEmpty then quote label else trim label
    | none =>
      match symbol.kind with
      | .keyval value _ => "0x" ++ Number.hex 4 value
      | _ => "?"

/-- The levels of each group, and bars between the groups. -/
def keyLabels (key : Key) : String :=
  " | ".intercalate ((List.range key.groups).map fun group =>
    " ".intercalate ((key.levelsIn group).map levelLabel))

def keyLine (k : Keyboard) (key : Key) : String :=
  "    " ++ padRight 6 key.name ++ " " ++ padLeft 4 (toString key.keycode) ++ "  " ++
    padRight 10 ((k.outlines.id? key.outline).getD "?") ++ " " ++ keyLabels key ++ "\n"

/-- The rows of a section from one on, under their numbers. -/
def rowLines (k : Keyboard) (number : Nat) : List (List Nat) → List String
  | [] => []
  | row :: rows =>
    s!"  Row {number}\n" :: row.filterMap (fun i => (k.keys[i]?).map (keyLine k)) ++
      rowLines k (number + 1) rows

def sectionLines (k : Keyboard) (s : Section) : List String :=
  s!"Section {orDash s.name} (angle {s.angle})\n" :: rowLines k 1 s.rows

/-- The keys that no section holds. -/
def unplacedKeys (k : Keyboard) : List Key :=
  let placed := k.sections.flatMap Section.keys
  (k.keys.zipIdx.filter fun (_, i) => !placed.contains i).map (·.1)

def unplacedLines (k : Keyboard) : List String :=
  let keys := unplacedKeys k
  if keys.isEmpty then [] else "Unplaced\n" :: keys.map (keyLine k)

def boundsLine (r : Rect Float) : String :=
  let write := Number.Layout.plain.write
  "Bounds " ++ write r.x ++ " " ++ write r.y ++ " " ++ write r.width ++ "x" ++
    write r.height ++ "\n"

def headLines (k : Keyboard) : List String :=
  let d := k.descriptor
  let title := match d.name with
    | some name => s!"Keyboard {d.id} ({name})\n"
    | none => s!"Keyboard {d.id}\n"
  [title, s!"Geometry {d.geometry}, symbols {orDash d.symbols}\n"] ++
    (k.bounds.map boundsLine).toList ++
    [s!"Modifiers num-lock={k.numLock.text} alt-gr={k.altGr.text}\n"]

/-- The keyboard with its sections, rows and keys; keys without a place come last. -/
def keyboardLines (k : Keyboard) : List String :=
  headLines k ++ k.sections.flatMap (sectionLines k) ++ unplacedLines k

end KeyLayout.Command
