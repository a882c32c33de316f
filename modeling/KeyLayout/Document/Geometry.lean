import KeyLayout.Document.Attribute
import KeyLayout.Document.Grammar
import KeyLayout.Document.Session
import KeyLayout.Document.Warning
import KeyLayout.Model.Keyboard

/-! Geometry documents: the keys of a keyboard, the sections that arrange them, and their
outlines. A key begins to exist where it is first mentioned; later mentions change its outline or
keycode, never its place. -/
namespace KeyLayout.Document
open Markup Model

/-- Keycodes are given out from here on. -/
def firstKeycode : Nat := 8

/-- The outline of keys that name none. -/
def defaultOutline : String := "default"

/-- A key whose outline is still a name. -/
structure KeyDraft where
  name : String
  keycode : Nat
  outline : String := defaultOutline
  levels : List Level := []
  /-- Whether a section holds the key. -/
  placed : Bool := false
  deriving DecidableEq, Repr

def KeyDraft.groups (k : KeyDraft) : Nat := groupCount k.levels

/-- What a geometry document defines; keys are known by their position. -/
structure Geometry where
  bounds : Option (Rect Float) := none
  sections : List Section := []
  keys : List KeyDraft := []
  /-- The positions of the keys by their names. -/
  names : List (String × Nat) := []
  outlines : OutlineTable := {}
  deriving Repr

namespace Geometry

def findKey? (g : Geometry) (name : String) : Option Nat := g.names.lookup name

/-- A new key comes behind the others, and into the index. -/
def addKey (g : Geometry) (key : KeyDraft) : Geometry :=
  { g with keys := g.keys ++ [key], names := (key.name, g.keys.length) :: g.names }

/-- The keys whose outline is not defined, each with its outline. -/
def unresolved (g : Geometry) : List (String × String) :=
  (g.keys.filter fun key => (g.outlines.handle? key.outline).isNone).map fun key =>
    (key.name, key.outline)

def modifyKey (g : Geometry) (i : Nat) (f : KeyDraft → KeyDraft) : Geometry :=
  { g with keys := g.keys.modify i f }

end Geometry

/-- A section whose end has not been read. -/
structure SectionDraft where
  name : Option String
  angle : Int
  bounds : Option (Rect Float) := none
  rows : List (List Nat) := []
  /-- The row that is being filled. -/
  row : List Nat := []
  /-- Content behind the last child, not yet read as key names. -/
  content : String := ""
  deriving Repr

def SectionDraft.endRow (s : SectionDraft) : SectionDraft :=
  if s.row.isEmpty then s else { s with rows := s.rows ++ [s.row], row := [] }

/-- An outline whose end has not been read. -/
structure OutlineDraft where
  id : String
  radius : Float
  points : List (Point Float) := []
  deriving Repr

/-- A geometry document read so far. -/
structure GeometryDraft where
  geometry : Geometry := {}
  /-- The keycode of the next key that is made. Behind the last word comes the first. -/
  nextKeycode : UInt32 := .ofNat firstKeycode
  openSection : Option SectionDraft := none
  openOutline : Option OutlineDraft := none
  warnings : List Warning := []
  deriving Repr

namespace GeometryDraft

def warn (d : GeometryDraft) (w : Warning) : GeometryDraft :=
  { d with warnings := d.warnings ++ [w] }

/-- The key of this name, which begins to exist if there is none. -/
def introduce (d : GeometryDraft) (name : String) : GeometryDraft × Nat :=
  match d.geometry.findKey? name with
  | some i => (d, i)
  | none =>
    let key : KeyDraft := { name, keycode := d.nextKeycode.toNat }
    ({ d with geometry := d.geometry.addKey key, nextKeycode := d.nextKeycode + 1 },
      d.geometry.keys.length)

/-- Puts a key into the current row of the open section, unless a section holds it already. -/
def place (d : GeometryDraft) (i : Nat) : GeometryDraft :=
  match d.openSection, d.geometry.keys[i]? with
  | some s, some key =>
    if key.placed then d.warn (.alreadyPlaced key.name)
    else
      { d with
        geometry := d.geometry.modifyKey i fun key => { key with placed := true }
        openSection := some { s with row := s.row ++ [i] } }
  | _, _ => d

def mention (d : GeometryDraft) (name : String) : GeometryDraft :=
  let (d, i) := d.introduce name
  d.place i

/-- Reads the key names of one line. -/
def readLine (d : GeometryDraft) (line : List Char) : GeometryDraft :=
  (Text.words line).foldl mention d

def endRow (d : GeometryDraft) : GeometryDraft :=
  { d with openSection := d.openSection.map SectionDraft.endRow }

/-- Reads the lines behind the first; each begins a new row. -/
def readMoreLines (d : GeometryDraft) (lines : List (List Char)) : GeometryDraft :=
  lines.foldl (fun d line => d.endRow.readLine line) d

/-- Reads the content of the open section as key names. Blanks separate
names, and line feeds rows. -/
def readContent (d : GeometryDraft) : GeometryDraft :=
  match d.openSection with
  | none => d
  | some s =>
    let d := { d with openSection := some { s with content := "" } }
    match Text.lines s.content.toList with
    | [] => d
    | first :: more => (d.readLine first).readMoreLines more

def startBounds (d : GeometryDraft) (a : Attributes) (path : List String) :
    Except Error GeometryDraft := do
  let x ← a.read Number.real? "bounds" "x"
  let y ← a.read Number.real? "bounds" "y"
  let width ← a.read Number.real? "bounds" "width"
  let height ← a.read Number.real? "bounds" "height"
  let bounds : Option (Rect Float) := some ⟨x, y, width, height⟩
  match d.openSection with
  | some s =>
    if path.head? = some "section" then return { d with openSection := some { s with bounds } }
    else return { d with geometry := { d.geometry with bounds } }
  | none => return { d with geometry := { d.geometry with bounds } }

def startSection (d : GeometryDraft) (a : Attributes) : Except Error GeometryDraft := do
  let angle ← a.read? Number.integer32? "section" "angle"
  return { d with openSection := some { name := a.get? "id", angle := angle.getD 0 } }

/-- The keycode that a button gives its key. -/
def buttonKeycode (a : Attributes) : Except Error (Option Nat) := do
  match ← a.read? Number.word32? "button" "keycode" with
  | some keycode =>
    if keycode < firstKeycode then throw (.invalidAttribute "button" "keycode" (toString keycode))
    return some keycode
  | none => return none

/-- A button mentions a key, and says more about it; in a section it also
places a key that has no place. -/
def startButton (d : GeometryDraft) (a : Attributes) (path : List String) :
    Except Error GeometryDraft := do
  let name ← a.required "button" "name"
  let keycode ← buttonKeycode a
  let (d, i) := d.introduce name
  let d := { d with geometry := d.geometry.modifyKey i fun key =>
    { key with outline := (a.get? "oref").getD key.outline, keycode := keycode.getD key.keycode } }
  if path.head? = some "section" && !(d.geometry.keys[i]?.any (·.placed)) then return d.place i
  else return d

def startOutline (d : GeometryDraft) (a : Attributes) : Except Error GeometryDraft := do
  let id ← a.required "outline" "id"
  let radius ← a.read? Number.real? "outline" "corner-radius"
  return { d with openOutline := some { id, radius := radius.getD 0 } }

def startPoint (d : GeometryDraft) (a : Attributes) : Except Error GeometryDraft := do
  let x ← a.read Number.real? "point" "x"
  let y ← a.read Number.real? "point" "y"
  return { d with
    openOutline := d.openOutline.map fun o => { o with points := o.points ++ [⟨x, y⟩] } }

def start (d : GeometryDraft) (name : String) (a : Attributes) (path : List String) :
    Except Error GeometryDraft :=
  match name with
  | "bounds" => d.startBounds a path
  | "section" => d.startSection a
  | "button" => d.startButton a path
  | "outline" => d.startOutline a
  | "point" => d.startPoint a
  | _ => .ok d

def stopSection (d : GeometryDraft) : GeometryDraft :=
  let d := d.readContent
  match d.openSection with
  | none => d
  | some s =>
    let s := s.endRow
    let done : Section := { name := s.name, angle := s.angle, bounds := s.bounds, rows := s.rows }
    { d with
      openSection := none
      geometry := { d.geometry with sections := d.geometry.sections ++ [done] } }

def stopOutline (d : GeometryDraft) : GeometryDraft :=
  match d.openOutline with
  | none => d
  | some o =>
    let known := (d.geometry.outlines.handle? o.id).isSome
    let outlines := (d.geometry.outlines.intern o.id ⟨o.radius, o.points⟩).1
    let d := { d with openOutline := none, geometry := { d.geometry with outlines } }
    if known then d.warn (.outlineRedefined o.id) else d

def stop (d : GeometryDraft) (name : String) : GeometryDraft :=
  match name with
  | "section" => d.stopSection
  | "outline" => d.stopOutline
  | _ => d

def addText (d : GeometryDraft) (text : String) (path : List String) : GeometryDraft :=
  if path.head? = some "section" then
    { d with openSection := d.openSection.map fun s => { s with content := s.content ++ text } }
  else d

/-- Warnings that the content of a section raises stay, also if the child behind it is wrong. -/
def step : Consumer GeometryDraft
  | d, .start name attributes path =>
    match Kind.geometry.check name path with
    | .error e => (d, some e)
    | .ok () =>
      let d := if path.head? = some "section" then d.readContent else d
      match d.start name attributes path with
      | .ok d => (d, none)
      | .error e => (d, some e)
  | d, .stop name _ => (d.stop name, none)
  | d, .text text path => (d.addText text path, none)

end GeometryDraft

/-- The first key whose keycode belongs to an earlier one, which is named too. -/
def duplicateKeycode? (earlier : List KeyDraft) : List KeyDraft → Option Error
  | [] => none
  | key :: more =>
    match earlier.find? (·.keycode == key.keycode) with
    | some other => some (.duplicateKeycode key.keycode key.name other.name)
    | none => duplicateKeycode? (earlier ++ [key]) more

/-- What a geometry document defines. -/
def readGeometry (source : Source) : Reported Error Geometry :=
  match consume GeometryDraft.step {} source with
  | (d, some e) => ⟨d.warnings, .error e⟩
  | (d, none) =>
    match duplicateKeycode? [] d.geometry.keys with
    | some e => ⟨d.warnings, .error e⟩
    | none =>
      let unplaced := (d.geometry.keys.filter (!·.placed)).map fun key => Warning.notPlaced key.name
      ⟨d.warnings ++ unplaced, .ok d.geometry⟩

end KeyLayout.Document
