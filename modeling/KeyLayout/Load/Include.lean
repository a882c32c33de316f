import KeyLayout.Document.Symbols
import KeyLayout.Load.Error
import KeyLayout.Resource.Library

/-! Binding a symbols document behind the documents it includes. -/
namespace KeyLayout.Load
open Document Resource

/-- Opens a document and reads it; an error tells which document it was. -/
def readWith {α : Type} (lib : Library) (name : Name) (read : Source → Except Document.Error α) :
    Except Error α :=
  match lib.open? name with
  | none => .error (.notOpened name.text)
  | some source => (read source).mapError (.document name.text)

/-- The includes of a symbols document. -/
def includesOf (lib : Library) (root : Name) (name : String) : Except Error (List String) :=
  readWith lib (root.symbols name) readIncludes

/-- The geometry with a symbols document bound to it. -/
def bindDocument (lib : Library) (root : Name) (geometry : Geometry) (name : String) :
    Except Error Geometry :=
  readWith lib (root.symbols name) (bindSymbols geometry)

/-- The geometry with the symbols bound so far, and the names of the documents
entered so far, the last first. -/
structure Progress where
  geometry : Geometry
  entered : List String := []

/-- Binds a document behind those it includes, each behind its own. No name may be entered
twice; so the depth to which documents can include each other is bounded, and beyond the bound a
name must be a repeated one. -/
def bindIncluding (lib : Library) (root : Name) : Nat → Progress → String → Except Error Progress
  | 0, _, name => .error (.repeatedInclude name)
  | depth + 1, p, name =>
    if name ∈ p.entered then .error (.repeatedInclude name)
    else do
      let includes ← includesOf lib root name
      let p ← includes.foldlM (bindIncluding lib root depth) { p with entered := name :: p.entered }
      let geometry ← bindDocument lib root p.geometry name
      return { p with geometry }

/-- All includes of the documents of a library. -/
def includeNames (lib : Library) : List String :=
  lib.sources.flatMap fun source => (readIncludes source).toOption.getD []

/-- Binds a symbols document and all it includes to a geometry, and keeps
the names of the documents. -/
def followIncludes (lib : Library) (root : Name) (geometry : Geometry) (name : String) :
    Except Error Progress :=
  bindIncluding lib root ((includeNames lib).length + 1) { geometry } name

/-- The geometry with a symbols document and all it includes bound to it. -/
def bindAll (lib : Library) (root : Name) (geometry : Geometry) (name : String) :
    Except Error Geometry := do
  let p ← followIncludes lib root geometry name
  return p.geometry

end KeyLayout.Load
