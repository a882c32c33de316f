import KeyLayout.Resource.Files
import KeyLayout.Text.Blank

/-! A tree of files, and the meaning of paths in it. -/
namespace KeyLayout.Resource
open Markup

/-- Files by their place, given as the names on the way to it from the root of all files. Every file
lies in folders, and there can be others. -/
structure Directory where
  files : List (List String × Bytes) := []
  folders : List (List String) := []
  /-- The working directory, where paths begin that do not begin at the root. -/
  working : List String := []
  deriving DecidableEq, Repr

namespace Directory

/-- The entry at a place. -/
def at? (d : Directory) (place : List String) : Option Entry :=
  match d.files.lookup place with
  | some content => some (.file content)
  | none =>
    if place.isPrefixOf d.working || d.files.any (place.isPrefixOf ·.1) ||
        d.folders.any (place.isPrefixOf ·) then
      some .folder
    else none

/-- The place one name on from another. The root is its own parent. -/
def enter (place : List String) (name : String) : List String :=
  if name = "" ∨ name = "." then place
  else if name = ".." then place.dropLast
  else place ++ [name]

/-- Goes on from a place, name by name; only a folder can be gone through. -/
def walk (d : Directory) (place : List String) : List String → Option Entry
  | [] => d.at? place
  | name :: more =>
    match d.at? place with
    | some .folder => d.walk (enter place name) more
    | _ => none

/-- The place where a path begins. -/
def origin (d : Directory) (path : String) : List String :=
  if path.toList.head? = some '/' then [] else d.working

/-- The names on the way that a path goes. -/
def steps (path : String) : List String := (Text.splitOn '/' path.toList).map String.ofList

/-- The entry to which a path leads, if all that it goes through are folders. -/
def find? (d : Directory) (path : String) : Option Entry :=
  if path.isEmpty then none else d.walk (d.origin path) (steps path)

/-- The place that a path names. -/
def placeOf (d : Directory) (path : String) : List String :=
  (steps path).foldl enter (d.origin path)

/-- Stores a file, in the stead of one that is there. -/
def write (d : Directory) (path : String) (content : Bytes) : Directory :=
  { d with files := (d.placeOf path, content) :: d.files }

theorem mem_files_of_at? {d : Directory} {place : List String} {content : Bytes}
    (h : d.at? place = some (.file content)) : content ∈ d.files.map (·.2) := by
  unfold at? at h
  split at h
  next found =>
    simp only [Option.some.injEq, Entry.file.injEq] at h
    subst h
    obtain ⟨front, back, split, _⟩ := List.lookup_eq_some_iff.1 found
    simp [split]
  next => split at h <;> simp at h

/-- The entry to which a path leads is the one at the place that it names. -/
theorem at?_of_walk {d : Directory} {place names : List String} {entry : Entry}
    (h : d.walk place names = some entry) : d.at? (names.foldl enter place) = some entry := by
  induction names generalizing place with
  | nil => exact h
  | cons name more ih =>
    unfold walk at h
    split at h
    · exact ih h
    · simp at h

theorem at?_placeOf {d : Directory} {path : String} {entry : Entry}
    (h : d.find? path = some entry) : d.at? (d.placeOf path) = some entry := by
  unfold find? at h
  split at h
  · simp at h
  · exact at?_of_walk h

theorem mem_files_of_find? {d : Directory} {path : String} {content : Bytes}
    (h : d.find? path = some (.file content)) : content ∈ d.files.map (·.2) :=
  mem_files_of_at? (at?_placeOf h)

/-- The files of the tree by their paths. -/
def toFiles (d : Directory) : Files := ⟨d.find?, d.files.map (·.2), mem_files_of_find?⟩

end Directory
end KeyLayout.Resource
