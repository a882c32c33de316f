import KeyLayout.Markup.Piece

/-! Files, and what is known of them. -/
namespace KeyLayout.Resource
open Markup

/-- What a path can lead to. -/
inductive Entry where
  | file (content : Bytes)
  | folder
  deriving DecidableEq, Repr

/-- Files that can be found by path. There are finitely many. -/
structure Files where
  find? : String → Option Entry
  contents : List Bytes
  mem_contents : ∀ {path content}, find? path = some (.file content) → content ∈ contents

def Entry.content? : Entry → Option Bytes
  | .file content => some content
  | .folder => none

/-- Files known by the very paths in a list, and no others. -/
def Files.ofList (entries : List (String × Entry)) : Files where
  find? path := entries.lookup path
  contents := entries.filterMap (·.2.content?)
  mem_contents := by
    intro path content h
    obtain ⟨front, back, split, _⟩ := List.lookup_eq_some_iff.1 h
    simp [split, Entry.content?]

end KeyLayout.Resource
