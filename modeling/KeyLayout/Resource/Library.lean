import KeyLayout.Document.Session
import KeyLayout.Resource.Bundled
import KeyLayout.Resource.Files
import KeyLayout.Resource.Name

/-! The documents that can be opened by name. -/
namespace KeyLayout.Resource
open Document

/-- A finite collection of documents. -/
structure Library where
  open? : Name → Option Source
  sources : List Source
  mem_sources : ∀ {name source}, open? name = some source → source ∈ sources

/-- A folder can be opened, but not read. -/
def Entry.source : Entry → Source
  | .file content => .ofBytes content
  | .folder => [.failed "Is a directory (os error 21)"]

def openIn (files : Files) : Name → Option Source
  | .path path => (files.find? path).map Entry.source
  | .bundled name => (bundled? name).map fun text => .ofBytes (Utf8.encode text)

/-- Files and the bundled documents. -/
def Library.ofFiles (files : Files) : Library where
  open? := openIn files
  sources := Entry.folder.source :: (files.contents.map fun content => .ofBytes content) ++
    documents.map fun document => .ofBytes (Utf8.encode document.2)
  mem_sources := by
    intro name source h
    cases name with
    | path path =>
      simp only [openIn, Option.map_eq_some_iff] at h
      obtain ⟨entry, found, rfl⟩ := h
      cases entry with
      | folder => simp
      | file content =>
        simp only [List.mem_append, List.mem_cons, List.mem_map]
        exact .inl (.inr ⟨content, files.mem_contents found, rfl⟩)
    | bundled name =>
      simp only [openIn, Option.map_eq_some_iff] at h
      obtain ⟨text, found, rfl⟩ := h
      obtain ⟨document, mem, rfl⟩ := mem_documents_of_bundled? found
      simp only [List.mem_append, List.mem_map]
      exact .inr ⟨document, mem, rfl⟩

end KeyLayout.Resource
