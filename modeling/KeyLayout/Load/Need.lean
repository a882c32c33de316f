import KeyLayout.Document.Catalog
import KeyLayout.Document.Symbols
import KeyLayout.Resource.Library

/-! The documents that loading can come to. -/
namespace KeyLayout.Load
open Document Resource

/-- A document below the root of the keyboards. -/
inductive Need where
  | catalog
  | geometry (name : String)
  | symbols (name : String)
  deriving DecidableEq, Repr

namespace Need

/-- The name of the document. -/
def document (root : Name) : Need → Name
  | catalog => root.catalog
  | geometry name => root.geometry name
  | symbols name => root.symbols name

/-- The documents that a document leads to; none if it is wrong. -/
def next (source : Source) : Need → List Need
  | catalog => ((readCatalog source).toOption.getD []).flatMap fun descriptor =>
    geometry descriptor.geometry :: descriptor.symbols.toList.map symbols
  | geometry _ => []
  | symbols _ => ((readIncludes source).toOption.getD []).map symbols

end Need
end KeyLayout.Load
