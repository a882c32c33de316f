/-! Names of documents: paths of files, and names of bundled documents. -/
namespace KeyLayout.Resource

def scheme : List Char := "resource://".toList

inductive Name where
  | path (path : String)
  /-- The part of a name behind `resource://`. -/
  | bundled (name : String)
  deriving DecidableEq, Repr

/-- The keyboards that are always there. -/
def bundledRoot : String := "resource:///keyloom/keyboards/"

/-- A path below another one; one that begins at the root of the file system stands for itself. -/
def joinPath (base relative : String) : String :=
  if relative.toList.head? = some '/' then relative
  else if base.isEmpty || base.toList.getLast? = some '/' then base ++ relative
  else base ++ "/" ++ relative

namespace Name

/-- A name with the scheme is that of a bundled document, any other a path. -/
def ofString (name : String) : Name :=
  if scheme.isPrefixOf name.toList then .bundled (String.ofList (name.toList.drop scheme.length))
  else .path name

def text : Name → String
  | path p => p
  | bundled n => String.ofList scheme ++ n

def join (name : Name) (relative : String) : Name :=
  match name with
  | path p => .path (joinPath p relative)
  | bundled n => if n.toList.getLast? = some '/' then .bundled (n ++ relative)
      else .bundled (n ++ "/" ++ relative)

def catalog (root : Name) : Name := root.join "keyboards.xml"
def geometry (root : Name) (name : String) : Name := root.join ("geometry/" ++ name ++ ".xml")
def symbols (root : Name) (name : String) : Name := root.join ("symbols/" ++ name ++ ".xml")

end Name

/-- The first of two settings that is there and not empty, else the bundled keyboards. -/
def chooseRoot (configured environment : Option String) : Name :=
  let choice := (configured.filter (!·.isEmpty)).or (environment.filter (!·.isEmpty))
  .ofString (choice.getD bundledRoot)

end KeyLayout.Resource
