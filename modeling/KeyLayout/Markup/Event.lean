import KeyLayout.Markup.Attributes

/-! What a document says, piece by piece. -/
namespace KeyLayout.Markup

/-- `path` lists the open elements, innermost first; the element that starts
or ends is not among them. -/
inductive Event where
  | start (name : String) (attributes : Attributes) (path : List String)
  | stop (name : String) (path : List String)
  | text (text : String) (path : List String)
  deriving DecidableEq, Repr

end KeyLayout.Markup
