import KeyLayout.Markup.Reference
import KeyLayout.Markup.Token

/-! What can be wrong with the markup of a document. -/
namespace KeyLayout.Markup

inductive Fault where
  | malformed (construct : Option Construct)
  | unterminated
  | illFormedText
  | reference (fault : ReferenceFault)
  | repeatedAttribute (name element : String)
  | afterRoot (element : String)
  | textOutsideRoot
  | verbatimOutsideRoot
  | mismatchedEnd (element expected : String)
  | unexpectedEnd (element : String)
  | unclosed (element : String)
  | noRoot
  /-- The reader was used again after a failure. -/
  | alreadyFailed
  /-- A fault in the words of whoever found it. -/
  | described (message : String)
  deriving DecidableEq, Repr

def Construct.label : Construct → String
  | .start => "start tag"
  | .stop => "end tag"
  | .comment => "comment"
  | .verbatim => "CDATA section"
  | .typeDeclaration => "document type declaration"
  | .instruction => "processing instruction"

def Fault.message : Fault → String
  | .malformed none => "malformed markup"
  | .malformed (some construct) => "malformed " ++ construct.label
  | .unterminated => "unterminated markup at end of input"
  | .illFormedText => "invalid UTF-8"
  | .reference fault => fault.message
  | .repeatedAttribute name element => s!"duplicate attribute `{name}` on `{element}`"
  | .afterRoot element => s!"element `{element}` after the root element"
  | .textOutsideRoot => "text outside the root element"
  | .verbatimOutsideRoot => "CDATA outside the root element"
  | .mismatchedEnd element expected =>
    s!"mismatched end tag `</{element}>`, expected `</{expected}>`"
  | .unexpectedEnd element => s!"unexpected end tag `</{element}>`"
  | .unclosed element => s!"unclosed element `{element}`"
  | .noRoot => "document has no root element"
  | .alreadyFailed => "parser already failed"
  | .described message => message

/-- A fault and the offset in the document at which it is reported. -/
structure Failure where
  offset : Nat
  fault : Fault
  deriving DecidableEq, Repr

end KeyLayout.Markup
