import KeyLayout.Text.Utf8
import KeyLayout.Text.Blank
import KeyLayout.Markup.Fault
import KeyLayout.Markup.Event

/-! Reading a document piece by piece. A token gives its events as soon as it is complete, so the
events depend on the bytes of the document and not on the pieces in which they arrive. -/
namespace KeyLayout.Markup

/-- The elements that are open, innermost first, and whether there has been any element. -/
structure Nesting where
  path : List String := []
  rootSeen : Bool := false
  deriving DecidableEq, Repr

/-- The text of a piece of the token at `offset`. -/
def decodeText (offset : Nat) (raw : Bytes) : Except Failure String :=
  match Utf8.decode raw with
  | .ok text => .ok text
  | .error valid => .error ⟨offset + valid, .illFormedText⟩

def expandText (offset : Nat) (text : String) : Except Failure String :=
  match expand text with
  | .ok text => .ok text
  | .error fault => .error ⟨offset, .reference fault⟩

/-- Reads the attributes of a start tag behind those already read. -/
def readAttributes (offset : Nat) (element : String) (known : Attributes) :
    List (Bytes × Bytes) → Except Failure Attributes
  | [] => .ok known
  | (rawName, rawValue) :: more => do
    let name ← decodeText offset rawName
    let value ← expandText offset (← decodeText offset rawValue)
    match known.insert? name value with
    | some known => readAttributes offset element known more
    | none => .error ⟨offset, .repeatedAttribute name element⟩

/-- What the token at `offset` says, and the nesting behind it. -/
def Nesting.interpret (n : Nesting) (offset : Nat) : Token → Except Failure (List Event × Nesting)
  | .startTag rawName rawAttributes empty => do
    let name ← decodeText offset rawName
    if n.path.isEmpty && n.rootSeen then throw ⟨offset, .afterRoot name⟩
    let attributes ← readAttributes offset name {} rawAttributes
    if empty then
      return ([.start name attributes n.path, .stop name n.path], { n with rootSeen := true })
    else
      return ([.start name attributes n.path], { path := name :: n.path, rootSeen := true })
  | .endTag rawName => do
    let name ← decodeText offset rawName
    match n.path with
    | [] => throw ⟨offset, .unexpectedEnd name⟩
    | top :: path =>
      if top = name then return ([.stop name path], { n with path })
      else throw ⟨offset, .mismatchedEnd name top⟩
  | .text raw => do
    let text ← decodeText offset raw
    if n.path.isEmpty then
      if Text.isBlankText text then return ([], n) else throw ⟨offset, .textOutsideRoot⟩
    else
      let text ← expandText offset text
      return ([.text text n.path], n)
  | .verbatim raw => do
    let text ← decodeText offset raw
    if n.path.isEmpty then throw ⟨offset, .verbatimOutsideRoot⟩
    else return ([.text text n.path], n)
  | .skipped => return ([], n)

/-- A reader between two pieces of the document; `offset` is that of the first pending byte. -/
structure Reader where
  pending : Bytes := []
  offset : Nat := 0
  nesting : Nesting := {}
  deriving DecidableEq, Repr

/-- The events of some bytes, and how reading went on: up to a place, or to a failure. -/
structure Batch where
  events : List Event
  outcome : Except Failure Reader

/-- What is wrong with bytes that hold no token. At the end of the document
they may just be too few. -/
def Supply.fault (s : Supply) (construct : Option Construct) (bytes : Bytes) : Fault :=
  match s with
  | .arriving => .malformed construct
  | .ended => if arriving.scan bytes = .cutOff then .unterminated else .malformed construct

/-- Reads the tokens of the bytes at the reader's offset. Bytes behind the last
complete token stay pending. -/
def Reader.drainAs (s : Supply) (r : Reader) : Batch :=
  if r.pending.isEmpty then ⟨[], .ok r⟩
  else
    match h : s.scan r.pending with
    | .cutOff => ⟨[], .ok r⟩
    | .malformed construct => ⟨[], .error ⟨r.offset, s.fault construct r.pending⟩⟩
    | .token token rest =>
      match r.nesting.interpret r.offset token with
      | .error failure => ⟨[], .error failure⟩
      | .ok (events, nesting) =>
        have := Supply.length_lt_of_scan h
        let batch := Reader.drainAs s
          { pending := rest, offset := r.offset + (r.pending.length - rest.length), nesting }
        { batch with events := events ++ batch.events }
termination_by r.pending.length

/-- Reads the tokens of bytes that more bytes may follow. -/
def Reader.drain (r : Reader) : Batch := r.drainAs .arriving

/-- Reads the tokens of the last bytes. -/
def Reader.drainLast (r : Reader) : Batch := r.drainAs .ended

/-- Reads the next bytes of the document. -/
def Reader.feed (r : Reader) (bytes : Bytes) : Batch :=
  { r with pending := r.pending ++ bytes }.drain

/-- The document ends here: all elements must be closed, and there must have been one. -/
def Reader.finish (r : Reader) : Batch :=
  let batch := r.drainLast
  match batch.outcome with
  | .error _ => batch
  | .ok last =>
    match last.nesting.path with
    | name :: _ => { batch with outcome := .error ⟨last.offset, .unclosed name⟩ }
    | [] =>
      if last.nesting.rootSeen then batch
      else { batch with outcome := .error ⟨last.offset, .noRoot⟩ }

end KeyLayout.Markup
