import KeyLayout.Markup.Reader
import KeyLayout.Document.Error

/-! Handing the events of a document to a consumer, while its bytes arrive. -/
namespace KeyLayout.Document
open Markup

/-- A machine that takes events one by one and stops the reading at one it refuses. -/
abbrev Consumer (σ : Type) := σ → Event → σ × Option Error

variable {σ : Type}

/-- A consumer whose state does not change at the event it refuses. -/
def Consumer.ofExcept (step : σ → Event → Except Error σ) : Consumer σ := fun s event =>
  match step s event with
  | .ok s => (s, none)
  | .error e => (s, some e)

/-- Hands over the events up to the first that is refused. -/
def deliver (consume : Consumer σ) (s : σ) : List Event → σ × Option Error
  | [] => (s, none)
  | event :: events =>
    match consume s event with
    | (s, none) => deliver consume s events
    | refused => refused

/-- A document of which some bytes have arrived. After a failure nothing more is read. -/
structure Session (σ : Type) where
  reader : Reader := {}
  failed : Bool := false
  state : σ

namespace Session

def usedAgain (s : Session σ) : Error := .markup ⟨s.reader.offset, .alreadyFailed⟩

/-- Reads the next bytes. -/
def feed (consume : Consumer σ) (s : Session σ) (bytes : Bytes) : Session σ × Option Error :=
  if s.failed then (s, some s.usedAgain)
  else
    let batch := s.reader.feed bytes
    match deliver consume s.state batch.events with
    | (state, some e) => ({ s with failed := true, state }, some e)
    | (state, none) =>
      match batch.outcome with
      | .ok reader => ({ s with reader, state }, none)
      | .error failure => ({ s with failed := true, state }, some (.markup failure))

/-- Ends the document. -/
def finish (consume : Consumer σ) (s : Session σ) : σ × Option Error :=
  if s.failed then (s.state, some s.usedAgain)
  else
    let batch := s.reader.finish
    match deliver consume s.state batch.events with
    | (state, some e) => (state, some e)
    | (state, none) =>
      match batch.outcome with
      | .ok _ => (state, none)
      | .error failure => (state, some (.markup failure))

end Session

/-- One attempt to read from a source. -/
inductive Read where
  /-- Some bytes; none at the end of the source. -/
  | bytes (bytes : Bytes)
  /-- Nothing was read, and nothing is wrong. -/
  | interrupted
  | failed (reason : String)
  deriving DecidableEq, Repr

/-- The reads that give a document; the source ends behind them. -/
abbrev Source := List Read

def Source.ofBytes (bytes : Bytes) : Source := [.bytes bytes]

/-- Reads a source to its end, or to the first error. -/
def Session.read (consume : Consumer σ) (s : Session σ) : Source → σ × Option Error
  | [] => s.finish consume
  | .interrupted :: more => Session.read consume s more
  | .failed reason :: _ => (s.state, some (.unreadable reason))
  | .bytes [] :: _ => s.finish consume
  | .bytes (b :: bytes) :: more =>
    match s.feed consume (b :: bytes) with
    | (s, none) => Session.read consume s more
    | (s, some e) => (s.state, some e)

def consume (consumer : Consumer σ) (state : σ) (source : Source) : σ × Option Error :=
  Session.read consumer { state } source

end KeyLayout.Document
