import KeyLayout.Proofs.Document.Delivery

/-! How a source gives its bytes does not matter, but for how it ends. -/
namespace KeyLayout.Document
open Markup

variable {σ : Type}

/-- The read neither ends its source nor fails. -/
def Read.Passes : Read → Prop
  | .bytes piece => piece ≠ []
  | .interrupted => True
  | .failed _ => False

def Source.gathered (reads : Source) : Bytes :=
  reads.flatMap fun
    | .bytes piece => piece
    | _ => []

/-- Where a source stops: it runs out, ends with an empty read or breaks off with a failure. -/
inductive Source.StopsBehind (reads : Source) : Source → Prop where
  | exhausted : StopsBehind reads reads
  | ended (rest : Source) : StopsBehind reads (reads ++ .bytes [] :: rest)
  | failed (reason : String) (rest : Source) : StopsBehind reads (reads ++ .failed reason :: rest)

theorem Source.StopsBehind.cons {reads source : Source} (h : Source.StopsBehind reads source)
    (read : Read) : Source.StopsBehind (read :: reads) (read :: source) := by
  cases h with
  | exhausted => exact .exhausted
  | ended rest => exact .ended rest
  | failed reason rest => exact .failed reason rest

theorem Source.exists_stopsBehind (source : Source) :
    ∃ reads : Source, (∀ read ∈ reads, read.Passes) ∧ Source.StopsBehind reads source := by
  induction source with
  | nil => exact ⟨[], by simp, .exhausted⟩
  | cons read more ih =>
    obtain ⟨reads, hpass, hstops⟩ := ih
    match read with
    | .bytes (b :: piece) =>
      exact ⟨.bytes (b :: piece) :: reads, List.forall_mem_cons.2 ⟨List.cons_ne_nil b piece, hpass⟩,
        hstops.cons _⟩
    | .interrupted =>
      exact ⟨.interrupted :: reads, List.forall_mem_cons.2 ⟨trivial, hpass⟩, hstops.cons _⟩
    | .bytes [] => exact ⟨[], by simp, .ended more⟩
    | .failed reason => exact ⟨[], by simp, .failed reason more⟩

def tellThen (b : Batch) (next : Reader → Telling) : Telling :=
  match b.outcome with
  | .ok r => (b.events ++ (next r).1, (next r).2)
  | .error failure => (b.events, some (.markup failure))

theorem tellThen_andThen (b : Batch) (f : Reader → Batch) (next : Reader → Telling) :
    tellThen (b.andThen f) next = tellThen b fun r => tellThen (f r) next := by
  obtain ⟨events, outcome⟩ := b
  cases outcome with
  | error failure => rfl
  | ok r =>
    simp only [Batch.ok_andThen, tellThen]
    cases (f r).outcome with
    | error failure => rfl
    | ok last => simp only [List.append_assoc]

theorem tellThen_congr {b : Batch} {next other : Reader → Telling}
    (h : ∀ r, b.outcome = .ok r → next r = other r) : tellThen b next = tellThen b other := by
  obtain ⟨events, outcome⟩ := b
  cases outcome with
  | error failure => rfl
  | ok r => simp only [tellThen, h r rfl]

/-- Reads that do not end a source tell what their bytes tell when they come at once. -/
theorem readSource_append {r : Reader} (hr : r.Waits) {reads : Source}
    (h : ∀ read ∈ reads, read.Passes) (rest : Source) :
    readSource r (reads ++ rest) = tellThen (r.feed reads.gathered) (readSource · rest) := by
  induction reads generalizing r with
  | nil =>
    rw [Source.gathered, List.flatMap_nil, hr.feed_nil]
    rfl
  | cons read more ih =>
    obtain ⟨hread, hmore⟩ := List.forall_mem_cons.1 h
    match read with
    | .interrupted => exact ih hr hmore
    | .bytes (b :: bytes) =>
      calc readSource r (.bytes (b :: bytes) :: (more ++ rest))
          = tellThen (r.feed (b :: bytes)) (readSource · (more ++ rest)) := rfl
        _ = tellThen (r.feed (b :: bytes)) fun r =>
          tellThen (r.feed (Source.gathered more)) (readSource · rest) :=
            tellThen_congr fun _ hlast => ih (Reader.waits_of_drain hlast) hmore
        _ = tellThen (r.feed (b :: bytes ++ Source.gathered more)) (readSource · rest) := by
            rw [Reader.feed_append, tellThen_andThen]
    | .bytes [] => exact absurd rfl hread
    | .failed reason => exact hread.elim

theorem readSource_filter (r : Reader) (source : Source) :
    readSource r (source.filter (· ≠ .interrupted)) = readSource r source := by
  induction source generalizing r with
  | nil => rfl
  | cons read more ih =>
    match read with
    | .interrupted => exact ih r
    | .failed reason => rfl
    | .bytes [] => rfl
    | .bytes (b :: bytes) =>
      change tellThen (r.feed (b :: bytes)) (readSource · (more.filter (· ≠ .interrupted))) =
        tellThen (r.feed (b :: bytes)) (readSource · more)
      exact tellThen_congr fun last _ => ih last

/-- What follows on reads that do not end the source: the end of the document behind all their
bytes, or, where the source fails, just the bytes and then the failure. -/
structure DeliveredAtOnce (consumer : Consumer σ) (state : σ) (reads : Source) : Prop where
  ended : ∀ rest, consume consumer state (reads ++ .bytes [] :: rest) =
    Session.readPieces consumer { state } [reads.gathered]
  exhausted : consume consumer state reads = Session.readPieces consumer { state } [reads.gathered]
  failed : ∀ reason rest, consume consumer state (reads ++ .failed reason :: rest) =
    match Session.feed consumer { state } reads.gathered with
    | (s, none) => (s.state, some (.unreadable reason))
    | (s, some e) => (s.state, some e)

theorem deliveredAtOnce {reads : Source} (h : ∀ read ∈ reads, read.Passes)
    (consumer : Consumer σ) (state : σ) : DeliveredAtOnce consumer state reads := by
  have htold : ∀ rest, consume consumer state (reads ++ rest) =
      hear consumer state (tellThen (({} : Reader).feed reads.gathered) (readSource · rest)) := by
    intro rest
    rw [consume, Session.read_eq_hear, readSource_append Reader.waits_start h]
  have hpieces : Session.readPieces consumer { state } [reads.gathered] =
      hear consumer state
        (tellThen (({} : Reader).feed reads.gathered) fun r => telling r.finish) := by
    rw [Session.readPieces_eq_hear, Reader.readPieces_singleton, telling_andThen]
    rfl
  refine ⟨fun rest => (htold _).trans hpieces.symm, ?_, ?_⟩
  · have hnil := htold []
    rw [List.append_nil] at hnil
    exact hnil.trans hpieces.symm
  · intro reason rest
    rw [htold, Session.feed_eq]
    unfold tellThen
    cases (({} : Reader).feed reads.gathered).outcome with
    | ok r =>
      simp only [readSource, List.append_nil, hear]
      cases deliver consumer state (({} : Reader).feed reads.gathered).events with
      | mk s refusal => cases refusal <;> rfl
    | error failure =>
      simp only [hear]
      cases deliver consumer state (({} : Reader).feed reads.gathered).events with
      | mk s refusal => cases refusal <;> rfl

/-- Interruptions have no effect, and of the reads before the end only the bytes count: for every
consumer, and for the calls it gets. -/
theorem delivery_invisible (consumer : Consumer σ) (state : σ) (source : Source) :
    consume consumer state (source.filter (· ≠ .interrupted)) = consume consumer state source ∧
    consume consumer.recording (state, []) (source.filter (· ≠ .interrupted)) =
      consume consumer.recording (state, []) source ∧
    ∃ reads : Source, (∀ read ∈ reads, read.Passes) ∧ Source.StopsBehind reads source ∧
      DeliveredAtOnce consumer state reads ∧
      DeliveredAtOnce consumer.recording (state, []) reads := by
  obtain ⟨reads, hpass, hstops⟩ := source.exists_stopsBehind
  refine ⟨?_, ?_, reads, hpass, hstops, deliveredAtOnce hpass _ _, deliveredAtOnce hpass _ _⟩
  · simp only [consume, Session.read_eq_hear, readSource_filter]
  · simp only [consume, Session.read_eq_hear, readSource_filter]

end KeyLayout.Document
