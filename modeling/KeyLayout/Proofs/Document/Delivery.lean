import KeyLayout.Document.Session
import KeyLayout.Proofs.Markup.Cuts

/-! What a consumer makes of the events of a document, however its bytes arrive. -/
namespace KeyLayout.Document
open Markup

variable {σ : Type}

theorem deliver_append (consume : Consumer σ) (s : σ) (first last : List Event) :
    deliver consume s (first ++ last) =
      match deliver consume s first with
      | (s, none) => deliver consume s last
      | refused => refused := by
  induction first generalizing s with
  | nil => rfl
  | cons event first ih =>
    simp only [List.cons_append, deliver]
    cases hc : consume s event with
    | mk s' refusal =>
      cases refusal with
      | none => exact ih s'
      | some e => rfl

theorem deliver_singleton (consumer : Consumer σ) (s : σ) (event : Event) :
    deliver consumer s [event] = consumer s event := by
  rw [deliver]
  cases consumer s event with
  | mk s' refusal => cases refusal <;> rfl

theorem deliver_cons_taken {consume : Consumer σ} {s s' : σ} {event : Event} {events : List Event} :
    deliver consume s (event :: events) = (s', none) ↔
      ∃ next, consume s event = (next, none) ∧ deliver consume next events = (s', none) := by
  cases hc : consume s event with
  | mk next refusal => cases refusal <;> simp [deliver, hc]

theorem deliver_refused {consume : Consumer σ} {s s' : σ} {before : List Event}
    {event : Event} {e : Error}
    (hbefore : deliver consume s before = (s', none)) (hevent : (consume s' event).2 = some e)
    (after : List Event) : (deliver consume s (before ++ event :: after)).2 = some e := by
  rw [deliver_append, hbefore]
  simp only [deliver]
  cases hc : consume s' event with
  | mk next refusal =>
    rw [hc] at hevent
    simp [show refusal = some e from hevent]

/-- Events that are refused are taken up to the first one that the consumer refuses. -/
theorem deliver_eq_refused {consume : Consumer σ} {s : σ} {events : List Event} {e : Error} :
    (deliver consume s events).2 = some e ↔
      ∃ before event after s', events = before ++ event :: after ∧
      deliver consume s before = (s', none) ∧ (consume s' event).2 = some e := by
  constructor
  · intro h
    induction events generalizing s with
    | nil => simp [deliver] at h
    | cons first events ih =>
      cases hfirst : consume s first with
      | mk next refusal =>
        cases refusal with
        | some cause =>
          have hcause : cause = e := by simpa [deliver, hfirst] using h
          exact ⟨[], first, events, s, rfl, rfl, by rw [hfirst, hcause]⟩
        | none =>
          have hmore : (deliver consume next events).2 = some e := by
            simpa [deliver, hfirst] using h
          obtain ⟨before, event, after, s', hsplit, hbefore, hevent⟩ := ih hmore
          refine ⟨first :: before, event, after, s', by rw [hsplit, List.cons_append], ?_, hevent⟩
          exact deliver_cons_taken.2 ⟨next, hfirst, hbefore⟩
  · rintro ⟨before, event, after, s', rfl, hbefore, hevent⟩
    exact deliver_refused hbefore hevent after

/-- Two consumers come to the end of the same events, or there is a first event
that one of them refuses. -/
theorem deliver_both {τ : Type} (one : Consumer σ) (other : Consumer τ) (s : σ) (t : τ)
    (events : List Event) :
    (∃ s' t', deliver one s events = (s', none) ∧ deliver other t events = (t', none)) ∨
      ∃ before event after s' t', events = before ++ event :: after ∧
        deliver one s before = (s', none) ∧ deliver other t before = (t', none) ∧
        ((one s' event).2 ≠ none ∨ (other t' event).2 ≠ none) := by
  induction events generalizing s t with
  | nil => exact .inl ⟨s, t, rfl, rfl⟩
  | cons event events ih =>
    by_cases hrefused : (one s event).2 ≠ none ∨ (other t event).2 ≠ none
    · exact .inr ⟨[], event, events, s, t, rfl, rfl, rfl, hrefused⟩
    · have htaken : (one s event).2 = none ∧ (other t event).2 = none := by simpa using hrefused
      have hone : one s event = ((one s event).1, none) := Prod.ext rfl htaken.1
      have hother : other t event = ((other t event).1, none) := Prod.ext rfl htaken.2
      rcases ih (one s event).1 (other t event).1 with
        ⟨s', t', hs, ht⟩ | ⟨before, later, after, s', t', hsplit, hs, ht, hlater⟩
      · refine .inl ⟨s', t', ?_, ?_⟩
        · rw [deliver, hone]
          exact hs
        · rw [deliver, hother]
          exact ht
      · refine .inr ⟨event :: before, later, after, s', t', by rw [hsplit, List.cons_append],
          ?_, ?_, hlater⟩
        · rw [deliver, hone]
          exact hs
        · rw [deliver, hother]
          exact ht

theorem deliver_append_taken {consume : Consumer σ} {s s' : σ} {first last : List Event} :
    deliver consume s (first ++ last) = (s', none) ↔
      ∃ mid, deliver consume s first = (mid, none) ∧ deliver consume mid last = (s', none) := by
  rw [deliver_append]
  cases deliver consume s first with
  | mk mid refusal => cases refusal <;> simp

/-- A consumer that refuses nothing is told all events. -/
theorem deliver_of_accepting {consume : Consumer σ}
    (h : ∀ s event, (consume s event).2 = none) (s : σ) (events : List Event) :
    deliver consume s events = (events.foldl (fun s event => (consume s event).1) s, none) := by
  induction events generalizing s with
  | nil => rfl
  | cons event events ih =>
    have hevent : consume s event = ((consume s event).1, none) := Prod.ext rfl (h s event)
    rw [deliver, hevent]
    exact ih _

/-- What every event keeps, be it taken or refused. -/
theorem deliver_keeps {consume : Consumer σ} {P : σ → Prop}
    (hstep : ∀ {s} event, P s → P (consume s event).1) {s : σ}
    (hs : P s) (events : List Event) : P (deliver consume s events).1 := by
  induction events generalizing s with
  | nil => exact hs
  | cons event events ih =>
    have hnext := hstep event hs
    rw [deliver]
    cases hevent : consume s event with
    | mk next refusal =>
      rw [hevent] at hnext
      cases refusal with
      | none => exact ih hnext
      | some e => exact hnext

/-- What holds of the events delivered so far, if each event that is taken keeps it. -/
theorem deliver_invariant {consume : Consumer σ} {P : List Event → σ → Prop}
    (hstep : ∀ {seen s event s'}, P seen s → consume s event = (s', none) → P (seen ++ [event]) s')
    (seen : List Event) {events : List Event} {s s' : σ} (hs : P seen s)
    (h : deliver consume s events = (s', none)) : P (seen ++ events) s' := by
  induction events generalizing seen s with
  | nil =>
    obtain rfl : s = s' := by simpa [deliver] using h
    simpa using hs
  | cons event events ih =>
    obtain ⟨next, hnext, h⟩ := deliver_cons_taken.1 h
    simpa using ih (seen ++ [event]) (hstep hs hnext) h

/-- Events are taken one behind the other if each is good, where states that are reached refuse just
those that are not. -/
theorem deliver_taken_iff {consume : Consumer σ} {P : σ → Prop} {Good : Event → Prop}
    (hkeeps : ∀ {s event s'}, P s → consume s event = (s', none) → P s')
    (hgood : ∀ {s event}, P s → ((consume s event).2 = none ↔ Good event)) {s : σ} (hs : P s)
    (events : List Event) : (deliver consume s events).2 = none ↔ ∀ event ∈ events, Good event := by
  induction events generalizing s with
  | nil => simp [deliver]
  | cons event events ih =>
    have hevent : (consume s event).2 = none ↔ Good event := hgood hs
    rw [List.forall_mem_cons, deliver]
    cases hc : consume s event with
    | mk next refusal =>
      rw [hc] at hevent
      cases refusal with
      | none => simpa [hevent.1 rfl] using ih (hkeeps hs hc)
      | some e => simp [← hevent]

abbrev Telling := List Event × Option Error

/-- A consumer's state behind the events, and the first error, its own or that of the reading. -/
def hear (consume : Consumer σ) (s : σ) (telling : Telling) : σ × Option Error :=
  match deliver consume s telling.1 with
  | (s, none) => (s, telling.2)
  | refused => refused

theorem hear_append (consume : Consumer σ) (s : σ) (events : List Event) (telling : Telling) :
    hear consume s (events ++ telling.1, telling.2) =
      match deliver consume s events with
      | (s, none) => hear consume s telling
      | refused => refused := by
  simp only [hear, deliver_append]
  cases deliver consume s events with
  | mk s' refusal => cases refusal <;> rfl

/-- A refusal comes before the error of the reading. -/
theorem hear_snd (consume : Consumer σ) (s : σ) (telling : Telling) :
    (hear consume s telling).2 = ((deliver consume s telling.1).2).or telling.2 := by
  unfold hear
  cases deliver consume s telling.1 with
  | mk s' refusal => cases refusal <;> rfl

theorem deliver_of_hear {consume : Consumer σ} {s s' : σ} {telling : Telling}
    (h : hear consume s telling = (s', none)) : deliver consume s telling.1 = (s', none) := by
  unfold hear at h
  split at h
  next heq => simp_all
  next => exact h

def telling (b : Batch) : Telling :=
  (b.events, match b.outcome with
    | .ok _ => none
    | .error failure => some (.markup failure))

theorem telling_andThen (b : Batch) (next : Reader → Batch) :
    telling (b.andThen next) =
      match b.outcome with
      | .ok r => (b.events ++ (telling (next r)).1, (telling (next r)).2)
      | .error failure => (b.events, some (.markup failure)) := by
  obtain ⟨events, outcome⟩ := b
  cases outcome <;> rfl

namespace Session
variable (consume : Consumer σ) (r : Reader) (s : σ)

theorem finish_eq_hear :
    finish consume { reader := r, state := s } = hear consume s (telling r.finish) := by
  simp only [finish, hear, telling]
  cases deliver consume s r.finish.events with
  | mk s' refusal =>
    cases refusal with
    | some e => rfl
    | none => cases r.finish.outcome <;> rfl

theorem feed_eq (bytes : Bytes) :
    feed consume { reader := r, state := s } bytes =
      match deliver consume s (r.feed bytes).events, (r.feed bytes).outcome with
      | (s', none), .ok r' => ({ reader := r', state := s' }, none)
      | (s', none), .error failure =>
        ({ reader := r, failed := true, state := s' }, some (.markup failure))
      | (s', some e), _ => ({ reader := r, failed := true, state := s' }, some e) := by
  simp only [feed]
  cases deliver consume s (r.feed bytes).events with
  | mk s' refusal =>
    cases refusal with
    | some e => rfl
    | none => cases (r.feed bytes).outcome <;> rfl

/-- Feeds the pieces of a document in order, stops at the first failure,
and else ends the document. -/
def readPieces (consume : Consumer σ) (s : Session σ) : List Bytes → σ × Option Error
  | [] => s.finish consume
  | piece :: more =>
    match s.feed consume piece with
    | (s, none) => readPieces consume s more
    | (s, some e) => (s.state, some e)

theorem readPieces_eq_hear (pieces : List Bytes) :
    readPieces consume { reader := r, state := s } pieces =
      hear consume s (telling (r.readPieces pieces)) := by
  induction pieces generalizing r s with
  | nil => exact finish_eq_hear consume r s
  | cons piece more ih =>
    rw [readPieces, feed_eq, Reader.readPieces, telling_andThen]
    cases ho : (r.feed piece).outcome with
    | ok r' =>
      simp only [hear_append]
      cases deliver consume s (r.feed piece).events with
      | mk s' refusal =>
        cases refusal with
        | none => exact ih r' s'
        | some e => rfl
    | error failure =>
      simp only [hear]
      cases deliver consume s (r.feed piece).events with
      | mk s' refusal => cases refusal <;> rfl

end Session

/-- A consumer that also keeps the events it was called with, the one it refuses included. -/
def Consumer.recording (consume : Consumer σ) : Consumer (σ × List Event) := fun (s, calls) event =>
  (((consume s event).1, calls ++ [event]), (consume s event).2)

theorem deliver_recording (consume : Consumer σ) (s : σ) (calls events : List Event) :
    ((deliver consume.recording (s, calls) events).1.1,
      (deliver consume.recording (s, calls) events).2) =
      deliver consume s events := by
  induction events generalizing s calls with
  | nil => rfl
  | cons event events ih =>
    simp only [deliver, Consumer.recording]
    cases consume s event with
    | mk s' refusal =>
      cases refusal with
      | none => exact ih s' (calls ++ [event])
      | some e => rfl

theorem hear_recording (consume : Consumer σ) (s : σ) (calls : List Event) (telling : Telling) :
    ((hear consume.recording (s, calls) telling).1.1,
      (hear consume.recording (s, calls) telling).2) =
      hear consume s telling := by
  have hd := deliver_recording consume s calls telling.1
  simp only [hear, ← hd]
  cases deliver consume.recording (s, calls) telling.1 with
  | mk s' refusal => cases refusal <;> rfl

/-- However a document is cut, a consumer gets the same calls and comes to the same state, and
reading ends with the same success or the same first error. -/
theorem cuts_invisible (consume : Consumer σ) (state : σ) (pieces : List Bytes) :
    Session.readPieces consume { state } pieces = Session.readPieces consume { state }
    [pieces.flatten] ∧
      Session.readPieces consume.recording { state := (state, []) } pieces =
        Session.readPieces consume.recording { state := (state, []) } [pieces.flatten] ∧
      ((Session.readPieces consume.recording { state := (state, []) } pieces).1.1,
        (Session.readPieces consume.recording { state := (state, []) } pieces).2) =
        Session.readPieces consume { state } pieces := by
  have hp : ({} : Reader).readPieces pieces = ({} : Reader).readPieces [pieces.flatten] :=
    (Reader.waits_start.readPieces_flatten pieces).trans (Reader.readPieces_singleton _ _).symm
  refine ⟨?_, ?_, ?_⟩
  · rw [Session.readPieces_eq_hear, hp, ← Session.readPieces_eq_hear]
  · rw [Session.readPieces_eq_hear, hp, ← Session.readPieces_eq_hear]
  · rw [Session.readPieces_eq_hear, Session.readPieces_eq_hear, hear_recording]

def readSource (r : Reader) : Source → Telling
  | [] => telling r.finish
  | .interrupted :: more => readSource r more
  | .failed reason :: _ => ([], some (.unreadable reason))
  | .bytes [] :: _ => telling r.finish
  | .bytes (b :: bytes) :: more =>
    match (r.feed (b :: bytes)).outcome with
    | .ok r' => ((r.feed (b :: bytes)).events ++ (readSource r' more).1, (readSource r' more).2)
    | .error failure => ((r.feed (b :: bytes)).events, some (.markup failure))

theorem Session.read_eq_hear (consume : Consumer σ) (r : Reader) (s : σ) (source : Source) :
    Session.read consume { reader := r, state := s } source =
      hear consume s (readSource r source) := by
  induction source generalizing r s with
  | nil => exact finish_eq_hear consume r s
  | cons read more ih =>
    match read with
    | .interrupted => exact ih r s
    | .failed reason => rfl
    | .bytes [] => exact finish_eq_hear consume r s
    | .bytes (b :: bytes) =>
      rw [Session.read, feed_eq, readSource]
      cases ho : (r.feed (b :: bytes)).outcome with
      | ok r' =>
        simp only [hear_append]
        cases deliver consume s (r.feed (b :: bytes)).events with
        | mk s' refusal =>
          cases refusal with
          | none => exact ih r' s'
          | some e => rfl
      | error failure =>
        simp only [hear]
        cases deliver consume s (r.feed (b :: bytes)).events with
        | mk s' refusal => cases refusal <;> rfl

/-- The pieces that a source gives up to its end, and the reason if it ends in a failure. -/
def Source.pieces : Source → List Bytes × Option String
  | [] => ([], none)
  | .interrupted :: more => Source.pieces more
  | .failed reason :: _ => ([], some reason)
  | .bytes [] :: _ => ([], none)
  | .bytes (b :: bytes) :: more => ((b :: bytes) :: (Source.pieces more).1, (Source.pieces more).2)

/-- A source that comes to its end tells what its pieces tell. -/
theorem readSource_of_pieces {source : Source} (h : source.pieces.2 = none) (r : Reader) :
    readSource r source = telling (r.readPieces source.pieces.1) := by
  induction source generalizing r with
  | nil => rfl
  | cons read more ih =>
    match read with
    | .interrupted => exact ih h r
    | .failed reason => simp [Source.pieces] at h
    | .bytes [] => rfl
    | .bytes (b :: bytes) =>
      rw [readSource, Source.pieces, Reader.readPieces, telling_andThen]
      cases (r.feed (b :: bytes)).outcome with
      | error failure => rfl
      | ok r' => simp only [ih h r']

theorem consume_of_pieces {source : Source} (h : source.pieces.2 = none)
    (consumer : Consumer σ) (s : σ) :
    consume consumer s source = Session.readPieces consumer { state := s } source.pieces.1 := by
  rw [consume, Session.read_eq_hear, readSource_of_pieces h, Session.readPieces_eq_hear]

theorem pieces_of_readSource {source : Source} {r : Reader} (h : (readSource r source).2 = none) :
    source.pieces.2 = none := by
  induction source generalizing r with
  | nil => rfl
  | cons read more ih =>
    match read with
    | .interrupted => exact ih h
    | .failed reason => simp [readSource] at h
    | .bytes [] => rfl
    | .bytes (b :: bytes) =>
      rw [readSource] at h
      cases ho : (r.feed (b :: bytes)).outcome with
      | error failure => simp [ho] at h
      | ok r' => exact ih (by simpa [ho] using h)

def Source.events (source : Source) : List Event := (readSource {} source).1

/-- Reading itself fails where the source does, or where its bytes are no markup. -/
theorem error_of_readSource {r : Reader} {source : Source} {e : Error}
    (h : (readSource r source).2 = some e) :
    (∃ reason, e = .unreadable reason) ∨ ∃ failure, e = .markup failure := by
  have hends {b : Batch} (h : (telling b).2 = some e) : ∃ failure, e = .markup failure := by
    cases ho : b.outcome with
    | ok last => simp [telling, ho] at h
    | error failure => exact ⟨failure, by simpa [telling, ho, eq_comm] using h⟩
  induction source generalizing r with
  | nil => exact .inr (hends h)
  | cons read more ih =>
    match read with
    | .interrupted => exact ih h
    | .failed reason => exact .inl ⟨reason, by simpa [readSource, eq_comm] using h⟩
    | .bytes [] => exact .inr (hends h)
    | .bytes (b :: bytes) =>
      rw [readSource] at h
      cases ho : (r.feed (b :: bytes)).outcome with
      | ok last => exact ih (by simpa [ho] using h)
      | error failure => exact .inr ⟨failure, by simpa [ho, eq_comm] using h⟩

theorem consume_fst (consumer : Consumer σ) (s : σ) (source : Source) :
    (consume consumer s source).1 = (deliver consumer s source.events).1 := by
  rw [consume, Session.read_eq_hear, hear, Source.events]
  cases deliver consumer s (readSource {} source).1 with
  | mk s' refusal => cases refusal <;> rfl

/-- A source comes to its own end for a consumer that takes all its
events, and else to the refusal. -/
theorem consume_eq (consumer : Consumer σ) (s : σ) (source : Source) :
    (consume consumer s source).2 =
      ((deliver consumer s source.events).2).or (readSource {} source).2 := by
  rw [consume, Session.read_eq_hear, hear_snd, Source.events]

def outcome {α : Type} (result : σ → α) : σ × Option Error → Except Error α
  | (s, none) => .ok (result s)
  | (_, some e) => .error e

section outcome
variable {α : Type} {result : σ → α} {r : σ × Option Error} {e : Error}

theorem outcome_eq_error : outcome result r = .error e ↔ r.2 = some e := by
  obtain ⟨s, refusal⟩ := r
  cases refusal <;> simp [outcome]

theorem outcome_eq_ok {a : α} : outcome result r = .ok a ↔ r.2 = none ∧ result r.1 = a := by
  obtain ⟨s, refusal⟩ := r
  cases refusal <;> simp [outcome]

theorem exists_outcome : (∃ a, outcome result r = .ok a) ↔ r.2 = none := by
  obtain ⟨s, refusal⟩ := r
  cases refusal <;> simp [outcome]

end outcome

theorem deliver_of_consume {consumer : Consumer σ} {s s' : σ} {source : Source}
    (h : consume consumer s source = (s', none)) :
    deliver consumer s source.events = (s', none) := by
  rw [consume, Session.read_eq_hear] at h
  exact deliver_of_hear h

/-- What every event that is taken keeps holds behind a document that is read to its end. -/
theorem consume_invariant {consumer : Consumer σ} {P : List Event → σ → Prop}
    (hstep : ∀ {seen s event s'}, P seen s → consumer s event = (s', none) → P (seen ++ [event]) s')
    {s s' : σ} {source : Source} (hs : P [] s) (h : consume consumer s source = (s', none)) :
    P source.events s' :=
  deliver_invariant hstep [] hs (deliver_of_consume h)

end KeyLayout.Document
