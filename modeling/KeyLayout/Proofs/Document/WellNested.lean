import KeyLayout.Proofs.Document.Delivery
import KeyLayout.Proofs.Markup.Nesting

/-! What a consumer is told of a document is well nested, and a document
that is accepted is one tree. -/
namespace KeyLayout.Document
open Markup

variable {σ : Type}

/-- A consumer is called with the events up to the first that it refuses. -/
theorem calls_of_deliver (consume : Consumer σ) (s : σ) (calls events : List Event) :
    ∃ taken, (deliver consume.recording (s, calls) events).1.2 = calls ++ taken ∧ taken <+: events ∧
      ((deliver consume.recording (s, calls) events).2 = none → taken = events) := by
  induction events generalizing s calls with
  | nil => exact ⟨[], by simp [deliver], List.prefix_rfl, fun _ => rfl⟩
  | cons event events ih =>
    cases hc : consume s event with
    | mk s' refusal =>
      cases refusal with
      | some e =>
        refine ⟨[event], ?_, by simp, fun h => ?_⟩
        · simp [deliver, Consumer.recording, hc]
        · simp [deliver, Consumer.recording, hc] at h
      | none =>
        obtain ⟨taken, hcalls, hprefix, hall⟩ := ih s' (calls ++ [event])
        have hd : deliver consume.recording (s, calls) (event :: events) =
            deliver consume.recording (s', calls ++ [event]) events := by
          simp [deliver, Consumer.recording, hc]
        rw [hd]
        refine ⟨event :: taken, by simpa using hcalls, by simpa using hprefix, fun h => ?_⟩
        rw [hall h]

namespace Session

/-- The consumer's calls so far are well nested, and unless reading has failed they are those of the
reader's nesting. -/
structure Nested (s : Session (σ × List Event)) : Prop where
  nested : WellNested s.state.2
  behind : s.failed = false → s.reader.nesting.Behind s.state.2

theorem nested_start (state : σ) : Nested { state := (state, []) } :=
  ⟨wellNested_nil, fun _ => Nesting.behind_nil⟩

variable {consume : Consumer σ} {s : Session (σ × List Event)}

theorem feed_of_failed (hf : s.failed = true) (bytes : Bytes) :
    s.feed consume.recording bytes = (s, some s.usedAgain) := by
  simp [feed, hf]

theorem finish_of_failed (hf : s.failed = true) :
    s.finish consume.recording = (s.state, some s.usedAgain) := by
  simp [finish, hf]

theorem Nested.feed (h : s.Nested) (bytes : Bytes) : (s.feed consume.recording bytes).1.Nested := by
  cases hf : s.failed with
  | true => rwa [feed_of_failed hf]
  | false =>
    have hb := Reader.nests_feed (h.behind hf) bytes
    obtain ⟨taken, hcalls, hprefix, hall⟩ :=
      calls_of_deliver consume s.state.1 s.state.2 (s.reader.feed bytes).events
    have hnested : WellNested (s.state.2 ++ taken) :=
      hb.nested.of_prefix (List.prefix_append_right_inj _ |>.2 hprefix)
    simp only [Session.feed, hf]
    cases hd : deliver consume.recording s.state (s.reader.feed bytes).events with
    | mk state refusal =>
      simp only [hd] at hcalls hall
      cases refusal with
      | some e => exact ⟨hcalls ▸ hnested, fun h => by simp at h⟩
      | none =>
        cases ho : (s.reader.feed bytes).outcome with
        | error failure => exact ⟨hcalls ▸ hnested, fun h => by simp at h⟩
        | ok reader =>
          have hlast := hb.behind reader ho
          rw [← hall rfl, ← hcalls] at hlast
          exact ⟨hlast.nested, fun _ => hlast⟩

theorem failed_feed {bytes : Bytes} : (s.feed consume.recording bytes).1.failed = true ↔
    (s.feed consume.recording bytes).2 ≠ none := by
  unfold feed
  cases hf : s.failed with
  | true => simp [hf]
  | false =>
    simp only
    cases deliver consume.recording s.state (s.reader.feed bytes).events with
    | mk state refusal =>
      cases refusal with
      | some e => simp
      | none => cases (s.reader.feed bytes).outcome <;> simp

/-- When the document ends the calls are well nested, and whole if nothing went wrong. -/
theorem Nested.finish (h : s.Nested) : WellNested (s.finish consume.recording).1.2 ∧
    ((s.finish consume.recording).2 = none → Whole (s.finish consume.recording).1.2) := by
  cases hf : s.failed with
  | true =>
    rw [finish_of_failed hf]
    exact ⟨h.nested, fun hnone => by simp at hnone⟩
  | false =>
    obtain ⟨hb, hwhole⟩ := Reader.nests_finish (h.behind hf)
    obtain ⟨taken, hcalls, hprefix, hall⟩ :=
      calls_of_deliver consume s.state.1 s.state.2 s.reader.finish.events
    have hnested : WellNested (s.state.2 ++ taken) :=
      hb.of_prefix (List.prefix_append_right_inj _ |>.2 hprefix)
    simp only [Session.finish, hf]
    cases hd : deliver consume.recording s.state s.reader.finish.events with
    | mk state refusal =>
      simp only [hd] at hcalls hall
      cases refusal with
      | some e => exact ⟨hcalls ▸ hnested, fun hnone => by simp at hnone⟩
      | none =>
        cases ho : s.reader.finish.outcome with
        | error failure => exact ⟨hcalls ▸ hnested, fun hnone => by simp at hnone⟩
        | ok last =>
          have := hwhole last ho
          rw [← hall rfl, ← hcalls] at this
          exact ⟨this.nested, fun _ => this⟩

/-- Feeds pieces one after the other, also behind a failure, and tells what comes of each. -/
def feedAll (consume : Consumer σ) (s : Session σ) : List Bytes → Session σ × List (Option Error)
  | [] => (s, [])
  | piece :: more =>
    let fed := s.feed consume piece
    let (s, errors) := feedAll consume fed.1 more
    (s, fed.2 :: errors)

theorem Nested.feedAll (h : s.Nested) (pieces : List Bytes) :
    (s.feedAll consume.recording pieces).1.Nested := by
  induction pieces generalizing s with
  | nil => exact h
  | cons piece more ih => exact ih (h.feed piece)

theorem feedAll_of_failed (hf : s.failed = true) (pieces : List Bytes) :
    s.feedAll consume.recording pieces = (s, pieces.map fun _ => some s.usedAgain) := by
  induction pieces with
  | nil => rfl
  | cons piece more ih => simp [Session.feedAll, feed_of_failed hf, ih]

theorem failed_of_feedAll {pieces : List Bytes}
    (h : ∃ error? ∈ (s.feedAll consume.recording pieces).2, error? ≠ none) :
    (s.feedAll consume.recording pieces).1.failed = true := by
  induction pieces generalizing s with
  | nil => simp [Session.feedAll] at h
  | cons piece more ih =>
    cases hf : (s.feed consume.recording piece).1.failed with
    | true =>
      rw [Session.feedAll, feedAll_of_failed hf more]
      exact hf
    | false =>
      have hnone : (s.feed consume.recording piece).2 = none := by
        by_contra hsome
        simp [failed_feed.2 hsome] at hf
      refine ih ?_
      obtain ⟨error?, hmem, hne⟩ := h
      rcases List.mem_cons.1 hmem with rfl | hmem
      · exact absurd hnone hne
      · exact ⟨error?, hmem, hne⟩

end Session

/-- Whatever is fed, in whatever pieces, and whatever the consumer does: its calls are well nested,
so that they begin with the root and none follows when the root has ended. They are those of exactly
one tree if nothing fails, and else a beginning of such calls; behind a failed feed everything fails
and nothing more is told. -/
theorem calls_well_nested (consume : Consumer σ) (state : σ) (pieces : List Bytes) :
    let fed := Session.feedAll consume.recording { state := (state, []) } pieces
    let ended := fed.1.finish consume.recording
    let calls := ended.1.2
    WellNested calls ∧
    (∀ event ∈ calls.head?, ∃ name attributes, event = .start name attributes []) ∧
    (∀ before event after, calls = before ++ event :: after → before ≠ [] →
      openElements before ≠ []) ∧
    ((∀ error? ∈ fed.2, error? = none) → ended.2 = none → ∃! tree : Tree, calls = tree.events) ∧
    (∃ tree : Tree, calls <+: tree.events) ∧
    ((∃ error? ∈ fed.2, error? ≠ none) →
      (∀ more, (fed.1.feedAll consume.recording more).1 = fed.1 ∧
        ∀ error? ∈ (fed.1.feedAll consume.recording more).2, error? ≠ none) ∧
      ended.2 ≠ none ∧ calls = fed.1.state.2) := by
  intro fed ended calls
  have hfed : fed.1.Nested := (Session.nested_start state).feedAll pieces
  obtain ⟨hnested, hwhole⟩ : WellNested calls ∧ (ended.2 = none → Whole calls) := hfed.finish
  refine ⟨hnested, ?_, ?_, fun _ hnone => (hwhole hnone).existsUnique_tree,
    hnested.exists_prefix, ?_⟩
  · intro event hevent
    obtain ⟨after, hcalls⟩ := List.head?_eq_some_iff.1 hevent
    have hfits := hnested [] event after hcalls
    cases event with
    | start name attributes path =>
      obtain rfl : path = [] := hfits.1
      exact ⟨name, attributes, rfl⟩
    | stop name path => simp [Fits] at hfits
    | text t path => exact absurd hfits.1 hfits.2
  · intro before event after hcalls hne hopen
    have hfits := hnested before event after hcalls
    cases event with
    | start name attributes path => exact hne (hfits.2.1 (hfits.1.trans hopen))
    | stop name path => simp [Fits, hopen] at hfits
    | text t path => exact hfits.2 (hfits.1.trans hopen)
  · intro herror
    have hfailed : fed.1.failed = true := Session.failed_of_feedAll herror
    have hended : ended = (fed.1.state, some fed.1.usedAgain) := Session.finish_of_failed hfailed
    refine ⟨fun more => ?_, by simp [hended], by simp [calls, hended]⟩
    rw [Session.feedAll_of_failed hfailed]
    simp

def refusingEnd (name : String) : Consumer Unit := fun s event =>
  match event with
  | .stop other _ => (s, if other = name then some .emptyInclude else none)
  | _ => (s, none)

/-- A document cut inside its tags, read to its end, and up to the end of an
empty element that is refused. -/
theorem cutTags_well_nested :
    let pieces := [ascii "<a><b", ascii "/>x</", ascii "a>"]
    (∃! tree : Tree,
      ((Session.feedAll (refusingEnd "c").recording { state := ((), []) } pieces).1.finish
        (refusingEnd "c").recording).1.2 = tree.events) ∧
    (Session.feedAll (refusingEnd "b").recording { state := ((), []) } pieces).1.state.2 =
      [.start "a" {} [], .start "b" {} ["a"], .stop "b" ["a"]] ∧
    ((Session.feedAll (refusingEnd "b").recording { state := ((), []) } pieces).1.finish
      (refusingEnd "b").recording).2 ≠ none := by
  intro pieces
  have hfed :
      ∀ error? ∈ (Session.feedAll (refusingEnd "c").recording { state := ((), []) } pieces).2,
      error? = none := by decide +kernel
  have hended : ((Session.feedAll (refusingEnd "c").recording { state := ((), []) } pieces).1.finish
      (refusingEnd "c").recording).2 = none := by decide +kernel
  have hfails :
      ∃ error? ∈ (Session.feedAll (refusingEnd "b").recording { state := ((), []) } pieces).2,
      error? ≠ none := by decide +kernel
  obtain ⟨-, -, -, hwhole, -, -⟩ := calls_well_nested (refusingEnd "c") () pieces
  obtain ⟨-, -, -, -, -, hbehind⟩ := calls_well_nested (refusingEnd "b") () pieces
  exact ⟨hwhole hfed hended, by decide +kernel, (hbehind hfails).2.1⟩

end KeyLayout.Document
