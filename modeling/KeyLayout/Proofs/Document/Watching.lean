import KeyLayout.Proofs.Document.Accepted

/-! What holds of a consumer at each call that is made to it while a document is read, from the
elements that are open. -/
namespace KeyLayout.Document
open Markup

variable {σ : Type}

/-- What is read piece by piece is well nested. -/
theorem nests_readPieces {seen : List Event} {r : Reader} (h : r.nesting.Behind seen)
    (pieces : List Bytes) : WellNested (seen ++ (r.readPieces pieces).events) := by
  induction pieces generalizing seen r with
  | nil => exact (Reader.nests_finish h).1
  | cons piece more ih =>
    have hfed := Reader.nests_feed h piece
    rw [Reader.readPieces]
    cases ho : (r.feed piece).outcome with
    | error failure => simpa [Batch.andThen, ho] using hfed.nested
    | ok last => simpa [Batch.andThen, ho] using ih (hfed.behind last ho)

theorem plain_readPieces (r : Reader) (pieces : List Bytes) :
    ∀ event ∈ (r.readPieces pieces).events, event.Plain := by
  induction pieces generalizing r with
  | nil => exact r.plain_finish
  | cons piece more ih =>
    have hfed := r.plain_feed piece
    rw [Reader.readPieces]
    cases ho : (r.feed piece).outcome with
    | error failure => simpa [Batch.andThen, ho] using hfed
    | ok last =>
      have hall := List.forall_mem_append.2 ⟨hfed, ih last⟩
      simpa [Batch.andThen, ho] using hall

namespace Kind
variable {kind : Kind}

/-- No element is open, or those that are open stand in a place of the grammar. -/
def Stands (kind : Kind) (path : List String) : Prop := path = [] ∨ path ∈ kind.places

/-- No element of a place stands in another one of its name, the elements around an element are a
place too, and names are plain. -/
theorem place_facts {place : List String} (h : place ∈ kind.places) :
    place.Nodup ∧ kind.Stands place.tail ∧ ∀ outer ∈ place, Plain outer := by
  have hplaces : ∀ place ∈ kind.places, place.Nodup ∧ (place.tail = [] ∨ place.tail ∈ kind.places) ∧
      ∀ outer ∈ place, outer.toList.contains '/' = false := by
    cases kind <;> decide +kernel
  obtain ⟨hnodup, htail, hplain⟩ := hplaces place h
  refine ⟨hnodup, htail, fun outer houter => ?_⟩
  simpa [Plain] using hplain outer houter

/-- An element that is allowed inside others is at a place. -/
theorem Stands.start {name : String} {path : List String} (h : kind.Stands path) (hn : Plain name)
    (hcheck : kind.check name path = .ok ()) : name :: path ∈ kind.places := by
  refine mem_places_of_check hn (fun outer houter => ?_) hcheck
  rcases h with rfl | h
  · simp at houter
  · exact (place_facts h).2.2 outer houter

end Kind

/-- A consumer that also keeps the calls made to it, each with the state in
which the consumer was called. -/
def Consumer.watching (consume : Consumer σ) : Consumer (σ × List (σ × Event)) :=
  fun (s, calls) event =>
  (((consume s event).1, calls ++ [(s, event)]), (consume s event).2)

/-- Calls that are made one after the other, from this state on. -/
structure Consumer.Made (consume : Consumer σ) (s : σ) (events : List Event)
    (calls : List (σ × Event)) : Prop where
  isPrefix : calls.map (·.2) <+: events
  states : ∀ before d event after, calls = before ++ (d, event) :: after →
    deliver consume s (before.map (·.2)) = (d, none)

/-- Watching changes nothing, and the calls are made in the states to which
the calls before them lead. -/
theorem made_of_deliver (consume : Consumer σ) (s : σ) (calls : List (σ × Event))
    (events : List Event) :
    ((deliver consume.watching (s, calls) events).1.1,
      (deliver consume.watching (s, calls) events).2) =
        deliver consume s events ∧
      ∃ made, (deliver consume.watching (s, calls) events).1.2 = calls ++ made ∧
      consume.Made s events made ∧
        ((deliver consume.watching (s, calls) events).2 = none → made.map (·.2) = events) := by
  induction events generalizing s calls with
  | nil => exact ⟨rfl, [], by simp [deliver], ⟨List.prefix_rfl, by simp⟩, fun _ => rfl⟩
  | cons event events ih =>
    have hfirst : ∀ {before d later after} {made : List (σ × Event)},
      (s, event) :: made = before ++ (d, later) :: after →
        before = [] ∧ d = s ∨
          ∃ front, before = (s, event) :: front ∧ made = front ++ (d, later) :: after := by
      intro before d later after made hsplit
      cases before with
      | nil => exact .inl ⟨rfl, by cases hsplit; rfl⟩
      | cons call front =>
        obtain ⟨rfl, hmade⟩ := List.cons.inj hsplit
        exact .inr ⟨front, rfl, hmade⟩
    cases hc : consume s event with
    | mk next refusal =>
      cases refusal with
      | some e =>
        have hwatch : deliver consume.watching (s, calls) (event :: events) =
            ((next, calls ++ [(s, event)]), some e) := by
          simp [deliver, Consumer.watching, hc]
        rw [hwatch]
        refine ⟨by simp [deliver, hc], [(s, event)], rfl, ⟨by simp, ?_⟩, by simp⟩
        intro before d later after hsplit
        rcases hfirst hsplit with ⟨rfl, rfl⟩ | ⟨front, -, hmade⟩
        · rfl
        · simp at hmade
      | none =>
        have hwatch : deliver consume.watching (s, calls) (event :: events) =
            deliver consume.watching (next, calls ++ [(s, event)]) events := by
          simp [deliver, Consumer.watching, hc]
        have hplain : deliver consume s (event :: events) = deliver consume next events := by
          simp [deliver, hc]
        obtain ⟨hsame, made, hcalls, hmade, hall⟩ := ih next (calls ++ [(s, event)])
        rw [hwatch, hplain]
        refine ⟨hsame, (s, event) :: made, by simpa using hcalls,
          ⟨by simpa using hmade.isPrefix, ?_⟩, fun hnone => ?_⟩
        · intro before d later after hsplit
          rcases hfirst hsplit with ⟨rfl, rfl⟩ | ⟨front, rfl, hrest⟩
          · rfl
          · rw [List.map_cons, deliver_cons_taken]
            exact ⟨next, hc, hmade.states front d later after hrest⟩
        · rw [List.map_cons, hall hnone]

def Allowed (kind : Kind) : Event → Prop
  | .start name _ path => kind.check name path = .ok ()
  | .stop _ _ => True
  | .text _ _ => True

/-- While a document is read piece by piece, up to the first error, the state of a
consumer agrees with the elements that are open, and every call that the grammar allows
finds in it what it looks for. -/
def InStep (kind : Kind) (consume : Consumer σ) (state : σ) (Agrees : List String → σ → Prop)
    (Finds : σ → Event → Prop) (pieces : List Bytes) : Prop :=
  let run := Session.readPieces consume.watching { state := (state, []) } pieces
  (run.1.1, run.2) = Session.readPieces consume { state } pieces ∧
  (∀ before d event after, run.1.2 = before ++ (d, event) :: after →
    Agrees (openElements (before.map (·.2))) d ∧ (Allowed kind event → Finds d event)) ∧
  (run.2 = none → Agrees (openElements (run.1.2.map (·.2))) run.1.1)

/-- Each event keeps the state of a consumer in agreement with the open elements, wherever the
grammar lets it stand. -/
structure Follows (kind : Kind) (consume : Consumer σ)
    (Agrees : List String → σ → Prop) : Prop where
  allowed {d d' : σ} {name : String} {a : Attributes} {path : List String} :
    consume d (.start name a path) = (d', none) → kind.check name path = .ok ()
  start {d d' : σ} {name : String} {a : Attributes} {path : List String} :
    name :: path ∈ kind.places → Agrees path d →
    consume d (.start name a path) = (d', none) → Agrees (name :: path) d'
  stop {d d' : σ} {name : String} {path : List String} :
    name :: path ∈ kind.places → Agrees (name :: path) d →
    consume d (.stop name path) = (d', none) → Agrees path d'
  text {d d' : σ} {text : String} {path : List String} : path ∈ kind.places → Agrees path d →
    consume d (.text text path) = (d', none) → Agrees path d'

structure FindsAll (kind : Kind) (Agrees : List String → σ → Prop)
    (Finds : σ → Event → Prop) : Prop where
  start {d : σ} {name : String} {a : Attributes} {path : List String} :
    name :: path ∈ kind.places → Agrees path d →
    Finds d (.start name a path)
  stop {d : σ} {name : String} {path : List String} :
    name :: path ∈ kind.places → Agrees (name :: path) d →
    Finds d (.stop name path)
  text {d : σ} {text : String} {path : List String} :
    path ∈ kind.places → Agrees path d → Finds d (.text text path)

section follows
variable {kind : Kind} {consume : Consumer σ} {Agrees : List String → σ → Prop}
    {Finds : σ → Event → Prop} {s d d' : σ}
  {seen : List Event} {event : Event}

theorem Follows.step (h : Follows kind consume Agrees) (hstands : kind.Stands (openElements seen))
    (hagrees : Agrees (openElements seen) d) (hfits : Fits seen event) (hplain : event.Plain)
    (hd : consume d event = (d', none)) :
    Agrees (openElements (seen ++ [event])) d' ∧ kind.Stands (openElements (seen ++ [event])) := by
  rw [openElements_append_singleton]
  cases event with
  | start name a path =>
    obtain ⟨rfl, -, -⟩ := hfits
    have hplace : name :: openElements seen ∈ kind.places := hstands.start hplain (h.allowed hd)
    exact ⟨h.start hplace hagrees hd, .inr hplace⟩
  | stop name path =>
    have hopen : openElements seen = name :: path := hfits
    rw [hopen] at hstands hagrees ⊢
    have hplace : name :: path ∈ kind.places := hstands.resolve_left (by simp)
    exact ⟨h.stop hplace hagrees hd, (Kind.place_facts hplace).2.1⟩
  | text text path =>
    obtain ⟨rfl, hne⟩ := hfits
    exact ⟨h.text (hstands.resolve_left hne) hagrees hd, hstands⟩

/-- The state behind events that are taken agrees with the elements that they leave open. -/
theorem Follows.agrees (h : Follows kind consume Agrees) (hs : Agrees [] s) (hn : WellNested seen)
    (hp : ∀ event ∈ seen, event.Plain) (hd : deliver consume s seen = (d, none)) :
    Agrees (openElements seen) d ∧ kind.Stands (openElements seen) := by
  induction seen using List.reverseRecOn generalizing d with
  | nil =>
    have hsame : s = d := by simpa [deliver] using hd
    exact ⟨hsame ▸ hs, .inl rfl⟩
  | append_singleton seen event ih =>
    obtain ⟨mid, hseen, hevent⟩ := deliver_append_taken.1 hd
    rw [deliver_singleton] at hevent
    obtain ⟨hnested, hfits⟩ := wellNested_append_singleton.1 hn
    obtain ⟨hplain, hlast⟩ := List.forall_mem_append.1 hp
    obtain ⟨hagrees, hstands⟩ := ih hnested hplain hseen
    exact h.step hstands hagrees hfits (hlast event (by simp)) hevent

theorem FindsAll.finds (h : FindsAll kind Agrees Finds) (hstands : kind.Stands (openElements seen))
    (hagrees : Agrees (openElements seen) d) (hfits : Fits seen event) (hplain : event.Plain)
    (hallowed : Allowed kind event) : Finds d event := by
  cases event with
  | start name a path =>
    obtain ⟨rfl, -, -⟩ := hfits
    exact h.start (hstands.start hplain hallowed) hagrees
  | stop name path =>
    have hopen : openElements seen = name :: path := hfits
    rw [hopen] at hstands hagrees
    exact h.stop (hstands.resolve_left (by simp)) hagrees
  | text text path =>
    obtain ⟨rfl, hne⟩ := hfits
    exact h.text (hstands.resolve_left hne) hagrees

theorem hear_watching (consume : Consumer σ) (s : σ) (told : Telling) :
    ((hear consume.watching (s, []) told).1.1, (hear consume.watching (s, []) told).2) =
      hear consume s told ∧
      ∃ made, (hear consume.watching (s, []) told).1.2 = made ∧ consume.Made s told.1 made ∧
        ((hear consume.watching (s, []) told).2 = none → made.map (·.2) = told.1) := by
  obtain ⟨hsame, made, hcalls, hmade, hall⟩ := made_of_deliver consume s [] told.1
  unfold hear
  rw [← hsame]
  cases hd : deliver consume.watching (s, []) told.1 with
  | mk state refusal =>
    rw [hd] at hcalls hall
    cases refusal with
    | some e => exact ⟨rfl, made, hcalls, hmade, nofun⟩
    | none => exact ⟨rfl, made, hcalls, hmade, fun _ => hall rfl⟩

/-- What every event keeps, and what is found while it holds, holds throughout
the reading of a document. -/
theorem Follows.inStep {Keeps : List String → σ → Prop} (h : Follows kind consume Keeps)
    (hk : ∀ {path d}, Keeps path d → Agrees path d) (hf : FindsAll kind Agrees Finds)
    (hs : Keeps [] s) (pieces : List Bytes) : InStep kind consume s Agrees Finds pieces := by
  have hstart : ({} : Reader).nesting.Behind [] := Nesting.behind_nil
  have hnested : WellNested (({} : Reader).readPieces pieces).events :=
    nests_readPieces hstart pieces
  have hplain := plain_readPieces {} pieces
  have hagrees : ∀ {seen d}, seen <+: (({} : Reader).readPieces pieces).events →
      deliver consume s seen = (d, none) →
      Agrees (openElements seen) d ∧ kind.Stands (openElements seen) := by
    intro seen d hseen hd
    have hkeeps :=
      h.agrees hs (hnested.of_prefix hseen)
        (fun event hevent => hplain event (hseen.subset hevent)) hd
    exact ⟨hk hkeeps.1, hkeeps.2⟩
  unfold InStep
  rw [Session.readPieces_eq_hear, Session.readPieces_eq_hear]
  obtain ⟨hsame, made, hcalls, hmade, hall⟩ :=
    hear_watching consume s (telling (({} : Reader).readPieces pieces))
  refine ⟨hsame, fun before d event after hsplit => ?_, fun hnone => ?_⟩
  · have hd := hmade.states before d event after (hcalls ▸ hsplit)
    have hcalled : before.map (·.2) ++ [event] <+: (({} : Reader).readPieces pieces).events := by
      have hmap : made.map (·.2) = before.map (·.2) ++ event :: after.map (·.2) := by
        simp [← hcalls, hsplit]
      have hfront : before.map (·.2) ++ [event] <+: made.map (·.2) :=
        ⟨after.map (·.2), by simp [hmap]⟩
      exact hfront.trans hmade.isPrefix
    have hbefore : before.map (·.2) <+: (({} : Reader).readPieces pieces).events :=
      (List.prefix_append _ _).trans hcalled
    obtain ⟨hopen, hstands⟩ := hagrees hbefore hd
    have hfits := (wellNested_append_singleton.1 (hnested.of_prefix hcalled)).2
    exact ⟨hopen, hf.finds hstands hopen hfits (hplain event (hcalled.subset (by simp)))⟩
  · have hd := deliver_of_hear (hsame.symm.trans (by rw [hnone]))
    rw [hcalls, hall hnone]
    exact (hagrees List.prefix_rfl hd).1

end follows
end KeyLayout.Document
