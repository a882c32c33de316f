import KeyLayout.Proofs.Document.Binding
import KeyLayout.Proofs.Markup.Names
import KeyLayout.Proofs.Markup.Nesting
import KeyLayout.Proofs.Resource.Place

/-! A document that is accepted is one tree, whose elements stand where its kind allows. -/
namespace KeyLayout.Document
open Markup

/-- What a source tells is well nested, and whole if reading goes well. -/
theorem nests_readSource {seen : List Event} {r : Reader} (h : r.nesting.Behind seen)
    (source : Source) :
    WellNested (seen ++ (readSource r source).1) ∧
      ((readSource r source).2 = none → Whole (seen ++ (readSource r source).1)) := by
  have hfinish {seen : List Event} {r : Reader} (h : r.nesting.Behind seen) :
      WellNested (seen ++ (telling r.finish).1) ∧
        ((telling r.finish).2 = none → Whole (seen ++ (telling r.finish).1)) := by
    obtain ⟨hnested, hwhole⟩ := Reader.nests_finish h
    refine ⟨hnested, fun hnone => ?_⟩
    cases ho : r.finish.outcome with
    | error failure => simp [telling, ho] at hnone
    | ok last => exact hwhole last ho
  induction source generalizing seen r with
  | nil => exact hfinish h
  | cons read more ih =>
    cases read with
    | interrupted => exact ih h
    | failed reason =>
      exact ⟨by simpa [readSource] using h.nested, fun hnone => by simp [readSource] at hnone⟩
    | bytes piece =>
      cases piece with
      | nil => exact hfinish h
      | cons b bytes =>
        have hfed := Reader.nests_feed h (b :: bytes)
        rw [readSource]
        cases ho : (r.feed (b :: bytes)).outcome with
        | error failure => exact ⟨hfed.nested, fun hnone => by simp at hnone⟩
        | ok last => simpa using ih (hfed.behind last ho)

theorem wellNested_events (source : Source) : WellNested source.events :=
  (nests_readSource (r := {}) Nesting.behind_nil source).1

/-- What holds of the events of all bytes holds of all events that a source tells. -/
theorem forall_readSource {P : Event → Prop}
    (h : ∀ (s : Supply) (r : Reader), ∀ event ∈ (r.drainAs s).events, P event)
    (r : Reader) (source : Source) : ∀ event ∈ (readSource r source).1, P event := by
  have hfinish (r : Reader) : ∀ event ∈ r.finish.events, P event := by
    rw [Reader.events_finish]
    exact h .ended r
  induction source generalizing r with
  | nil => exact hfinish r
  | cons read more ih =>
    cases read with
    | interrupted => exact ih r
    | failed reason => simp [readSource]
    | bytes piece =>
      cases piece with
      | nil => exact hfinish r
      | cons b bytes =>
        rw [readSource]
        have hfed : ∀ event ∈ (r.feed (b :: bytes)).events, P event := h .arriving _
        cases ho : (r.feed (b :: bytes)).outcome with
        | error failure => exact hfed
        | ok last =>
          intro event hevent
          rcases List.mem_append.1 hevent with hevent | hevent
          · exact hfed event hevent
          · exact ih last event hevent

theorem plain_readSource (r : Reader) (source : Source) :
    ∀ event ∈ (readSource r source).1, event.Plain :=
  forall_readSource Reader.plain_drainAs r source

theorem tree_of_consume {σ : Type} {consumer : Consumer σ} {s s' : σ} {source : Source}
    (h : consume consumer s source = (s', none)) :
    ∃ tree : Tree, source.events = tree.events ∧
      (Content.element tree.name tree.attributes tree.content .nil).Plain := by
  have hnone : (readSource {} source).2 = none := by
    rw [consume, Session.read_eq_hear] at h
    unfold hear at h
    split at h
    next heq => simp_all
    next hrefused => simp_all
  obtain ⟨-, hwhole⟩ := nests_readSource (r := {}) Nesting.behind_nil source
  obtain ⟨tree, htree, -⟩ := (hwhole hnone).existsUnique_tree
  have hevents : source.events = tree.events := htree
  have hplain : ∀ event ∈ source.events, event.Plain := plain_readSource {} source
  rw [hevents] at hplain
  exact ⟨tree, hevents, Content.plain_of_events hplain⟩

theorem deliver_element {σ : Type} {consumer : Consumer σ} {s s' : σ} {name : String}
    {a : Attributes} {below beside : Content} {path : List String}
    (h : deliver consumer s ((Content.element name a below beside).events path) = (s', none)) :
    ∃ started ended stopped, consumer s (.start name a path) = (started, none) ∧
      deliver consumer started (below.events (name :: path)) = (ended, none) ∧
      consumer ended (.stop name path) = (stopped, none) ∧
      deliver consumer stopped (beside.events path) = (s', none) := by
  rw [Content.events] at h
  obtain ⟨started, hstart, h⟩ := deliver_cons_taken.1 h
  obtain ⟨ended, hended, h⟩ := deliver_append_taken.1 h
  obtain ⟨stopped, hstop, h⟩ := deliver_cons_taken.1 h
  exact ⟨started, ended, stopped, hstart, hended, hstop, h⟩

/-- A path of names without slashes splits into these names. -/
theorem Kind.splitOn_pathOf {element : String} {path : List String} (he : Plain element)
    (hp : ∀ name ∈ path, Plain name) :
    Text.splitOn '/' (pathOf element path).toList = (element :: path).map String.toList := by
  induction path generalizing element with
  | nil => simpa [pathOf] using Text.splitOn_of_not_mem he
  | cons outer path ih =>
    obtain ⟨houter, hpath⟩ := List.forall_mem_cons.1 hp
    have hsplit : (pathOf element (outer :: path)).toList =
        element.toList ++ '/' :: (pathOf outer path).toList := by
      simp [pathOf, String.intercalate_cons_cons]
    rw [hsplit, Text.splitOn_append, Text.splitOn_of_not_mem he, ih houter hpath]
    rfl

/-- The places at which elements may stand, each from the element outwards. -/
def Kind.places (kind : Kind) : List (List String) :=
  kind.paths.map fun path => (Text.splitOn '/' path.toList).map String.ofList

theorem Kind.mem_places_of_check {kind : Kind} {element : String} {path : List String}
    (he : Plain element) (hp : ∀ name ∈ path, Plain name) (h : kind.check element path = .ok ()) :
    element :: path ∈ kind.places := by
  unfold check at h
  split at h
  next hmem =>
    refine List.mem_map.2 ⟨pathOf element path, hmem, ?_⟩
    rw [splitOn_pathOf he hp, List.map_map]
    simp
  next => simp at h

end KeyLayout.Document
