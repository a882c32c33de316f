import KeyLayout.Markup.Event
import Mathlib.Data.List.Induction

/-! Documents as trees, and the events of such a document. Events that are well nested are those of
one tree, or a beginning of them. -/
namespace KeyLayout.Markup

/-- Texts and elements side by side: the first with what it holds, then those beside it. -/
inductive Content where
  | nil
  | text (t : String) (beside : Content)
  | element (name : String) (attributes : Attributes) (below beside : Content)
  deriving DecidableEq, Repr

namespace Content

def events (path : List String) : Content → List Event
  | nil => []
  | text t beside => .text t path :: beside.events path
  | element name attributes below beside =>
    .start name attributes path ::
      (below.events (name :: path) ++ .stop name path :: beside.events path)

def append : Content → Content → Content
  | nil, more => more
  | text t beside, more => .text t (beside.append more)
  | element name attributes below beside, more =>
    .element name attributes below (beside.append more)

@[simp] theorem events_append (path : List String) (c more : Content) :
    (c.append more).events path = c.events path ++ more.events path := by
  induction c with
  | nil => rfl
  | text t beside ih => simp [append, events, ih]
  | element name attributes below beside _ ih => simp [append, events, ih]

end Content

structure Tree where
  name : String
  attributes : Attributes := {}
  content : Content := .nil
  deriving DecidableEq, Repr

def Tree.events (t : Tree) : List Event :=
  (Content.element t.name t.attributes t.content .nil).events []

theorem Tree.events_eq (t : Tree) :
    t.events = .start t.name t.attributes [] ::
      (t.content.events [t.name] ++ [.stop t.name []]) := rfl

/-- The elements that are open behind an event, innermost first, from those open before it. -/
def openAfter (path : List String) : Event → List String
  | .start name _ _ => name :: path
  | .stop _ _ => path.tail
  | .text _ _ => path

def openElements (events : List Event) : List String := events.foldl openAfter []

@[simp] theorem openElements_nil : openElements [] = [] := rfl

@[simp] theorem openElements_append_singleton (seen : List Event) (event : Event) :
    openElements (seen ++ [event]) = openAfter (openElements seen) event := by
  simp [openElements]

/-- An event can come behind others: it names the open elements, there is one root, no attribute
comes twice, and only the innermost open element ends. -/
def Fits (seen : List Event) : Event → Prop
  | .start _ attributes path =>
    path = openElements seen ∧ (path = [] → seen = []) ∧ (attributes.entries.map (·.1)).Nodup
  | .stop name path => openElements seen = name :: path
  | .text _ path => path = openElements seen ∧ path ≠ []

def WellNested (events : List Event) : Prop :=
  ∀ before event after, events = before ++ event :: after → Fits before event

theorem wellNested_nil : WellNested [] := by
  intro before event after h
  simp at h

theorem wellNested_append_singleton {seen : List Event} {event : Event} :
    WellNested (seen ++ [event]) ↔ WellNested seen ∧ Fits seen event := by
  constructor
  · intro h
    refine ⟨fun before other after hs => h before other (after ++ [event]) (by simp [hs]),
      h seen event [] rfl⟩
  · rintro ⟨hs, hf⟩ before other after h
    rcases List.eq_nil_or_concat after with rfl | ⟨front, last, rfl⟩
    · obtain ⟨rfl, hevent⟩ := List.append_inj' h rfl
      cases hevent
      exact hf
    · have hsplit : seen ++ [event] = (before ++ other :: front) ++ [last] := by simpa using h
      exact hs before other front (List.append_inj' hsplit rfl).1

theorem WellNested.of_prefix {seen events : List Event} (h : WellNested events)
    (hp : seen <+: events) : WellNested seen := by
  obtain ⟨rest, rfl⟩ := hp
  intro before event after hs
  exact h before event (after ++ rest) (by simp [hs])

structure Frame where
  name : String
  attributes : Attributes
  content : Content := .nil

/-- The events of open elements, the innermost first in the list and last in the document. -/
def partialEvents : List Frame → List Event
  | [] => []
  | frame :: outer =>
    partialEvents outer ++ .start frame.name frame.attributes (outer.map (·.name)) ::
      frame.content.events (frame.name :: outer.map (·.name))

def Frame.add (frame : Frame) (more : Content) : Frame :=
  { frame with content := frame.content.append more }

theorem partialEvents_add (frame : Frame) (outer : List Frame) (more : Content) :
    partialEvents (frame.add more :: outer) =
      partialEvents (frame :: outer) ++ more.events (frame.name :: outer.map (·.name)) := by
  simp [partialEvents, Frame.add]

/-- An element that ends becomes content of the one around it. -/
theorem partialEvents_close (inner frame : Frame) (outer : List Frame) :
    partialEvents (frame.add (.element inner.name inner.attributes inner.content .nil) :: outer) =
      partialEvents (inner :: frame :: outer) ++
        [.stop inner.name (frame.name :: outer.map (·.name))] := by
  rw [partialEvents_add]
  simp [partialEvents, Content.events]

/-- Well nested events are those of open elements, or those of a tree. -/
theorem WellNested.cases {seen : List Event} (h : WellNested seen) :
    (∃ frames : List Frame, seen = partialEvents frames ∧ openElements seen = frames.map (·.name)) ∨
      ∃ tree : Tree, seen = tree.events ∧ openElements seen = [] := by
  induction seen using List.reverseRecOn with
  | nil => exact .inl ⟨[], rfl, rfl⟩
  | append_singleton seen event ih =>
    obtain ⟨hseen, hfits⟩ := wellNested_append_singleton.1 h
    rw [openElements_append_singleton]
    rcases ih hseen with ⟨frames, hevents, hopen⟩ | ⟨tree, hevents, hopen⟩
    · cases event with
      | start name attributes path =>
        obtain ⟨rfl, -, -⟩ := hfits
        refine .inl ⟨⟨name, attributes, .nil⟩ :: frames, ?_, by simp [openAfter, hopen]⟩
        simp [partialEvents, Content.events, hopen, ← hevents]
      | text t path =>
        obtain ⟨rfl, hne⟩ := hfits
        cases frames with
        | nil => exact absurd (by simpa using hopen) hne
        | cons frame outer =>
          refine .inl ⟨frame.add (.text t .nil) :: outer, ?_,
            by simpa [openAfter, Frame.add] using hopen⟩
          rw [partialEvents_add, ← hevents, hopen]
          rfl
      | stop name path =>
        have hopened : frames.map (·.name) = name :: path := hopen.symm.trans hfits
        cases frames with
        | nil => simp at hopened
        | cons frame outer =>
          obtain ⟨rfl, rfl⟩ := List.cons.inj hopened
          cases outer with
          | nil =>
            refine .inr ⟨⟨frame.name, frame.attributes, frame.content⟩, ?_,
              by simp [openAfter, hopen]⟩
            simp [hevents, partialEvents, Tree.events_eq]
          | cons around outer =>
            refine .inl ⟨around.add (.element frame.name frame.attributes frame.content .nil) ::
              outer, ?_, ?_⟩
            · rw [partialEvents_close, ← hevents]
              rfl
            · simp [openAfter, hopen, Frame.add]
    · cases event with
      | start name attributes path =>
        obtain ⟨rfl, hfirst, -⟩ := hfits
        have hnil : seen = [] := hfirst hopen
        simp [hnil, Tree.events_eq] at hevents
      | text t path => exact absurd (hfits.1.trans hopen) hfits.2
      | stop name path => simp [Fits, hopen] at hfits

/-- Elements that are open can be ended. -/
theorem exists_tree_of_partialEvents (frame : Frame) (outer : List Frame) :
    ∃ tree : Tree, partialEvents (frame :: outer) <+: tree.events := by
  induction outer generalizing frame with
  | nil =>
    refine ⟨⟨frame.name, frame.attributes, frame.content⟩, [.stop frame.name []], ?_⟩
    simp [partialEvents, Tree.events_eq]
  | cons around outer ih =>
    obtain ⟨tree, htree⟩ :=
      ih (around.add (.element frame.name frame.attributes frame.content .nil))
    rw [partialEvents_close] at htree
    exact ⟨tree, (List.prefix_append _ _).trans htree⟩

theorem WellNested.exists_prefix {seen : List Event} (h : WellNested seen) :
    ∃ tree : Tree, seen <+: tree.events := by
  rcases h.cases with ⟨frames, rfl, -⟩ | ⟨tree, rfl, -⟩
  · cases frames with
    | nil => exact ⟨⟨"", {}, .nil⟩, List.nil_prefix⟩
    | cons frame outer => exact exists_tree_of_partialEvents frame outer
  · exact ⟨tree, List.prefix_rfl⟩

/-- The events end, or an element ends with them. -/
def Ends (events : List Event) : Prop :=
  ∀ event ∈ events.head?, ∃ name path, event = .stop name path

@[simp] theorem ends_nil : Ends [] := by simp [Ends]

@[simp] theorem ends_cons {event : Event} {events : List Event} :
    Ends (event :: events) ↔ ∃ name path, event = .stop name path := by
  simp [Ends]

/-- Content can be told from its events, and from what comes behind them. -/
theorem Content.events_append_inj {c other : Content} {path : List String} {rest rest' : List Event}
    (hr : Ends rest) (hr' : Ends rest') (h : c.events path ++ rest = other.events path ++ rest') :
    c = other ∧ rest = rest' := by
  induction c generalizing other path rest rest' with
  | nil =>
    cases other with
    | nil => exact ⟨rfl, h⟩
    | text t beside =>
      have hrest : rest = .text t path :: (beside.events path ++ rest') := h
      simp [hrest] at hr
    | element name attributes below beside =>
      have hrest : rest = .start name attributes path :: _ := h
      simp [hrest] at hr
  | text t beside ih =>
    cases other with
    | nil =>
      have hrest : .text t path :: (beside.events path ++ rest) = rest' := h
      simp [← hrest] at hr'
    | text t' beside' =>
      simp only [events, List.cons_append, List.cons.injEq, Event.text.injEq, and_true] at h
      obtain ⟨rfl, h⟩ := h
      obtain ⟨rfl, hrest⟩ := ih hr hr' h
      exact ⟨rfl, hrest⟩
    | element name attributes below beside => simp [events] at h
  | element name attributes below beside ihbelow ihbeside =>
    cases other with
    | nil =>
      have hrest : .start name attributes path :: _ = rest' := h
      simp [← hrest] at hr'
    | text t beside => simp [events] at h
    | element name' attributes' below' beside' =>
      simp only [events, List.cons_append, List.append_assoc, List.cons.injEq, Event.start.injEq,
        and_true] at h
      obtain ⟨⟨rfl, rfl⟩, h⟩ := h
      obtain ⟨rfl, hstop⟩ := ihbelow (by simp) (by simp) h
      obtain ⟨rfl, hrest⟩ := ihbeside hr hr' (List.cons.inj hstop).2
      exact ⟨rfl, hrest⟩

theorem Tree.events_inj {t other : Tree} (h : t.events = other.events) : t = other := by
  have hevents : t.events ++ [] = other.events ++ [] := congrArg (· ++ []) h
  have hparts := (Content.events_append_inj ends_nil ends_nil hevents).1
  cases t
  cases other
  simpa using hparts

/-- Well nested events at whose end no element is open are those of one tree. -/
theorem WellNested.existsUnique_tree {events : List Event} (h : WellNested events)
    (hne : events ≠ [])
    (hopen : openElements events = []) : ∃! tree : Tree, events = tree.events := by
  rcases h.cases with ⟨frames, hevents, hframes⟩ | ⟨tree, hevents, -⟩
  · have hnil : frames = [] := by simpa [hopen] using hframes
    exact absurd (by simpa [hnil, partialEvents] using hevents) hne
  · exact ⟨tree, hevents, fun other hother => Tree.events_inj (hother.symm.trans hevents)⟩

end KeyLayout.Markup
