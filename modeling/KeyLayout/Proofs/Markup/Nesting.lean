import KeyLayout.Proofs.Markup.Cuts
import KeyLayout.Proofs.Markup.Meaning
import KeyLayout.Proofs.Markup.Tree
import Mathlib.Data.List.Nodup

/-! The events of a reader are well nested, whatever bytes it reads. -/
namespace KeyLayout.Markup

theorem Attributes.nodup_insert? {a b : Attributes} {name value : String}
    (h : (a.entries.map (·.1)).Nodup)
    (hi : a.insert? name value = some b) : (b.entries.map (·.1)).Nodup := by
  unfold insert? get? at hi
  split at hi
  · simp at hi
  next hnone =>
    cases hi
    have hnew : name ∉ a.entries.map (·.1) := by
      intro hmem
      obtain ⟨entry, hentry, rfl⟩ := List.mem_map.1 hmem
      simpa using List.lookup_eq_none_iff.1 hnone entry hentry
    rw [List.map_append]
    exact h.append (List.nodup_singleton name) (by simpa using hnew)

theorem nodup_readAttributes {offset : Nat} {element : String} {known a : Attributes}
    {raw : List (Bytes × Bytes)}
    (h : (known.entries.map (·.1)).Nodup) (hr : readAttributes offset element known raw = .ok a) :
    (a.entries.map (·.1)).Nodup := by
  induction raw generalizing known with
  | nil =>
    cases hr
    exact h
  | cons first more ih =>
    obtain ⟨name, -, hr⟩ := bind_eq_ok.1 hr
    obtain ⟨decoded, -, hr⟩ := bind_eq_ok.1 hr
    obtain ⟨value, -, hr⟩ := bind_eq_ok.1 hr
    split at hr
    next hinsert => exact ih (Attributes.nodup_insert? h hinsert) hr
    next => simp at hr

/-- The events are well nested, and the nesting has the elements they leave open and knows whether
there was a root. -/
structure Nesting.Behind (n : Nesting) (seen : List Event) : Prop where
  nested : WellNested seen
  path : n.path = openElements seen
  rootSeen : n.rootSeen = true ↔ seen ≠ []

namespace Nesting
variable {n n' : Nesting} {seen events : List Event}

theorem behind_nil : ({} : Nesting).Behind [] := ⟨wellNested_nil, rfl, by simp⟩

theorem Behind.start (h : n.Behind seen) (hroot : n.path = [] → n.rootSeen = false) {a : Attributes}
    (ha : (a.entries.map (·.1)).Nodup) (name : String) :
    Behind { path := name :: n.path, rootSeen := true } (seen ++ [.start name a n.path]) where
  nested := by
    refine wellNested_append_singleton.2 ⟨h.nested, h.path, fun hnil => ?_, ha⟩
    by_contra hseen
    exact absurd (h.rootSeen.2 hseen) (by simp [hroot hnil])
  path := by simp [openAfter, h.path]
  rootSeen := by simp

theorem Behind.stop (h : n.Behind seen) {name : String} {path : List String}
    (hpath : n.path = name :: path) : Behind { n with path } (seen ++ [.stop name path]) where
  nested := wellNested_append_singleton.2 ⟨h.nested, h.path.symm.trans hpath⟩
  path := by simp [openAfter, ← h.path, hpath]
  rootSeen := by
    have hseen : seen ≠ [] := by
      rintro rfl
      simp [h.path] at hpath
    simp [h.rootSeen, hseen]

theorem Behind.text (h : n.Behind seen) (hpath : n.path ≠ []) (t : String) :
    Behind n (seen ++ [.text t n.path]) where
  nested := wellNested_append_singleton.2 ⟨h.nested, h.path, hpath⟩
  path := by simp [openAfter, h.path]
  rootSeen := by
    have hseen : seen ≠ [] := by
      rintro rfl
      simp [h.path] at hpath
    simp [h.rootSeen, hseen]

/-- Every token that is accepted keeps the events well nested. -/
theorem Behind.interpret (h : n.Behind seen) {offset : Nat} {token : Token}
    (hi : n.interpret offset token = .ok (events, n')) : n'.Behind (seen ++ events) := by
  cases means_of_interpret hi with
  | @startTag _ _ name _ hroot _ ha => exact h.start hroot (nodup_readAttributes (by simp) ha) name
  | @emptyTag _ _ name _ hroot _ ha =>
    have hstart := h.start hroot (nodup_readAttributes (by simp) ha) name
    simpa using hstart.stop rfl
  | endTag hpath _ => exact h.stop hpath
  | blank _ _ _ => simpa using h
  | text hpath _ _ => exact h.text hpath _
  | verbatim hpath _ => exact h.text hpath _
  | skipped => simpa using h

end Nesting

/-- The events of a batch are well nested behind those before, and so is where it ended. -/
structure Batch.Nests (b : Batch) (seen : List Event) : Prop where
  nested : WellNested (seen ++ b.events)
  behind : ∀ last, b.outcome = .ok last → last.nesting.Behind (seen ++ b.events)

section nests
variable {seen events : List Event} {r : Reader}

theorem Nesting.Behind.nests_ok (h : r.nesting.Behind (seen ++ events)) :
    (⟨events, .ok r⟩ : Batch).Nests seen :=
  ⟨h.nested, fun _ hl => Except.ok.inj hl ▸ h⟩

theorem WellNested.nests_error (h : WellNested seen) (failure : Failure) :
    (⟨[], .error failure⟩ : Batch).Nests seen :=
  ⟨by simpa using h, fun _ hl => by simp at hl⟩

theorem Batch.Nests.andThen {b : Batch} {next : Reader → Batch} (h : b.Nests seen)
    (hn : ∀ last, b.outcome = .ok last → (next last).Nests (seen ++ b.events)) :
    (b.andThen next).Nests seen := by
  obtain ⟨events, outcome⟩ := b
  cases outcome with
  | error failure => exact ⟨h.nested, fun _ hl => by simp at hl⟩
  | ok last =>
    have := hn last rfl
    exact ⟨by simpa using this.nested, fun _ hl => by simpa using this.behind _ hl⟩

theorem Reader.nests_drainAs (s : Supply) (h : r.nesting.Behind seen) :
    (r.drainAs s).Nests seen := by
  induction r using Reader.drainAs_induction s generalizing seen with
  | stays r _ => exact Nesting.Behind.nests_ok (by simpa using h)
  | malformed r construct _ => exact h.nested.nests_error _
  | refused r token rest failure _ _ => exact h.nested.nests_error failure
  | token r token rest events nesting _ hi ih =>
    have hb := h.interpret hi
    have hnext : (⟨events, .ok (r.behind rest nesting)⟩ : Batch).Nests seen :=
      Nesting.Behind.nests_ok hb
    refine hnext.andThen fun last hl => ?_
    obtain rfl : r.behind rest nesting = last := Except.ok.inj hl
    exact ih hb

theorem Reader.nests_feed (h : r.nesting.Behind seen) (bytes : Bytes) : (r.feed bytes).Nests seen :=
  Reader.nests_drainAs .arriving (r := { r with pending := r.pending ++ bytes }) h

/-- Events of a whole document: an element has been started, and none is open. -/
structure Whole (events : List Event) : Prop where
  nested : WellNested events
  started : events ≠ []
  closed : openElements events = []

theorem Whole.existsUnique_tree {events : List Event} (h : Whole events) :
    ∃! tree : Tree, events = tree.events :=
  h.nested.existsUnique_tree h.started h.closed

/-- At the end of a document its events are well nested, and whole if reading went well. -/
theorem Reader.nests_finish (h : r.nesting.Behind seen) :
    WellNested (seen ++ r.finish.events) ∧ ∀ last, r.finish.outcome = .ok last →
      Whole (seen ++ r.finish.events) := by
  have hd := Reader.nests_drainAs .ended h
  unfold Reader.finish Reader.drainLast
  simp only
  split
  next failure hfailure => exact ⟨hd.nested, fun last hl => by simp [hfailure] at hl⟩
  next last hlast =>
    have hb := hd.behind last hlast
    split
    · exact ⟨hd.nested, fun _ hl => by simp at hl⟩
    next hpath =>
      split
      next hroot =>
        exact ⟨hd.nested, fun _ _ => ⟨hd.nested, hb.rootSeen.1 hroot, hb.path.symm.trans hpath⟩⟩
      · exact ⟨hd.nested, fun _ hl => by simp at hl⟩

end nests

end KeyLayout.Markup
