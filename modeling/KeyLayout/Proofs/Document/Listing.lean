import KeyLayout.Document.Catalog
import KeyLayout.Proofs.Document.Accepted

/-! Catalogs that are accepted list each keyboard once, as its element describes it. -/
namespace KeyLayout.Document
open Markup Model

namespace Catalog

def keyboard? : Event → Option Attributes
  | .start "keyboard" a _ => some a
  | _ => none

def keyboards (events : List Event) : List Attributes := events.filterMap keyboard?

def descriptorOf? (a : Attributes) : Option Descriptor := do
  let id ← a.get? "id"
  let geometry ← a.get? "geometry"
  return { id, geometry, symbols := a.get? "symbols", name := a.get? "name"
           longName := a.get? "longname", language := a.get? "language" }

/-- The keyboards that events describe, in document order. -/
def listed (events : List Event) : List Descriptor := (keyboards events).filterMap descriptorOf?

/-- An element stands where a catalog allows it, and describes a keyboard if it is for one. -/
def Proper : Event → Prop
  | .start name a path =>
    Kind.catalog.check name path = .ok () ∧
      (name = "keyboard" → (a.get? "id").isSome ∧ (a.get? "geometry").isSome)
  | .stop _ _ => True
  | .text _ _ => True

variable {known later : CatalogDraft} {d : Descriptor} {a : Attributes} {event : Event}
    {events : List Event} {id : String}

theorem descriptorOf?_eq_some :
    descriptorOf? a = some d ↔ a.get? "id" = some d.id ∧ a.get? "geometry" = some d.geometry ∧
    a.get? "symbols" = d.symbols ∧ a.get? "name" = d.name ∧ a.get? "longname" = d.longName ∧
      a.get? "language" = d.language := by
  unfold descriptorOf?
  obtain ⟨id, geometry, symbols, name, longName, language⟩ := d
  simp [Option.bind_eq_some_iff]

theorem isSome_descriptorOf? :
    (descriptorOf? a).isSome = true ↔
      (a.get? "id").isSome = true ∧ (a.get? "geometry").isSome = true := by
  unfold descriptorOf?
  cases a.get? "id" with
  | none => simp
  | some id => cases a.get? "geometry" <;> simp

/-- An element that says enough is listed unless its id is taken. -/
theorem list_of_descriptorOf? (known : CatalogDraft) (h : descriptorOf? a = some d) : known.list a =
    if d.id ∈ known.ids then .error (.duplicateKeyboard d.id) else .ok (known.add d) := by
  obtain ⟨hid, hgeometry, rest⟩ := descriptorOf?_eq_some.1 h
  obtain ⟨id, geometry, symbols, name, longName, language⟩ := d
  obtain ⟨rfl, rfl, rfl, rfl⟩ := rest
  simp only [CatalogDraft.list, Attributes.required, hid, hgeometry, ok_bind]
  split <;> rfl

/-- An element that says too little is not listed, and it is not its id that is wrong. -/
theorem list_of_none (known : CatalogDraft) (h : descriptorOf? a = none) :
    ∃ name, known.list a = .error (.missingAttribute "keyboard" name) := by
  unfold CatalogDraft.list Attributes.required
  unfold descriptorOf? at h
  cases hid : a.get? "id" with
  | none => exact ⟨"id", rfl⟩
  | some id =>
    cases hgeometry : a.get? "geometry" with
    | none => exact ⟨"geometry", rfl⟩
    | some geometry => simp [hid, hgeometry] at h

theorem list_eq_ok : known.list a = .ok later ↔
    ∃ d, descriptorOf? a = some d ∧ d.id ∉ known.ids ∧ known.add d = later := by
  cases hd : descriptorOf? a with
  | none =>
    obtain ⟨name, hname⟩ := list_of_none known hd
    simp [hname]
  | some d =>
    rw [list_of_descriptorOf? known hd]
    split
    next hknown =>
      refine ⟨nofun, ?_⟩
      rintro ⟨_, ⟨⟩, hnew, -⟩
      exact absurd hknown hnew
    next hnew =>
      refine ⟨fun h => ⟨d, rfl, hnew, Except.ok.inj h⟩, ?_⟩
      rintro ⟨_, ⟨⟩, -, rfl⟩
      rfl

theorem list_eq_duplicate : known.list a = .error (.duplicateKeyboard id) ↔
    a.get? "id" = some id ∧ (descriptorOf? a).isSome ∧ id ∈ known.ids := by
  cases hd : descriptorOf? a with
  | none =>
    obtain ⟨name, hname⟩ := list_of_none known hd
    simp [hname]
  | some d =>
    rw [list_of_descriptorOf? known hd, (descriptorOf?_eq_some.1 hd).1]
    split <;> grind

theorem keyboard?_start {name : String} {path : List String} (hname : name ≠ "keyboard") :
    keyboard? (.start name a path) = none := by
  unfold keyboard?
  split
  next heq =>
    cases heq
    exact absurd rfl hname
  next => rfl

theorem listed_append (events more : List Event) :
    listed (events ++ more) = listed events ++ listed more := by
  simp [listed, keyboards]

theorem listed_singleton (event : Event) :
    listed [event] = ((keyboard? event).bind descriptorOf?).toList := by
  unfold listed keyboards
  cases hk : keyboard? event with
  | none => simp [hk]
  | some a => cases hd : descriptorOf? a <;> simp [hk, hd]

theorem isSome_of_proper (h : Proper event) :
    ∀ a ∈ keyboard? event, (descriptorOf? a).isSome = true := by
  intro a ha
  unfold keyboard? at ha
  split at ha
  next a' path =>
    obtain rfl := Option.mem_some.1 ha
    exact isSome_descriptorOf?.2 (h.2 rfl)
  next => simp at ha

/-- Where all is in order, no keyboard is left out. -/
theorem described (h : ∀ event ∈ events, Proper event) :
    (listed events).map some = (keyboards events).map descriptorOf? := by
  have hsome : ∀ a ∈ keyboards events, (descriptorOf? a).isSome = true := by
    intro a ha
    obtain ⟨event, hevent, ha⟩ := List.mem_filterMap.1 ha
    exact isSome_of_proper (h event hevent) a ha
  unfold listed
  generalize keyboards events = elements at hsome ⊢
  induction elements with
  | nil => rfl
  | cons a elements ih =>
    obtain ⟨ha, helements⟩ := List.forall_mem_cons.1 hsome
    obtain ⟨d, hd⟩ := Option.isSome_iff_exists.1 ha
    rw [List.filterMap_cons_some hd, List.map_cons, List.map_cons, ih helements, hd]

def addAll (known : CatalogDraft) (ds : List Descriptor) : CatalogDraft where
  keyboards := known.keyboards ++ ds
  ids := known.ids ++ ds.map (·.id)

theorem addAll_nil (known : CatalogDraft) : addAll known [] = known := by
  simp [addAll]

theorem addAll_append (known : CatalogDraft) (ds more : List Descriptor) :
    addAll known (ds ++ more) = addAll (addAll known ds) more := by
  simp [addAll]

/-- The ids that are taken are those of the keyboards. -/
theorem ids_addAll (ds : List Descriptor) :
    (addAll {} ds).ids = (addAll {} ds).keyboards.map (·.id) := by
  simp [addAll]

theorem keyboards_addAll (ds : List Descriptor) : (addAll {} ds).keyboards = ds :=
  List.nil_append ds

theorem step_start (known : CatalogDraft) (name : String) (a : Attributes) (path : List String) :
    known.step (.start name a path) = .ok later ↔
      Kind.catalog.check name path = .ok () ∧
        (if name = "keyboard" then known.list a else .ok known) = .ok later := by
  rw [CatalogDraft.step]
  cases Kind.catalog.check name path <;> simp

theorem step_eq_ok : known.step event = .ok later ↔
    Proper event ∧ (∀ d ∈ listed [event], d.id ∉ known.ids) ∧
      addAll known (listed [event]) = later := by
  rw [listed_singleton]
  cases event with
  | start name a path =>
    rw [step_start, Proper, and_assoc]
    refine and_congr_right fun _ => ?_
    by_cases hname : name = "keyboard"
    · subst hname
      rw [if_pos rfl, list_eq_ok, ← isSome_descriptorOf?, keyboard?, Option.bind_some]
      cases descriptorOf? a <;> simp [addAll, CatalogDraft.add]
    · simp [keyboard?_start hname, hname, addAll_nil]
  | stop name path => simp [CatalogDraft.step, Proper, keyboard?, addAll_nil]
  | text text path => simp [CatalogDraft.step, Proper, keyboard?, addAll_nil]

/-- Events that are taken one behind the other leave the keyboards that they describe,
and the ids of just these. -/
theorem deliver_eq_listed : deliver (.ofExcept CatalogDraft.step) {} events = (later, none) ↔
    (∀ event ∈ events, Proper event) ∧ ((listed events).map (·.id)).Nodup ∧
      addAll {} (listed events) = later := by
  induction events using List.reverseRecOn generalizing later with
  | nil => simp [deliver, listed, keyboards, addAll]
  | append_singleton events event ih =>
    have hone : ((listed [event]).map (·.id)).Nodup := by
      rw [listed_singleton]
      cases (keyboard? event).bind descriptorOf? <;> simp
    rw [deliver_append_taken]
    simp only [ih, deliver_singleton, Consumer.ofExcept_eq_none, step_eq_ok, listed_append,
      List.map_append, List.nodup_append, List.forall_mem_append, List.forall_mem_singleton,
      addAll_append]
    constructor
    · rintro ⟨_, ⟨hproper, hdistinct, rfl⟩, hevent, hnew, rfl⟩
      refine ⟨⟨hproper, hevent⟩, ⟨hdistinct, hone, ?_⟩, rfl⟩
      intro id hid other hother hsame
      obtain ⟨d, hd, rfl⟩ := List.mem_map.1 hother
      refine hnew d hd ?_
      rw [ids_addAll, keyboards_addAll, ← hsame]
      exact hid
    · rintro ⟨⟨hproper, hevent⟩, ⟨hdistinct, -, hapart⟩, rfl⟩
      refine ⟨_, ⟨hproper, hdistinct, rfl⟩, hevent, ?_, rfl⟩
      intro d hd hid
      rw [ids_addAll, keyboards_addAll] at hid
      exact hapart d.id hid d.id (List.mem_map_of_mem hd) rfl

/-- An id is found to be repeated at an element that is in order but for its id. -/
theorem step_eq_duplicate : known.step event = .error (.duplicateKeyboard id) ↔
    ∃ a path, event = .start "keyboard" a path ∧ Proper event ∧ a.get? "id" = some id ∧
      id ∈ known.ids := by
  cases event with
  | start name a path =>
    have hstep : known.step (.start name a path) = .error (.duplicateKeyboard id) ↔
        name = "keyboard" ∧ Kind.catalog.check name path = .ok () ∧
          known.list a = .error (.duplicateKeyboard id) := by
      rw [CatalogDraft.step]
      unfold Kind.check
      split <;> by_cases hname : name = "keyboard" <;> simp [hname]
    rw [hstep, list_eq_duplicate, isSome_descriptorOf?]
    constructor
    · rintro ⟨rfl, hcheck, hid, hsome, hknown⟩
      exact ⟨a, path, rfl, ⟨hcheck, fun _ => hsome⟩, hid, hknown⟩
    · rintro ⟨_, _, ⟨⟩, ⟨hcheck, hsome⟩, hid, hknown⟩
      exact ⟨rfl, hcheck, hid, hsome rfl, hknown⟩
  | stop name path => simp [CatalogDraft.step]
  | text text path => simp [CatalogDraft.step]

end Catalog

open Catalog

variable {source : Source} {ds : List Descriptor} {id : String}

theorem readCatalog_eq_outcome (source : Source) :
    readCatalog source =
      outcome (·.keyboards) (consume (.ofExcept CatalogDraft.step) {} source) := by
  unfold readCatalog
  split <;> simp [outcome, *]

/-- A catalog that is accepted has the keyboards of its elements, in
their order, and no id twice. -/
theorem keyboards_of_readCatalog (h : readCatalog source = .ok ds) :
    ∃ tree : Tree, source.events = tree.events ∧
      ds.map some = (keyboards tree.events).map descriptorOf? ∧
      (ds.map (·.id)).Nodup := by
  unfold readCatalog at h
  split at h
  next draft hconsume =>
    cases h
    obtain ⟨tree, htree, -⟩ := tree_of_consume hconsume
    obtain ⟨hproper, hdistinct, rfl⟩ := deliver_eq_listed.1 (deliver_of_consume hconsume)
    rw [keyboards_addAll]
    exact ⟨tree, htree, htree ▸ described hproper, hdistinct⟩
  next => simp at h

/-- An id is reported as repeated if, and only if, it is the first thing that
is wrong with the catalog. -/
theorem readCatalog_eq_duplicate : readCatalog source = .error (.duplicateKeyboard id) ↔
    ∃ before a path after, source.events = before ++ .start "keyboard" a path :: after ∧
      (∀ event ∈ before, Proper event) ∧ ((listed before).map (·.id)).Nodup ∧
      Proper (.start "keyboard" a path) ∧ a.get? "id" = some id ∧
      id ∈ (listed before).map (·.id) := by
  rw [readCatalog_eq_outcome, outcome_eq_error, consume_eq]
  have hsource : (readSource {} source).2 ≠ some (.duplicateKeyboard id) := by
    intro h
    rcases error_of_readSource h with ⟨reason, he⟩ | ⟨failure, he⟩ <;> cases he
  have hrefused :
      ((deliver (.ofExcept CatalogDraft.step) {} source.events).2.or (readSource {} source).2 =
      some (.duplicateKeyboard id)) ↔
        (deliver (.ofExcept CatalogDraft.step) {} source.events).2 =
          some (.duplicateKeyboard id) := by
    cases (deliver (.ofExcept CatalogDraft.step) {} source.events).2 <;> simp [hsource]
  rw [hrefused, deliver_eq_refused]
  constructor
  · rintro ⟨before, event, after, draft, hsplit, hbefore, hevent⟩
    obtain ⟨hproper, hdistinct, rfl⟩ := deliver_eq_listed.1 hbefore
    obtain ⟨a, path, rfl, hlast, hid, hknown⟩ :=
      step_eq_duplicate.1 (Consumer.refusal_ofExcept.1 hevent)
    rw [ids_addAll, keyboards_addAll] at hknown
    exact ⟨before, a, path, after, hsplit, hproper, hdistinct, hlast, hid, hknown⟩
  · rintro ⟨before, a, path, after, hsplit, hproper, hdistinct, hlast, hid, hknown⟩
    rw [← keyboards_addAll (listed before), ← ids_addAll] at hknown
    refine ⟨before, _, after, _, hsplit, deliver_eq_listed.2 ⟨hproper, hdistinct, rfl⟩, ?_⟩
    exact Consumer.refusal_ofExcept.2 (step_eq_duplicate.2 ⟨a, path, rfl, hlast, hid, hknown⟩)

end KeyLayout.Document
