import KeyLayout.Proofs.Document.Binding
import KeyLayout.Proofs.Load.Build
import KeyLayout.Proofs.Model.KeyFlags
import Mathlib.Data.List.Forall2

/-! The parts of every keyboard that is loaded fit together. -/
namespace KeyLayout.Model

/-- Where no name comes twice, the key of a name is the last one of it. -/
theorem lastNamed?_eq_some {keys : List Key} (hn : (keys.map (·.name)).Nodup)
    {name : String} {i : Nat} :
    Keyboard.lastNamed? name keys = some i ↔ ∃ key, keys[i]? = some key ∧ key.name = name := by
  rw [lastNamed?_eq_some_iff]
  refine ⟨LastNamed.named, fun hnamed => ⟨hnamed, fun j other hother hsame => ?_⟩⟩
  obtain ⟨key, hkey, rfl⟩ := hnamed
  have hnames : (keys.map (·.name))[j]? = (keys.map (·.name))[i]? := by simp [hother, hkey, hsame]
  have hlt : j < (keys.map (·.name)).length := by simpa using (List.getElem?_eq_some_iff.1 hother).1
  exact Nat.le_of_eq ((List.getElem?_inj hlt hn).1 hnames)

open Document in
/-- Every reference within a keyboard leads somewhere: outlines, names, keycodes, and the keys in
its sections; `given` are the outlines by name. -/
structure Keyboard.Linked (given : String → String) (k : Keyboard) : Prop where
  outline_lt : ∀ key ∈ k.keys, key.outline < k.outlines.size
  outline_id : ∀ key ∈ k.keys, k.outlines.id? key.outline = some (given key.name)
  outline_of : ∀ i key, k.keys[i]? = some key →
    ∃ outline, k.outlineOf? i = some outline ∧ (given key.name, outline) ∈ k.outlines.entries
  outline_ids : (k.outlines.entries.map (·.1)).Nodup
  names : (k.keys.map (·.name)).Nodup
  find_key : ∀ name i, k.findKey? name = some i ↔ ∃ key, k.keys[i]? = some key ∧ key.name = name
  keycodes : (k.keys.map (·.keycode)).Nodup
  /-- Keycodes begin again where there are more keys than words. -/
  keycode_ge : firstKeycode + k.keys.length ≤ 1 <<< 32 → ∀ key ∈ k.keys, firstKeycode ≤ key.keycode
  keycode_lt : ∀ key ∈ k.keys, key.keycode < 1 <<< 32
  shown_lt : ∀ s ∈ k.sections, ∀ row ∈ s.rows, ∀ i ∈ row, i < k.keys.length
  shown_once : (k.sections.flatMap Section.keys).Nodup
  rows_ne_nil : ∀ s ∈ k.sections, ∀ row ∈ s.rows, row ≠ []
  released : ∀ key ∈ k.keys, key.pressed = false
  unlocked : ∀ key ∈ k.keys, key.locked = false

end KeyLayout.Model

namespace KeyLayout.Load
open Document Markup Model Resource

def Links (outlines : OutlineTable) (draft : KeyDraft) (key : Key) : Prop :=
  ∃ outline, outlines.handle? draft.outline = some outline ∧
    key = { name := draft.name, keycode := draft.keycode, outline, levels := draft.levels }

theorem linkKeys_eq_ok {outlines : OutlineTable} {drafts : List KeyDraft} {keys : List Key} :
    (linkKeys outlines drafts).result = .ok keys ↔ List.Forall₂ (Links outlines) drafts keys := by
  induction drafts generalizing keys with
  | nil => simp [linkKeys, Reported.ok, eq_comm]
  | cons draft more ih =>
    rw [linkKeys, List.forall₂_cons_left_iff]
    cases hh : outlines.handle? draft.outline with
    | none => simp [Reported.error, Links, hh]
    | some outline =>
      simp only [map_eq_ok, ih, Links, hh]
      constructor
      · rintro ⟨linked, hlinked, rfl⟩
        exact ⟨_, linked, ⟨outline, rfl, rfl⟩, hlinked, rfl⟩
      · rintro ⟨_, linked, ⟨_, ⟨⟩, rfl⟩, hlinked, rfl⟩
        exact ⟨linked, hlinked, rfl⟩

/-- Linking fails at the first key whose outline is not known. -/
theorem linkKeys_eq_error {outlines : OutlineTable} {drafts : List KeyDraft} {e : Error} :
    (linkKeys outlines drafts).result = .error e ↔
      ∃ key, drafts.find? (fun key => (outlines.handle? key.outline).isNone) = some key ∧
        e = .danglingOutline key.name key.outline := by
  induction drafts with
  | nil => simp [linkKeys, Reported.ok]
  | cons draft more ih =>
    rw [linkKeys]
    cases hh : outlines.handle? draft.outline with
    | none => simp [Reported.error, hh, eq_comm]
    | some outline => simpa [hh, map_eq_error] using ih

/-- The keys in front of such a key, or all keys, are odd if they have no symbols. -/
theorem linkKeys_warnings (outlines : OutlineTable) (drafts : List KeyDraft) :
    (linkKeys outlines drafts).warnings =
      ((drafts.takeWhile fun key => (outlines.handle? key.outline).isSome).filter
        (·.levels.isEmpty)).map
        fun key => Warning.withoutSymbols key.name := by
  induction drafts with
  | nil => rfl
  | cons draft more ih =>
    rw [linkKeys]
    cases hh : outlines.handle? draft.outline with
    | none => simp [Reported.error, hh]
    | some outline => cases hl : draft.levels.isEmpty <;> simp [hh, hl, ih]

section assemble
variable {descriptor : Descriptor} {geometry : Geometry}

theorem isNone_handle?_ofEntries (t : OutlineTable) (id : String) :
    ((OutlineTable.ofEntries t.entries).handle? id).isNone = (t.handle? id).isNone := by
  rw [Bool.eq_iff_iff, Option.isNone_iff_eq_none, Option.isNone_iff_eq_none,
    t.handle?_ofEntries_eq_none]

theorem assemble_eq_error {e : Error} : (assemble descriptor geometry).result = .error e ↔
    ∃ key, geometry.keys.find? (fun key => (geometry.outlines.handle? key.outline).isNone) =
      some key ∧
      e = .danglingOutline key.name key.outline := by
  simp only [assemble, Reported.bind_result_eq_error, linkKeys_eq_error, isNone_handle?_ofEntries]
  simp [pure, Reported.ok]

theorem assemble_warnings (descriptor : Descriptor) (geometry : Geometry) :
    (assemble descriptor geometry).warnings =
    ((geometry.keys.takeWhile fun key => (geometry.outlines.handle? key.outline).isSome).filter
      (·.levels.isEmpty)).map
      fun key => Warning.withoutSymbols key.name := by
  have hlink := linkKeys_warnings (.ofEntries geometry.outlines.entries) geometry.keys
  simp only [← Option.not_isNone, isNone_handle?_ofEntries] at hlink ⊢
  rw [assemble, Reported.bind_pure_warnings, hlink]

end assemble

section links
variable {outlines : OutlineTable} {drafts : List KeyDraft} {keys : List Key}

theorem map_eq_of_links (h : List.Forall₂ (Links outlines) drafts keys) {α : Type}
    {f : KeyDraft → α} {g : Key → α}
    (hfg : ∀ draft key, Links outlines draft key → g key = f draft) :
    keys.map g = drafts.map f := by
  induction h with
  | nil => rfl
  | cons hlink _ ih => simp [hfg _ _ hlink, ih]

theorem draft_of_links (h : List.Forall₂ (Links outlines) drafts keys) {key : Key}
    (hkey : key ∈ keys) :
    ∃ draft ∈ drafts, Links outlines draft key := by
  induction h with
  | nil => simp at hkey
  | cons hlink _ ih =>
    rcases List.mem_cons.1 hkey with rfl | hkey
    · exact ⟨_, List.mem_cons_self, hlink⟩
    · obtain ⟨draft, hdraft, hlink⟩ := ih hkey
      exact ⟨draft, List.mem_cons_of_mem _ hdraft, hlink⟩

theorem names_of_links (h : List.Forall₂ (Links outlines) drafts keys) :
    keys.map (·.name) = drafts.map (·.name) := by
  refine map_eq_of_links h ?_
  rintro draft _ ⟨outline, -, rfl⟩
  rfl

theorem keycodes_of_links (h : List.Forall₂ (Links outlines) drafts keys) :
    keys.map (·.keycode) = drafts.map (·.keycode) := by
  refine map_eq_of_links h ?_
  rintro draft _ ⟨outline, -, rfl⟩
  rfl

theorem entry_of_links {given : String → String} (hd : Described given drafts)
    (h : List.Forall₂ (Links outlines) drafts keys) {key : Key} (hkey : key ∈ keys) :
    ∃ outline, outlines.entries[key.outline]? = some (given key.name, outline) := by
  obtain ⟨draft, hdraft, handle, hhandle, rfl⟩ := draft_of_links h hkey
  obtain ⟨outline, hentry⟩ := OutlineTable.entry_of_handle? hhandle
  exact ⟨outline, hd.outline draft hdraft ▸ hentry⟩

end links

theorem linked_of_assemble {given : String → String} {geometry : Geometry}
    (hg : geometry.Ready given) {descriptor : Descriptor} {keyboard : Keyboard}
    (h : (assemble descriptor geometry).result = .ok keyboard) : keyboard.Linked given := by
  obtain ⟨keys, hlink, rfl⟩ := assemble_eq_ok.1 h
  rw [geometry.outlines.ofEntries_entries hg.outlines] at hlink ⊢
  have hlinks := linkKeys_eq_ok.1 hlink
  have hnames := names_of_links hlinks
  have hkeycodes := keycodes_of_links hlinks
  have hlength : keys.length = geometry.keys.length := hlinks.length_eq.symm
  exact
    { outline_lt := by
        intro key hkey
        obtain ⟨outline, hentry⟩ := entry_of_links hg.described hlinks hkey
        exact (List.getElem?_eq_some_iff.1 hentry).1
      outline_id := by
        intro key hkey
        obtain ⟨outline, hentry⟩ := entry_of_links hg.described hlinks hkey
        simp [OutlineTable.id?, hentry]
      outline_of := by
        intro i key hi
        obtain ⟨outline, hentry⟩ := entry_of_links hg.described hlinks (List.mem_of_getElem? hi)
        simp only at hi
        refine ⟨outline, ?_, List.mem_of_getElem? hentry⟩
        simp [Keyboard.outlineOf?, hi, OutlineTable.get?, hentry]
      outline_ids := hg.outlines
      names := hnames ▸ hg.described.names
      find_key := fun name i => lastNamed?_eq_some (hnames ▸ hg.described.names)
      keycodes := hkeycodes ▸ hg.keycodes
      keycode_ge := by
        intro hfew key hkey
        obtain ⟨draft, hdraft, outline, -, rfl⟩ := draft_of_links hlinks hkey
        simp only [hlength] at hfew
        exact hg.described.keycode_ge hfew draft hdraft
      keycode_lt := by
        intro key hkey
        obtain ⟨draft, hdraft, outline, -, rfl⟩ := draft_of_links hlinks hkey
        exact hg.described.keycode_lt draft hdraft
      shown_lt := by
        intro s hs row hrow i hi
        have := hg.shown_lt i (List.mem_flatMap.2 ⟨s, hs, List.mem_flatten.2 ⟨row, hrow, hi⟩⟩)
        exact hlength ▸ this
      shown_once := hg.shown
      rows_ne_nil := by
        rintro s hs row hrow rfl
        exact hg.rows s hs hrow
      released := by
        intro key hkey
        obtain ⟨draft, -, outline, -, rfl⟩ := draft_of_links hlinks hkey
        rfl
      unlocked := by
        intro key hkey
        obtain ⟨draft, -, outline, -, rfl⟩ := draft_of_links hlinks hkey
        rfl }

theorem bare_of_foldlM {lib : Library} {root : Name} {names : List String}
    {geometry bound : Geometry} (h : names.foldlM (bindDocument lib root) geometry = .ok bound) :
    bound.bare = geometry.bare := by
  refine foldlM_invariant (P := fun g => g.bare = geometry.bare) ?_ rfl h
  intro before name after hbefore hbind
  obtain ⟨source, -, hbind⟩ := readWith_eq_ok.1 hbind
  exact (bare_bindSymbols hbind).trans hbefore

theorem bare_of_bindAll {lib : Library} {root : Name} {geometry bound : Geometry} {name : String}
    (h : bindAll lib root geometry name = .ok bound) : bound.bare = geometry.bare := by
  obtain ⟨p, hp, rfl⟩ := bindAll_eq_ok.1 h
  obtain ⟨t, -, -, -, -, hfold⟩ := forest_of_bindIncluding hp
  exact bare_of_foldlM hfold

/-- Every keyboard that is loaded, from the catalog or by a descriptor, is linked, and its keys have
the outlines that its geometry document finally gave them. -/
theorem linked_of_load {l : Loader} {keyboard : Keyboard}
    (h : (∃ id, (l.load id).result = .ok keyboard) ∨
      ∃ descriptor, (l.loadDescribed descriptor).result = .ok keyboard) :
    ∃ source, l.library.open? (l.root.geometry keyboard.descriptor.geometry) = some source ∧
      keyboard.Linked (outlineNamed source.events) := by
  have hbuild : ∃ descriptor, (l.build descriptor).result = .ok keyboard := by
    rcases h with ⟨id, h⟩ | ⟨descriptor, h⟩
    · obtain ⟨keyboards, descriptor, -, -, h⟩ := Loader.load_eq_ok.1 h
      exact ⟨descriptor, h⟩
    · exact ⟨descriptor, Loader.loadDescribed_eq_ok.1 h⟩
  obtain ⟨descriptor, h⟩ := hbuild
  obtain ⟨symbols, geometry, bound, -, hread, hbind, hassemble⟩ := Loader.build_eq_ok.1 h
  obtain ⟨source, hopen, hread⟩ := Loader.readGeometry_eq_ok.1 hread
  have hready := (ready_of_readGeometry hread).of_bare (bare_of_bindAll hbind)
  have hdescriptor : keyboard.descriptor = descriptor := by
    obtain ⟨keys, -, rfl⟩ := assemble_eq_ok.1 hassemble
    rfl
  exact ⟨source, hdescriptor ▸ hopen, linked_of_assemble hready hassemble⟩

/-- A keyboard with a button that changes the outline and the keycode of a key in a row. -/
def changedKey : Directory where
  files :=
    [(["kb", "keyboards.xml"],
      ascii "<keyboards><keyboard id='a' geometry='g' symbols='s'/></keyboards>"),
      (["kb", "geometry", "g.xml"], ascii <|
        "<geometry><section>a b</section><button name='b' oref='wide' keycode='20'/>" ++
        "<outline id='default'/><outline id='wide'/></geometry>"),
      (["kb", "symbols", "s.xml"], ascii "<symbols/>")]

theorem changedKey_linked :
    ∃ keyboard, ∃ source : Source,
      ((Loader.ofDirectory changedKey "kb").load "a").result = .ok keyboard ∧
      keyboard.Linked (outlineNamed source.events) ∧
      keyboard.keys.map (fun key => (key.name, key.keycode, key.outline)) =
        [("a", 8, 0), ("b", 20, 1)] ∧
      outlineNamed source.events "b" = "wide" := by
  have hwithin : ((Loader.ofDirectory changedKey "kb").loadWithin 1 "a").map (fun keyboard =>
      (keyboard.descriptor.geometry,
        keyboard.keys.map fun key => (key.name, key.keycode, key.outline))) =
      .ok ("g", [("a", 8, 0), ("b", 20, 1)]) := by decide +kernel
  obtain ⟨keyboard, hwithin, hparts⟩ := map_eq_ok.1 hwithin
  obtain ⟨hgeometry, hkeys⟩ := Prod.mk.inj hparts
  have hload := Loader.load_of_loadWithin hwithin
  obtain ⟨source, hopen, hlinked⟩ := linked_of_load (.inl ⟨"a", hload⟩)
  have hevents :
      ((Loader.ofDirectory changedKey "kb").library.open? ((Name.path "kb").geometry "g")).map
      (fun source => outlineNamed source.events "b") = some "wide" := by decide +kernel
  have hopen' : (Loader.ofDirectory changedKey "kb").library.open? ((Name.path "kb").geometry "g") =
      some source :=
    hgeometry ▸ hopen
  refine ⟨keyboard, source, hload, hlinked, hkeys, ?_⟩
  rw [hopen'] at hevents
  exact Option.some.inj hevents

end KeyLayout.Load
