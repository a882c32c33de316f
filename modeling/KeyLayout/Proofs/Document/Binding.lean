import KeyLayout.Document.Symbols
import KeyLayout.Proofs.Document.GeometryReading

/-! What a symbols document leaves alone: everything but the levels of the keys. -/
namespace KeyLayout.Document
open Markup Model

def KeyDraft.bare (key : KeyDraft) : KeyDraft := { key with levels := [] }

/-- A geometry without what its keys produce. -/
def Geometry.bare (g : Geometry) : Geometry := { g with keys := g.keys.map KeyDraft.bare }

theorem Geometry.bare_modifyKey (g : Geometry) (i : Nat) {f : KeyDraft → KeyDraft}
    (hf : ∀ key, (f key).bare = key.bare) : (g.modifyKey i f).bare = g.bare := by
  have hkeys : (g.keys.modify i f).map KeyDraft.bare = g.keys.map KeyDraft.bare := by
    apply List.ext_getElem?
    intro j
    simp only [List.getElem?_map, List.getElem?_modify]
    cases g.keys[j]? with
    | none => rfl
    | some key => by_cases hij : i = j <;> simp [hij, hf]
  simp only [Geometry.bare, Geometry.modifyKey, hkeys]

section bare
variable {keys bound : List KeyDraft} (hb : bound.map KeyDraft.bare = keys.map KeyDraft.bare)
include hb

theorem map_eq_of_bare {α : Type} {f : KeyDraft → α} (hf : ∀ key, f key.bare = f key) :
    bound.map f = keys.map f := by
  have := congrArg (List.map f) hb
  simpa [Function.comp_def, hf] using this

theorem exists_of_bare {key : KeyDraft} (hkey : key ∈ bound) :
    ∃ other ∈ keys, other.bare = key.bare :=
  List.mem_map.1 (hb ▸ List.mem_map_of_mem hkey)

theorem Described.of_bare {given : String → String} (h : Described given keys) :
    Described given bound := by
  have hnames : bound.map (·.name) = keys.map (·.name) := map_eq_of_bare hb fun _ => rfl
  have hlength : bound.length = keys.length := by simpa using congrArg List.length hb
  constructor
  · exact hnames ▸ h.names
  · intro hfew key hkey
    obtain ⟨other, hother, hsame⟩ := exists_of_bare hb hkey
    have hkeycode : other.keycode = key.keycode := congrArg (·.keycode) hsame
    exact hkeycode ▸ h.keycode_ge (hlength ▸ hfew) other hother
  · intro key hkey
    obtain ⟨other, hother, hsame⟩ := exists_of_bare hb hkey
    have hkeycode : other.keycode = key.keycode := congrArg (·.keycode) hsame
    exact hkeycode ▸ h.keycode_lt other hother
  · intro key hkey
    obtain ⟨other, hother, hsame⟩ := exists_of_bare hb hkey
    have hname : other.name = key.name := congrArg (·.name) hsame
    have houtline : other.outline = key.outline := congrArg (·.outline) hsame
    exact hname ▸ houtline ▸ h.outline other hother
  · exact hnames ▸ h.unnamed

end bare

theorem Geometry.findKey?_of_bare {g bound : Geometry} (h : bound.bare = g.bare) (name : String) :
    bound.findKey? name = g.findKey? name := by
  have hnames : bound.names = g.names := congrArg (·.names) h
  rw [findKey?, findKey?, hnames]

theorem Geometry.Indexed.of_bare {g bound : Geometry} (h : g.Indexed) (hb : bound.bare = g.bare) :
    bound.Indexed :=
  h.congr (congrArg (·.names) hb) (map_eq_of_bare (congrArg (·.keys) hb) fun _ => rfl)

theorem Geometry.Ready.of_bare {given : String → String} {g bound : Geometry} (h : g.Ready given)
    (hb : bound.bare = g.bare) : bound.Ready given := by
  have hkeys : bound.keys.map KeyDraft.bare = g.keys.map KeyDraft.bare := congrArg (·.keys) hb
  have hsections : bound.sections = g.sections := congrArg (·.sections) hb
  have houtlines : bound.outlines = g.outlines := congrArg (·.outlines) hb
  have hkeycodes : bound.keys.map (·.keycode) = g.keys.map (·.keycode) :=
    map_eq_of_bare hkeys fun _ => rfl
  have hlength : bound.keys.length = g.keys.length := by simpa using congrArg List.length hkeys
  refine ⟨h.described.of_bare hkeys, h.indexed.of_bare hb, hkeycodes ▸ h.keycodes, ?_, ?_, ?_, ?_⟩
  · exact hsections ▸ h.shown
  · exact hsections ▸ hlength ▸ h.shown_lt
  · exact hsections ▸ h.rows
  · exact houtlines ▸ h.outlines

theorem Geometry.bare_extendLevels (g : Geometry) (i : Nat) (levels : List Level) :
    (g.extendLevels i levels).bare = g.bare :=
  g.bare_modifyKey i fun _ => rfl

namespace SymbolsDraft
variable {d d' : SymbolsDraft} {a : Attributes}

theorem geometry_startKey (h : d.startKey a = .ok d') : d'.geometry = d.geometry := by
  obtain ⟨name, -, h⟩ := bind_eq_ok.1 h
  split at h
  · simp at h
  · obtain ⟨groups, -, h⟩ := bind_eq_ok.1 h
    simp only at h
    split at h
    · simp at h
    · cases h
      rfl

theorem geometry_startSymbol {name : String} (h : d.startSymbol name a = .ok d') :
    d'.geometry = d.geometry := by
  obtain ⟨keyval, -, h⟩ := bind_eq_ok.1 h
  cases h
  rfl

theorem geometry_start {name : String} (h : d.start name a = .ok d') :
    d'.geometry = d.geometry := by
  unfold start at h
  split at h
  · exact geometry_startKey h
  · exact geometry_startSymbol h
  · exact geometry_startSymbol h
  · exact geometry_startSymbol h
  · cases h
    rfl

theorem geometry_stopSymbol (d : SymbolsDraft) (name : String) :
    (d.stopSymbol name).geometry = d.geometry := by
  unfold stopSymbol
  split <;> rfl

theorem geometry_stopKey (d : SymbolsDraft) : d.stopKey.geometry = d.geometry := by
  unfold stopKey
  split
  · rfl
  · simp only
    split <;> rfl

theorem geometry_stop (d : SymbolsDraft) (name : String) : (d.stop name).geometry = d.geometry := by
  unfold stop
  split
  · exact d.geometry_stopKey
  · exact d.geometry_stopSymbol _
  · exact d.geometry_stopSymbol _
  · exact d.geometry_stopSymbol _
  · rfl
  · rfl

/-- The geometry stays as it is while the document is read. -/
theorem geometry_step {event : Event} (h : d.step event = .ok d') : d'.geometry = d.geometry := by
  cases event with
  | start name a path =>
    obtain ⟨_, -, h⟩ := bind_eq_ok.1 h
    exact geometry_start h
  | stop name path =>
    cases h
    exact d.geometry_stop name
  | text text path =>
    cases h
    rfl

theorem bare_bound (d : SymbolsDraft) : d.bound.bare = d.geometry.bare :=
  List.foldlRecOn (motive := fun g => Geometry.bare g = d.geometry.bare) _ _ rfl fun g hg entry _ =>
    (g.bare_extendLevels entry.1 entry.2).trans hg

end SymbolsDraft

theorem Consumer.ofExcept_eq_none {σ : Type} {step : σ → Event → Except Error σ} {s s' : σ}
    {event : Event} : Consumer.ofExcept step s event = (s', none) ↔ step s event = .ok s' := by
  unfold Consumer.ofExcept
  cases step s event <;> simp

theorem Consumer.refusal_ofExcept {σ : Type} {step : σ → Event → Except Error σ} {s : σ}
    {event : Event} {e : Error} :
    (Consumer.ofExcept step s event).2 = some e ↔ step s event = .error e := by
  unfold Consumer.ofExcept
  cases step s event <;> simp

/-- No event changes the geometry, be it taken or refused. -/
theorem SymbolsDraft.geometry_fst_deliver (d : SymbolsDraft) (events : List Event) :
    (deliver (.ofExcept step) d events).1.geometry = d.geometry := by
  refine deliver_keeps (P := fun (d' : SymbolsDraft) => d'.geometry = d.geometry)
    (fun {d'} event h => ?_) rfl events
  cases hs : d'.step event with
  | error e => simpa [Consumer.ofExcept, hs] using h
  | ok next => simpa [Consumer.ofExcept, hs] using (geometry_step hs).trans h

theorem geometry_fst_consume (g : Geometry) (source : Source) :
    (consume (.ofExcept SymbolsDraft.step) { geometry := g } source).1.geometry = g := by
  rw [consume_fst]
  exact SymbolsDraft.geometry_fst_deliver { geometry := g } source.events

theorem bindSymbols_eq_outcome (g : Geometry) (source : Source) : bindSymbols g source =
    outcome SymbolsDraft.bound
      (consume (.ofExcept SymbolsDraft.step) { geometry := g } source) := by
  unfold bindSymbols
  cases consume (.ofExcept SymbolsDraft.step) { geometry := g } source with
  | mk d refusal => cases refusal <;> rfl

theorem bare_bindSymbols {geometry bound : Geometry} {source : Source}
    (h : bindSymbols geometry source = .ok bound) : bound.bare = geometry.bare := by
  unfold bindSymbols at h
  split at h
  next d hconsume =>
    cases h
    have hgeometry : d.geometry = geometry := by
      simpa [hconsume] using geometry_fst_consume geometry source
    exact hgeometry ▸ d.bare_bound
  next => simp at h

namespace SymbolsDraft

/-- Whether an event is refused depends on the names of the keys alone. -/
theorem refusal_of_findKey? {d d' : SymbolsDraft}
    (hnames : ∀ name, d.geometry.findKey? name = d'.geometry.findKey? name)
    {event : Event} {e : Error} (h : d.step event = .error e) : d'.step event = .error e := by
  have hkey : ∀ a, d.startKey a = .error e → d'.startKey a = .error e := by
    intro a h
    rcases bind_eq_error.1 h with hname | ⟨name, hname, h⟩
    · exact bind_eq_error.2 (.inl hname)
    · refine bind_eq_error.2 (.inr ⟨name, hname, ?_⟩)
      rw [hnames] at h
      cases hf : d'.geometry.findKey? name with
      | none => simpa [hf] using h
      | some i =>
        simp only [hf] at h ⊢
        rcases bind_eq_error.1 h with hgroups | ⟨groups, hgroups, h⟩
        · exact bind_eq_error.2 (.inl hgroups)
        · refine bind_eq_error.2 (.inr ⟨groups, hgroups, ?_⟩)
          split at h
          next hzero => simpa [hzero] using h
          next => simp at h
  have hsymbol : ∀ name a, d.startSymbol name a = .error e → d'.startSymbol name a = .error e := by
    intro name a h
    rcases bind_eq_error.1 h with hkeyval | ⟨keyval, -, h⟩
    · exact bind_eq_error.2 (.inl hkeyval)
    · simp at h
  cases event with
  | start name a path =>
    rcases bind_eq_error.1 h with hplace | ⟨_, hplace, h⟩
    · exact bind_eq_error.2 (.inl hplace)
    · refine bind_eq_error.2 (.inr ⟨_, hplace, ?_⟩)
      unfold start at h ⊢
      split at h
      · exact hkey a h
      · exact hsymbol _ a h
      · exact hsymbol _ a h
      · exact hsymbol _ a h
      · simp at h
  | stop name path => cases h
  | text t path => cases h

end SymbolsDraft

/-- What is bound before makes no difference to whether a document is
refused, and for what reason. -/
theorem bindSymbols_error_of_bare {g bound : Geometry} (hb : bound.bare = g.bare)
    {source : Source} {e : Error}
    (h : bindSymbols bound source = .error e) : bindSymbols g source = .error e := by
  rw [bindSymbols_eq_outcome, outcome_eq_error, consume_eq] at h ⊢
  rcases deliver_both (.ofExcept SymbolsDraft.step) (.ofExcept SymbolsDraft.step)
    { geometry := bound } { geometry := g }
      source.events with ⟨d, d', hd, hd'⟩ | ⟨before, event, after, d, d', hevents, hd,
        hd', hrefused⟩
  · rw [hd] at h
    rw [hd']
    exact h
  · have hnames : ∀ name, d.geometry.findKey? name = d'.geometry.findKey? name := by
      have hgeometry := SymbolsDraft.geometry_fst_deliver { geometry := bound } before
      have hgeometry' := SymbolsDraft.geometry_fst_deliver { geometry := g } before
      rw [hd] at hgeometry
      rw [hd'] at hgeometry'
      rw [hgeometry, hgeometry']
      exact Geometry.findKey?_of_bare hb
    have hsame : ∀ cause, d.step event = .error cause ↔ d'.step event = .error cause := fun cause =>
      ⟨SymbolsDraft.refusal_of_findKey? hnames,
        SymbolsDraft.refusal_of_findKey? fun name => (hnames name).symm⟩
    obtain ⟨cause, hcause⟩ : ∃ cause, d.step event = .error cause := by
      cases hs : d.step event with
      | error cause => exact ⟨cause, rfl⟩
      | ok next =>
        cases hs' : d'.step event with
        | error cause => exact absurd ((hsame cause).2 hs') (by simp [hs])
        | ok next' => simp [Consumer.ofExcept, hs, hs'] at hrefused
    rw [hevents, deliver_refused hd (Consumer.refusal_ofExcept.2 hcause), Option.some_or] at h
    rw [hevents, deliver_refused hd' (Consumer.refusal_ofExcept.2 ((hsame cause).1 hcause)),
      Option.some_or]
    exact h

end KeyLayout.Document
