import KeyLayout.Proofs.Document.KeyIndex
import Mathlib.Data.List.Nodup
import Mathlib.Logic.Function.Basic

/-! What holds of keys and their places wherever a geometry document has been read to. -/
namespace KeyLayout.Document
open Markup Model

def outlineAfter (key outline : String) : Event → String
  | .start "button" a _ =>
    if a.get? "name" = some key then (a.get? "oref").getD outline else outline
  | _ => outline

/-- The outline that the last `button` with one gives to a key, else the default. -/
def outlineNamed (events : List Event) (key : String) : String :=
  events.foldl (outlineAfter key) defaultOutline

theorem outlineNamed_append (events : List Event) (event : Event) :
    outlineNamed (events ++ [event]) = fun key =>
      outlineAfter key (outlineNamed events key) event := by
  funext key
  simp [outlineNamed]

theorem outlineAfter_button {a : Attributes} {name : String} {path : List String}
    (hn : a.get? "name" = some name) (given : String → String) :
    (fun key => outlineAfter key (given key) (.start "button" a path)) =
      Function.update given name ((a.get? "oref").getD (given name)) := by
  funext key
  by_cases hk : key = name
  · subst hk
    simp [outlineAfter, hn]
  · have : name ≠ key := Ne.symm hk
    simp [outlineAfter, hn, hk, this]

/-- Where names are distinct, a key behind a change of one key is the changed
one, or one of another name. -/
theorem of_getElem?_modify {keys : List KeyDraft} (hn : (keys.map (·.name)).Nodup) {i j : Nat}
    {key x : KeyDraft}
    (hi : keys[i]? = some key) {f : KeyDraft → KeyDraft} (hj : (keys.modify i f)[j]? = some x) :
    j = i ∧ x = f key ∨ keys[j]? = some x ∧ x.name ≠ key.name := by
  rw [List.getElem?_modify] at hj
  by_cases hij : i = j
  · subst hij
    simp only [hi, if_pos, Option.map_eq_map, Option.map_some, Option.some.injEq] at hj
    exact .inl ⟨rfl, hj.symm⟩
  · simp only [hij, if_false, Option.map_eq_map, Option.map_id'] at hj
    refine .inr ⟨hj, fun hname => hij ?_⟩
    have hlt : i < (keys.map (·.name)).length := by
      simpa using (List.getElem?_eq_some_iff.1 hi).1
    exact (List.getElem?_inj hlt hn).1 (by simp [hi, hj, hname])

/-- Names differ, keycodes have 32 bits and start at the first unless the counter has wrapped, and
each key has the outline given to its name. -/
structure Described (given : String → String) (keys : List KeyDraft) : Prop where
  names : (keys.map (·.name)).Nodup
  keycode_ge : firstKeycode + keys.length ≤ 1 <<< 32 → ∀ key ∈ keys, firstKeycode ≤ key.keycode
  keycode_lt : ∀ key ∈ keys, key.keycode < 1 <<< 32
  outline : ∀ key ∈ keys, key.outline = given key.name
  unnamed : ∀ name ∉ keys.map (·.name), given name = defaultOutline

namespace Described
variable {given : String → String} {keys : List KeyDraft} {key : KeyDraft} {i : Nat}

theorem add (h : Described given keys) {name : String} (hn : name ∉ keys.map (·.name)) :
    Described given (keys ++ [{ name, keycode := autoKeycode keys.length }]) where
  names := by
    rw [List.map_append, List.nodup_append]
    refine ⟨h.names, by simp, ?_⟩
    rintro a ha b hb rfl
    exact hn (by simp_all)
  keycode_ge := by
    intro hfew key hkey
    rw [List.length_append, List.length_singleton] at hfew
    rcases List.mem_append.1 hkey with hkey | hkey
    · exact h.keycode_ge (by omega) key hkey
    · obtain rfl := List.mem_singleton.1 hkey
      have hlast := autoKeycode_eq (i := keys.length) (by omega)
      simp only [hlast]
      exact Nat.le_add_right ..
  keycode_lt := by
    intro key hkey
    rcases List.mem_append.1 hkey with hkey | hkey
    · exact h.keycode_lt key hkey
    · obtain rfl := List.mem_singleton.1 hkey
      exact autoKeycode_lt _
  outline := by
    intro key hkey
    rcases List.mem_append.1 hkey with hkey | hkey
    · exact h.outline key hkey
    · obtain rfl := List.mem_singleton.1 hkey
      exact (h.unnamed name hn).symm
  unnamed := by
    intro other hother
    exact h.unnamed other fun hmem => hother (by simp [hmem])

/-- A key of the list with one key changed is the changed one, or one of another name. -/
theorem of_mem_modify (h : Described given keys) (hi : keys[i]? = some key)
    {f : KeyDraft → KeyDraft}
    {x : KeyDraft} (hx : x ∈ keys.modify i f) : x = f key ∨ x ∈ keys ∧ x.name ≠ key.name := by
  obtain ⟨j, hj⟩ := List.mem_iff_getElem?.1 hx
  rcases of_getElem?_modify h.names hi hj with ⟨-, rfl⟩ | ⟨hj, hne⟩
  · exact .inl rfl
  · exact .inr ⟨List.mem_of_getElem? hj, hne⟩

theorem modify (h : Described given keys) (hi : keys[i]? = some key) {f : KeyDraft → KeyDraft}
    (hf : ∀ key, (f key).name = key.name)
    (hge : firstKeycode + keys.length ≤ 1 <<< 32 → firstKeycode ≤ (f key).keycode)
    (hlt : (f key).keycode < 1 <<< 32) :
    Described (Function.update given key.name (f key).outline) (keys.modify i f) where
  names := by
    rw [map_name_modify hf]
    exact h.names
  keycode_ge := by
    intro hfew x hx
    rw [List.length_modify] at hfew
    rcases h.of_mem_modify hi hx with rfl | ⟨hx, -⟩
    · exact hge hfew
    · exact h.keycode_ge hfew x hx
  keycode_lt := by
    intro x hx
    rcases h.of_mem_modify hi hx with rfl | ⟨hx, -⟩
    · exact hlt
    · exact h.keycode_lt x hx
  outline := by
    intro x hx
    rcases h.of_mem_modify hi hx with rfl | ⟨hx, hname⟩
    · rw [hf, Function.update_self]
    · rw [Function.update_of_ne hname]
      exact h.outline x hx
  unnamed := by
    intro name hname
    rw [map_name_modify hf] at hname
    have hne : name ≠ key.name := by
      rintro rfl
      exact hname (List.mem_map_of_mem (List.mem_of_getElem? hi))
    rw [Function.update_of_ne hne]
    exact h.unnamed name hname

/-- A change that leaves name, keycode and outline of a key alone. -/
theorem modify_place (h : Described given keys) (hi : keys[i]? = some key) :
    Described given (keys.modify i fun key => { key with placed := true }) := by
  have hkey := List.mem_of_getElem? hi
  have := h.modify hi (f := fun key => { key with placed := true }) (fun _ => rfl)
    (fun hfew => h.keycode_ge hfew key hkey) (h.keycode_lt key hkey)
  rwa [h.outline key hkey, Function.update_eq_self] at this

end Described

def SectionDraft.keys (s : SectionDraft) : List Nat := s.rows.flatten ++ s.row

theorem SectionDraft.keys_endRow (s : SectionDraft) : s.endRow.keys = s.keys := by
  unfold endRow
  split
  · rfl
  · simp [keys]

theorem SectionDraft.row_endRow (s : SectionDraft) : s.endRow.row = [] := by
  unfold endRow
  split
  next h => exact List.isEmpty_iff.1 h
  · rfl

theorem SectionDraft.nil_not_mem_rows_endRow {s : SectionDraft} (h : [] ∉ s.rows) :
    [] ∉ s.endRow.rows := by
  unfold endRow
  split
  · exact h
  next hrow =>
    have : s.row ≠ [] := fun hnil => hrow (by simp [hnil])
    simp [h, this.symm]

def Placed (keys : List KeyDraft) (i : Nat) : Prop := ∃ key, keys[i]? = some key ∧ key.placed = true

theorem Placed.append {keys : List KeyDraft} {i : Nat} (h : Placed keys i) (more : List KeyDraft) :
    Placed (keys ++ more) i := by
  obtain ⟨key, hkey, hplaced⟩ := h
  have hlt := (List.getElem?_eq_some_iff.1 hkey).1
  exact ⟨key, by rw [List.getElem?_append_left hlt, hkey], hplaced⟩

theorem Placed.modify {keys : List KeyDraft} {i : Nat} (h : Placed keys i) (j : Nat)
    {f : KeyDraft → KeyDraft}
    (hf : ∀ key, key.placed = true → (f key).placed = true) : Placed (keys.modify j f) i := by
  obtain ⟨key, hkey, hplaced⟩ := h
  by_cases hj : j = i
  · exact ⟨f key, by simp [hj, hkey], hf key hplaced⟩
  · exact ⟨key, by simp [hj, hkey], hplaced⟩

theorem placed_modify_self {keys : List KeyDraft} {i : Nat} {key : KeyDraft}
    (hi : keys[i]? = some key) : Placed (keys.modify i fun key => { key with placed := true }) i :=
  ⟨{ key with placed := true }, by simp [hi], rfl⟩

namespace GeometryDraft

/-- The keys that the sections show, the open one behind the others. -/
def shown (d : GeometryDraft) : List Nat :=
  d.geometry.sections.flatMap Section.keys ++ d.openSection.elim [] SectionDraft.keys

/-- The sections show keys that exist and have a place, none of them twice, and no empty row. -/
structure Arranged (d : GeometryDraft) : Prop where
  nodup : d.shown.Nodup
  placed : ∀ i ∈ d.shown, Placed d.geometry.keys i
  rows : ∀ s ∈ d.geometry.sections, [] ∉ s.rows
  openRows : ∀ s, d.openSection = some s → [] ∉ s.rows

/-- The keys are described and numbered, sections show them once, and no
outline is defined twice. -/
structure Sound (given : String → String) (d : GeometryDraft) : Prop where
  described : Described given d.geometry.keys
  numbered : d.Numbered
  arranged : d.Arranged
  outlines : (d.geometry.outlines.entries.map (·.1)).Nodup

theorem sound_start : Sound (outlineNamed []) {} where
  described := ⟨by simp, by simp, by simp, by simp, fun _ _ => rfl⟩
  numbered := .start
  arranged := ⟨by simp [shown], by simp [shown], by simp, by simp⟩
  outlines := by simp

variable {given : String → String} {d : GeometryDraft}

/-- Keys may change if those with a place keep it, while the sections stay as they are. -/
theorem Arranged.of_keys {d' : GeometryDraft} (h : d.Arranged)
    (hs : d'.geometry.sections = d.geometry.sections) (ho : d'.openSection = d.openSection)
    (hk : ∀ i, Placed d.geometry.keys i → Placed d'.geometry.keys i) : d'.Arranged where
  nodup := by simpa [shown, hs, ho] using h.nodup
  placed := by
    intro i hi
    exact hk i (h.placed i (by simpa [shown, hs, ho] using hi))
  rows := by simpa [hs] using h.rows
  openRows := by simpa [ho] using h.openRows

/-- The open section may change if it shows the same keys. -/
theorem Arranged.of_openSection (h : d.Arranged) {s s' : SectionDraft} (ho : d.openSection = some s)
    (hkeys : s'.keys = s.keys) (hrows : [] ∉ s.rows → [] ∉ s'.rows) :
    Arranged { d with openSection := some s' } := by
  have hshown : shown { d with openSection := some s' } = d.shown := by simp [shown, ho, hkeys]
  refine ⟨hshown ▸ h.nodup, hshown ▸ h.placed, h.rows, ?_⟩
  rintro _ ⟨⟩
  exact hrows (h.openRows s ho)

/-- A key without a place gets one behind the row of the open section. -/
theorem Arranged.place (h : d.Arranged) {s : SectionDraft} {i : Nat} {key : KeyDraft}
    (ho : d.openSection = some s)
    (hi : d.geometry.keys[i]? = some key) (hfree : key.placed = false) :
    Arranged { d with
      geometry := d.geometry.modifyKey i fun key => { key with placed := true }
      openSection := some { s with row := s.row ++ [i] } } := by
  have hnew : i ∉ d.shown := by
    intro hmem
    obtain ⟨key', hkey', hplaced⟩ := h.placed i hmem
    simp_all
  have hshown : shown { d with
      geometry := d.geometry.modifyKey i fun key => { key with placed := true }
      openSection := some { s with row := s.row ++ [i] } } = d.shown ++ [i] := by
    simp [shown, ho, SectionDraft.keys, Geometry.modifyKey]
  constructor
  · rw [hshown]
    exact h.nodup.append (List.nodup_singleton i) (by simpa using hnew)
  · rw [hshown]
    intro j hj
    rcases List.mem_append.1 hj with hj | hj
    · exact (h.placed j hj).modify i fun _ _ => rfl
    · obtain rfl := List.mem_singleton.1 hj
      exact placed_modify_self hi
  · exact h.rows
  · rintro _ ⟨⟩
    exact h.openRows s ho

/-- Only keys, sections and outlines count. -/
theorem Sound.congr {d' : GeometryDraft} (h : Sound given d) (hk : d'.table = d.table)
    (hs : d'.geometry.sections = d.geometry.sections) (ho : d'.openSection = d.openSection)
    (ht : d'.geometry.outlines = d.geometry.outlines) : Sound given d' :=
  have hkeys := keys_of_table hk
  ⟨hkeys ▸ h.described, h.numbered.congr hk, h.arranged.of_keys hs ho fun _ hi => hkeys ▸ hi,
    ht ▸ h.outlines⟩

theorem Sound.of_openSection (h : Sound given d) {s s' : SectionDraft} (ho : d.openSection = some s)
    (hkeys : s'.keys = s.keys) (hrows : [] ∉ s.rows → [] ∉ s'.rows) :
    Sound given { d with openSection := some s' } :=
  ⟨h.described, h.numbered.congr rfl, h.arranged.of_openSection ho hkeys hrows, h.outlines⟩

theorem Sound.introduce (h : Sound given d) (name : String) : Sound given (d.introduce name).1 := by
  have hnumbered := h.numbered.introduce name
  unfold GeometryDraft.introduce at hnumbered ⊢
  cases hf : d.geometry.findKey? name with
  | some i => exact h
  | none =>
    rw [hf] at hnumbered
    have hnew := h.described.add (h.numbered.indexed.findKey?_eq_none.1 hf)
    rw [← h.numbered.counted] at hnew
    exact ⟨hnew, hnumbered, h.arranged.of_keys rfl rfl fun i hi => hi.append _, h.outlines⟩

/-- The number that stands for a name is that of a key, if the index is right. -/
theorem introduce_named (h : d.geometry.Indexed) (name : String) :
    ∃ key, (d.introduce name).1.geometry.keys[(d.introduce name).2]? = some key ∧
      key.name = name := by
  unfold introduce
  cases hf : d.geometry.findKey? name with
  | some i => exact h.exists_key hf
  | none => simp [Geometry.addKey]

theorem Sound.place (h : Sound given d) (i : Nat) : Sound given (d.place i) := by
  unfold GeometryDraft.place
  split
  next s key ho hi =>
    split
    · exact h.congr rfl rfl rfl rfl
    next hfree =>
      exact ⟨h.described.modify_place hi,
        h.numbered.of_names (map_name_modify fun _ => rfl) rfl rfl,
        h.arranged.place ho hi (by simpa using hfree), h.outlines⟩
  next => exact h

theorem Sound.mention (h : Sound given d) (name : String) : Sound given (d.mention name) :=
  (h.introduce name).place _

theorem Sound.endRow (h : Sound given d) : Sound given d.endRow := by
  unfold GeometryDraft.endRow
  cases ho : d.openSection with
  | none => exact h.congr rfl rfl ho.symm rfl
  | some s => exact h.of_openSection ho s.keys_endRow SectionDraft.nil_not_mem_rows_endRow

/-- What mentions of keys and ends of rows keep, the content of a section keeps. -/
theorem readContent_induction {P : GeometryDraft → Prop}
    (hmention : ∀ {d} name, P d → P (d.mention name)) (hrow : ∀ {d}, P d → P d.endRow)
    (hcontent : ∀ {d s}, d.openSection = some s → P d →
      P { d with openSection := some { s with content := "" } })
    (h : P d) : P d.readContent := by
  have hline : ∀ {d} line, P d → P (d.readLine line) := by
    intro d line hd
    exact List.foldlRecOn _ _ hd fun d hd name _ => hmention name hd
  unfold readContent
  cases ho : d.openSection with
  | none => exact h
  | some s =>
    have hd := hcontent ho h
    simp only
    cases Text.lines s.content.toList with
    | nil => exact hd
    | cons first more =>
      exact List.foldlRecOn _ _ (hline first hd) fun d hd line _ => hline line (hrow hd)

theorem Sound.readContent (h : Sound given d) : Sound given d.readContent :=
  readContent_induction (fun name h => h.mention name) (fun h => h.endRow)
    (fun ho h => h.of_openSection ho rfl id) h

end GeometryDraft

end KeyLayout.Document
