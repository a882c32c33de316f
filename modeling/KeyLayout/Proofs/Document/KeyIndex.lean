import KeyLayout.Document.Geometry

/-! The index by which the keys of a geometry are found, and the counter that gives them keycodes.
Both go with the keys wherever a document has been read to. -/
namespace KeyLayout.Document
open Markup Model

/-- The keycode that the counter, of 32 bits, has for the key at a position. -/
def autoKeycode (i : Nat) : Nat := (firstKeycode + i) % (1 <<< 32)

theorem autoKeycode_lt (i : Nat) : autoKeycode i < 1 <<< 32 := Nat.mod_lt _ (by decide)

theorem autoKeycode_eq {i : Nat} (h : firstKeycode + i < 1 <<< 32) :
    autoKeycode i = firstKeycode + i :=
  Nat.mod_eq_of_lt h

/-- The keycode of the key behind this one is one more, or the first word. -/
theorem autoKeycode_succ (i : Nat) : autoKeycode (i + 1) = (autoKeycode i + 1) % (1 <<< 32) := by
  simp [autoKeycode, Nat.add_assoc]

theorem map_name_modify {keys : List KeyDraft} {i : Nat} {f : KeyDraft → KeyDraft}
    (hf : ∀ key, (f key).name = key.name) : (keys.modify i f).map (·.name) = keys.map (·.name) := by
  apply List.ext_getElem?
  intro j
  simp only [List.getElem?_map, List.getElem?_modify]
  cases keys[j]? with
  | none => rfl
  | some key => by_cases hij : i = j <;> simp [hij, hf]

namespace Geometry

/-- The numbers in the index are those of keys, each by its name, and all keys are in it. -/
structure Indexed (g : Geometry) : Prop where
  held : ∀ entry ∈ g.names, (g.keys.map (·.name))[entry.2]? = some entry.1
  known : ∀ i name, (g.keys.map (·.name))[i]? = some name → g.findKey? name = some i

namespace Indexed
variable {g : Geometry} {name : String} {i : Nat}

theorem empty : Indexed {} := ⟨by simp, by simp⟩

theorem findKey?_eq_some (h : g.Indexed) :
    g.findKey? name = some i ↔ (g.keys.map (·.name))[i]? = some name := by
  refine ⟨fun hfind => ?_, h.known i name⟩
  obtain ⟨front, back, hnames, -⟩ := List.lookup_eq_some_iff.1 hfind
  exact h.held (name, i) (by simp [hnames])

theorem exists_key (h : g.Indexed) (hi : g.findKey? name = some i) :
    ∃ key, g.keys[i]? = some key ∧ key.name = name := by
  have hname := h.findKey?_eq_some.1 hi
  rwa [List.getElem?_map, Option.map_eq_some_iff] at hname

theorem lt_length (h : g.Indexed) (hi : g.findKey? name = some i) : i < g.keys.length := by
  obtain ⟨key, hkey, -⟩ := h.exists_key hi
  exact (List.getElem?_eq_some_iff.1 hkey).1

theorem findKey?_eq_none (h : g.Indexed) : g.findKey? name = none ↔ name ∉ g.keys.map (·.name) := by
  have hsome : name ∈ g.keys.map (·.name) ↔ ∃ i, g.findKey? name = some i := by
    rw [List.mem_iff_getElem?]
    exact exists_congr fun i => h.findKey?_eq_some.symm
  rw [hsome, not_exists]
  exact Option.eq_none_iff_forall_ne_some

/-- Only the names of the keys count. -/
theorem congr {later : Geometry} (h : g.Indexed) (hnames : later.names = g.names)
    (hkeys : later.keys.map (·.name) = g.keys.map (·.name)) : later.Indexed := by
  constructor
  · rw [hnames, hkeys]
    exact h.held
  · unfold findKey?
    rw [hnames, hkeys]
    exact h.known

theorem modifyKey (h : g.Indexed) {f : KeyDraft → KeyDraft} (hf : ∀ key, (f key).name = key.name) :
    (g.modifyKey i f).Indexed :=
  h.congr rfl (map_name_modify hf)

/-- A key of a new name gets the next number. -/
theorem addKey (h : g.Indexed) {key : KeyDraft} (hnew : g.findKey? key.name = none) :
    (g.addKey key).Indexed := by
  have hfresh := h.findKey?_eq_none.1 hnew
  constructor
  · intro entry hentry
    rcases List.mem_cons.1 hentry with rfl | hentry
    · simp [Geometry.addKey]
    · have hheld := h.held entry hentry
      rw [Geometry.addKey, List.map_append,
        List.getElem?_append_left (List.getElem?_eq_some_iff.1 hheld).1]
      exact hheld
  · intro i name hi
    rw [Geometry.addKey, List.map_append, List.map_singleton] at hi
    by_cases hlt : i < (g.keys.map (·.name)).length
    · rw [List.getElem?_append_left hlt] at hi
      have hne : name ≠ key.name := by
        rintro rfl
        exact hfresh (List.mem_of_getElem? hi)
      have hfound := h.known i name hi
      unfold findKey? at hfound ⊢
      rw [Geometry.addKey, List.lookup_cons, beq_false_of_ne hne]
      exact hfound
    · rw [List.getElem?_append_right (Nat.le_of_not_lt hlt), List.getElem?_singleton] at hi
      split at hi
      next hzero =>
        cases hi
        have hlast : i = g.keys.length := by
          rw [List.length_map] at hlt hzero
          omega
        simp [findKey?, Geometry.addKey, hlast]
      next => simp at hi

theorem introduce {d : GeometryDraft} (h : d.geometry.Indexed) (name : String) :
    (d.introduce name).1.geometry.Indexed := by
  unfold GeometryDraft.introduce
  cases hf : d.geometry.findKey? name with
  | some i => exact h
  | none => exact h.addKey hf

theorem place {d : GeometryDraft} (h : d.geometry.Indexed) (i : Nat) :
    (d.place i).geometry.Indexed := by
  unfold GeometryDraft.place
  split
  · split
    · exact h
    · exact h.modifyKey fun _ => rfl
  · exact h

end Indexed
end Geometry

namespace GeometryDraft

/-- The index of a draft is that of its keys, and its counter has come as far as they are many. -/
structure Numbered (d : GeometryDraft) : Prop where
  indexed : d.geometry.Indexed
  counted : d.nextKeycode.toNat = autoKeycode d.geometry.keys.length

def table (d : GeometryDraft) : List KeyDraft × List (String × Nat) × UInt32 :=
  (d.geometry.keys, d.geometry.names, d.nextKeycode)

theorem keys_of_table {d d' : GeometryDraft} (h : d'.table = d.table) :
    d'.geometry.keys = d.geometry.keys :=
  congrArg Prod.fst h

namespace Numbered
variable {d d' : GeometryDraft} {name : String}

theorem start : Numbered {} := ⟨.empty, rfl⟩

/-- Of the keys only the names count. -/
theorem of_names (h : d.Numbered)
    (hkeys : d'.geometry.keys.map (·.name) = d.geometry.keys.map (·.name))
    (hnames : d'.geometry.names = d.geometry.names) (hcounter : d'.nextKeycode = d.nextKeycode) :
    d'.Numbered := by
  have hlength : d'.geometry.keys.length = d.geometry.keys.length := by
    simpa using congrArg List.length hkeys
  constructor
  · exact h.indexed.congr hnames hkeys
  · rw [hcounter, hlength]
    exact h.counted

theorem congr (h : d.Numbered) (ht : d'.table = d.table) : d'.Numbered :=
  h.of_names (by rw [keys_of_table ht]) (congrArg (·.2.1) ht) (congrArg (·.2.2) ht)

theorem introduce (h : d.Numbered) (name : String) : (d.introduce name).1.Numbered := by
  refine ⟨h.indexed.introduce name, ?_⟩
  unfold GeometryDraft.introduce
  cases hf : d.geometry.findKey? name with
  | some i => exact h.counted
  | none =>
    have hnext : (d.nextKeycode + 1).toNat = (d.nextKeycode.toNat + 1) % (1 <<< 32) :=
      UInt32.toNat_add ..
    simp only [Geometry.addKey, List.length_append, List.length_singleton]
    rw [hnext, h.counted, autoKeycode_succ]

end Numbered

end GeometryDraft
end KeyLayout.Document
