import KeyLayout.Model.Outline
import KeyLayout.Proofs.Distinct

/-! Outlines are found by the ids under which they are stored, and a table of its
entries is the table itself. -/
namespace KeyLayout.Model.OutlineTable

variable {t : OutlineTable} {id other : String} {handle : Nat}

theorem entry_of_handle? (h : t.handle? id = some handle) :
    ∃ outline, t.entries[handle]? = some (id, outline) := by
  obtain ⟨hlt, hid, -⟩ := List.findIdx?_eq_some_iff_getElem.1 h
  refine ⟨t.entries[handle].2, ?_⟩
  rw [List.getElem?_eq_getElem hlt]
  congr 1
  exact Prod.ext (by simpa using hid) rfl

theorem handle?_eq_none : t.handle? id = none ↔ id ∉ t.entries.map (·.1) := by
  constructor
  · intro h hmem
    obtain ⟨entry, hentry, hid⟩ := List.mem_map.1 hmem
    have := List.findIdx?_eq_none_iff.1 h entry hentry
    simp [hid] at this
  · intro h
    refine List.findIdx?_eq_none_iff.2 fun entry hentry => ?_
    have hne : entry.1 ≠ id := by
      rintro rfl
      exact h (List.mem_map_of_mem hentry)
    simpa using hne

/-- An id that is known stays where it is, and another comes behind the others. -/
theorem ids_intern (t : OutlineTable) (id : String) (outline : Outline) :
    (t.intern id outline).1.entries.map (·.1) =
      if id ∈ t.entries.map (·.1) then t.entries.map (·.1) else t.entries.map (·.1) ++ [id] := by
  unfold intern
  cases hh : t.handle? id with
  | some handle =>
    obtain ⟨before, hbefore⟩ := entry_of_handle? hh
    have hid : (t.entries.map (·.1))[handle]? = some id := by simp [hbefore]
    rw [if_pos (List.mem_of_getElem? hid), List.map_set]
    obtain ⟨hlt, hid⟩ := List.getElem?_eq_some_iff.1 hid
    exact hid ▸ List.set_getElem_self hlt
  | none =>
    rw [if_neg (handle?_eq_none.1 hh)]
    simp

theorem mem_ids_intern {outline : Outline} : other ∈ (t.intern id outline).1.entries.map (·.1) ↔
    other ∈ t.entries.map (·.1) ∨ other = id := by
  rw [ids_intern]
  split
  next hid =>
    refine ⟨.inl, ?_⟩
    rintro (h | rfl)
    · exact h
    · exact hid
  next => rw [List.mem_append, List.mem_singleton]

theorem nodup_ids_intern (h : (t.entries.map (·.1)).Nodup) (outline : Outline) :
    ((t.intern id outline).1.entries.map (·.1)).Nodup := by
  rw [ids_intern]
  split
  · exact h
  next hid => exact h.append (List.nodup_singleton id) (by simpa using hid)

theorem handle?_eq_some (h : (t.entries.map (·.1)).Nodup) :
    t.handle? id = some handle ↔ (t.entries.map (·.1))[handle]? = some id := by
  constructor
  · intro hfind
    obtain ⟨outline, hentry⟩ := entry_of_handle? hfind
    simp [hentry]
  · intro hid
    cases hfind : t.handle? id with
    | none => exact absurd (List.mem_of_getElem? hid) (handle?_eq_none.1 hfind)
    | some other =>
      obtain ⟨outline, hentry⟩ := entry_of_handle? hfind
      have hlt : handle < (t.entries.map (·.1)).length := (List.getElem?_eq_some_iff.1 hid).1
      have hsame : handle = other := (List.getElem?_inj hlt h).1 (by simp [hid, hentry])
      rw [hsame]

/-- Where ids are distinct, every entry is found under its id. -/
theorem lookup_of_mem {entries : List (String × Outline)} (hn : (entries.map (·.1)).Nodup)
    {entry : String × Outline} (h : entry ∈ entries) : entries.lookup entry.1 = some entry.2 := by
  induction entries with
  | nil => simp at h
  | cons first entries ih =>
    obtain ⟨hfirst, hn⟩ := List.nodup_cons.1 hn
    rw [List.lookup_cons]
    rcases List.mem_cons.1 h with rfl | h
    · simp
    · have hne : entry.1 ≠ first.1 := fun hid => hfirst (List.mem_map.2 ⟨entry, h, hid⟩)
      rw [beq_eq_false_iff_ne.2 hne]
      exact ih hn h

/-- Replacing the first entry of an id changes what is found under this id, and nothing else. -/
theorem lookup_set {entries : List (String × Outline)}
    (h : entries.findIdx? (·.1 == id) = some handle) (other : String) (outline : Outline) :
    (entries.set handle (id, outline)).lookup other = if other = id then some outline
      else entries.lookup other := by
  induction entries generalizing handle with
  | nil => simp at h
  | cons entry entries ih =>
    obtain ⟨first, before⟩ := entry
    rw [List.findIdx?_cons] at h
    by_cases hfirst : first = id
    · obtain rfl : 0 = handle := by simpa [hfirst] using h
      by_cases hother : other = id
      · simp [hother]
      · simp [List.lookup_cons, hother, hfirst, beq_eq_false_iff_ne.2 hother]
    · obtain ⟨i, hi, rfl⟩ : ∃ i, entries.findIdx? (·.1 == id) = some i ∧
        i + 1 = handle := by simpa [hfirst] using h
      rw [List.set_cons_succ, List.lookup_cons, List.lookup_cons, ih hi]
      by_cases hother : other = first
      · simp [hother, hfirst]
      · simp [beq_eq_false_iff_ne.2 hother]

theorem lookup_intern (t : OutlineTable) (id other : String) (outline : Outline) :
    (t.intern id outline).1.entries.lookup other = if other = id then some outline
      else t.entries.lookup other := by
  unfold intern
  cases hfind : t.handle? id with
  | none =>
    have hnone : t.entries.lookup id = none := by
      refine List.lookup_eq_none_iff.2 fun entry hentry => ?_
      have hne : entry.1 ≠ id :=
        fun hid => handle?_eq_none.1 hfind (hid ▸ List.mem_map_of_mem hentry)
      simpa using hne.symm
    rw [List.lookup_append, List.lookup_cons, List.lookup_nil]
    by_cases hid : other = id
    · simp [hid, hnone]
    · simp [hid, beq_eq_false_iff_ne.2 hid]
  | some handle => exact lookup_set hfind other outline

variable (entries : List (String × Outline))

theorem ofEntries_append_singleton (entry : String × Outline) :
    ofEntries (entries ++ [entry]) = ((ofEntries entries).intern entry.1 entry.2).1 := by
  simp [ofEntries]

/-- The ids of a new table come in the order of their first entries. -/
theorem ids_ofEntries :
    (ofEntries entries).entries.map (·.1) = (entries.map (·.1)).eraseDups := by
  induction entries using List.reverseRecOn with
  | nil => rfl
  | append_singleton entries entry ih =>
    rw [ofEntries_append_singleton, ids_intern, ih, List.map_append, List.map_singleton,
      eraseDups_concat]
    simp only [List.mem_eraseDups]

theorem nodup_ids_ofEntries : ((ofEntries entries).entries.map (·.1)).Nodup := by
  rw [ids_ofEntries]
  exact nodup_eraseDups _

/-- The ids of a new table are those of the entries, however often they come. -/
theorem mem_ids_ofEntries :
    id ∈ (ofEntries entries).entries.map (·.1) ↔ id ∈ entries.map (·.1) := by
  induction entries using List.reverseRecOn with
  | nil => simp [ofEntries]
  | append_singleton entries entry ih =>
    rw [ofEntries_append_singleton, mem_ids_intern, ih, List.map_append, List.mem_append]
    simp

/-- Under an id there is the outline that comes last under it. -/
theorem lookup_ofEntries (id : String) :
    (ofEntries entries).entries.lookup id = entries.reverse.lookup id := by
  induction entries using List.reverseRecOn with
  | nil => rfl
  | append_singleton entries entry ih =>
    rw [ofEntries_append_singleton, lookup_intern, ih, List.reverse_append, List.reverse_singleton,
      List.singleton_append, List.lookup_cons]
    by_cases hid : id = entry.1
    · simp [hid]
    · simp [hid, beq_eq_false_iff_ne.2 hid]

theorem handle?_ofEntries_eq_none (t : OutlineTable) :
    (ofEntries t.entries).handle? id = none ↔ t.handle? id = none := by
  rw [handle?_eq_none, handle?_eq_none, mem_ids_ofEntries]

theorem ofEntries_entries (t : OutlineTable) (h : (t.entries.map (·.1)).Nodup) :
    ofEntries t.entries = t := by
  obtain ⟨entries⟩ := t
  simp only at h ⊢
  induction entries using List.reverseRecOn with
  | nil => rfl
  | append_singleton entries entry ih =>
    rw [List.map_append, List.nodup_append] at h
    have hnew : (⟨entries⟩ : OutlineTable).handle? entry.1 = none := by
      refine handle?_eq_none.2 fun hmem => ?_
      exact h.2.2 entry.1 hmem entry.1 (by simp) rfl
    rw [ofEntries_append_singleton, ih h.1, intern, hnew]

end KeyLayout.Model.OutlineTable
