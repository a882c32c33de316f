import KeyLayout.Model.OutlineStore
import KeyLayout.Proofs.Model.Outlines

/-! The numbers of outlines: an id is numbered when it first comes, and keeps its number. Where
symbols stand for the ids, the answers are the same. -/
namespace KeyLayout.Model

namespace OutlineTable

variable {t : OutlineTable} {id other : String} {handle : Nat} {outline : Outline}

/-- Only the ids decide where an id is found. -/
theorem handle?_eq_findIdx? (t : OutlineTable) (id : String) :
    t.handle? id = (t.entries.map (·.1)).findIdx? (· == id) := by
  rw [List.findIdx?_map]
  rfl

theorem id?_eq_getElem? (t : OutlineTable) (handle : Nat) :
    t.id? handle = (t.entries.map (·.1))[handle]? :=
  List.getElem?_map.symm

theorem id?_eq_some (h : (t.entries.map (·.1)).Nodup) :
    t.id? handle = some id ↔ t.handle? id = some handle := by
  rw [handle?_eq_some h, id?_eq_getElem?]

/-- The number that is given is the one under which the id is found, and other ids
are found where they were. -/
theorem handle?_intern (t : OutlineTable) (id other : String) (outline : Outline) :
    (t.intern id outline).1.handle? other =
      if other = id then some (t.intern id outline).2 else t.handle? other := by
  rw [handle?_eq_findIdx?, ids_intern, handle?_eq_findIdx? t other]
  unfold intern
  cases hfind : t.handle? id with
  | some handle =>
    obtain ⟨before, hentry⟩ := entry_of_handle? hfind
    rw [if_pos (List.mem_map.2 ⟨_, List.mem_of_getElem? hentry, rfl⟩)]
    by_cases hother : other = id
    · rw [if_pos hother, hother, ← handle?_eq_findIdx?, hfind]
    · rw [if_neg hother]
  | none =>
    rw [if_neg (handle?_eq_none.1 hfind), List.findIdx?_append, ← handle?_eq_findIdx?]
    by_cases hother : other = id
    · simp [hother, hfind, size]
    · simp [hother, Ne.symm hother, List.findIdx?_cons]

/-- An outline is put where its id is found, and nothing else moves. -/
theorem getElem?_intern (t : OutlineTable) (id : String) (outline : Outline) (handle : Nat) :
    (t.intern id outline).1.entries[handle]? =
      if handle = (t.intern id outline).2 then some (id, outline) else t.entries[handle]? := by
  unfold intern
  cases hfind : t.handle? id with
  | some known =>
    obtain ⟨before, hentry⟩ := entry_of_handle? hfind
    obtain ⟨hlt, -⟩ := List.getElem?_eq_some_iff.1 hentry
    simp only [List.getElem?_set, hlt]
    grind
  | none =>
    simp only [List.getElem?_append, size]
    grind

theorem get?_intern_of_ne (t : OutlineTable) (id : String) (outline : Outline)
    (h : handle ≠ (t.intern id outline).2) :
    (t.intern id outline).1.get? handle = t.get? handle := by
  simp [get?, getElem?_intern, h]

theorem id?_intern_of_ne (t : OutlineTable) (id : String) (outline : Outline)
    (h : handle ≠ (t.intern id outline).2) : (t.intern id outline).1.id? handle = t.id? handle := by
  simp [id?, getElem?_intern, h]

theorem numbers_numbered (t : OutlineTable) : t.numbered.map (·.1) = List.range t.size := by
  simp [numbered, size, List.zipIdx_eq_zip_range', Function.comp_def, List.map_snd_zip,
    List.range_eq_range']

theorem mem_numbered (t : OutlineTable) {entry : Nat × String × Outline} (h : entry ∈ t.numbered) :
    t.id? entry.1 = some entry.2.1 ∧ t.get? entry.1 = some entry.2.2 := by
  obtain ⟨⟨stored, handle⟩, hstored, rfl⟩ := List.mem_map.1 h
  have hstored : t.entries[handle]? = some stored := List.mk_mem_zipIdx_iff_getElem?.1 hstored
  simp [id?, get?, hstored]

variable {before after : List (String × Outline)}

/-- An id keeps its number, whatever comes behind it. -/
theorem handle?_grows (h : (ofEntries before).handle? id = some handle)
    (after : List (String × Outline)) : (ofEntries (before ++ after)).handle? id = some handle := by
  rw [handle?_eq_some (nodup_ids_ofEntries _), ids_ofEntries] at h ⊢
  rw [List.map_append]
  obtain ⟨more, hmore⟩ := eraseDups_grows (before.map (·.1)) (after.map (·.1))
  rw [← hmore, List.getElem?_append_left (List.getElem?_eq_some_iff.1 h).1, h]

theorem handle?_given (before after : List (String × Outline)) (id : String) (outline : Outline) :
    (ofEntries (before ++ (id, outline) :: after)).handle? id =
      some ((ofEntries before).intern id outline).2 := by
  rw [List.append_cons]
  refine handle?_grows ?_ after
  rw [ofEntries_append_singleton, handle?_intern, if_pos rfl]

/-- A new id gets the next number. -/
theorem handle_intern_new (before : List (String × Outline)) (outline : Outline)
    (h : id ∉ before.map (·.1)) :
    ((ofEntries before).intern id outline).2 = (before.map (·.1)).eraseDups.length := by
  have hnone : (ofEntries before).handle? id = none :=
    handle?_eq_none.2 fun hmem => h ((mem_ids_ofEntries before).1 hmem)
  rw [intern, hnone, ← ids_ofEntries, List.length_map]
  rfl

/-- The outline that was stored last is found under the number of its id. -/
theorem get?_last (before : List (String × Outline)) (outline : Outline)
    (h : id ∉ after.map (·.1)) :
    ((ofEntries (before ++ (id, outline) :: after)).handle? id).bind
      (ofEntries (before ++ (id, outline) :: after)).get? =
      some outline := by
  obtain ⟨stored, hstored⟩ := entry_of_handle? (handle?_given before after id outline)
  have hlookup := lookup_of_mem (nodup_ids_ofEntries _) (List.mem_of_getElem? hstored)
  have hlast : after.reverse.lookup id = none := by
    refine List.lookup_eq_none_iff.2 fun entry hentry => ?_
    have hne : id ≠ entry.1 :=
      fun hid => h (List.mem_map.2 ⟨entry, List.mem_reverse.1 hentry, hid.symm⟩)
    simpa using hne
  rw [lookup_ofEntries] at hlookup
  have hsame : outline = stored := by simpa [List.lookup_append, hlast] using hlookup
  rw [handle?_given, Option.bind_some, get?, hstored, hsame]
  rfl

end OutlineTable

/-! Symbols in the place of ids -/

variable {State Symbol : Type}

namespace Interner

/-- Strings that were given have symbols, which they keep and which give them back. -/
structure Lawful (i : Interner State Symbol) : Prop where
  given (strings : List String) (string : String) :
    i.get? (i.after (strings ++ [string])) string = some (i.intern (i.after strings) string).2
  kept {strings : List String} {string : String} {symbol : Symbol} (more : String) :
    i.get? (i.after strings) string = some symbol →
      i.get? (i.after (strings ++ [more])) string = some symbol
  resolved {strings : List String} {string : String} {symbol : Symbol} :
    i.get? (i.after strings) string = some symbol →
      i.resolve? (i.after strings) symbol = some string

variable {i : Interner State Symbol} {strings : List String} {string other : String}
    {symbol : Symbol}

theorem after_concat (i : Interner State Symbol) (strings : List String) (string : String) :
    i.after (strings ++ [string]) = (i.intern (i.after strings) string).1 := by
  simp [after]

/-- Different strings have different symbols. -/
theorem Lawful.eq_of_get? (h : i.Lawful) (hs : i.get? (i.after strings) string = some symbol)
    (ho : i.get? (i.after strings) other = some symbol) : string = other :=
  Option.some_inj.1 ((h.resolved hs).symm.trans (h.resolved ho))

/-- A string that is given again gets the symbol that it has. -/
theorem Lawful.intern_of_get? (h : i.Lawful) (hs : i.get? (i.after strings) string = some symbol) :
    (i.intern (i.after strings) string).2 = symbol :=
  Option.some_inj.1 ((h.given strings string).symm.trans (h.kept string hs))

theorem Lawful.exists_of_mem (h : i.Lawful) (hs : string ∈ strings) :
    ∃ symbol, i.get? (i.after strings) string = some symbol := by
  induction strings using List.reverseRecOn with
  | nil => simp at hs
  | append_singleton strings more ih =>
    rcases List.mem_append.1 hs with hs | hs
    · obtain ⟨symbol, hsymbol⟩ := ih hs
      exact ⟨symbol, h.kept more hsymbol⟩
    · rw [List.mem_singleton.1 hs]
      exact ⟨_, h.given strings more⟩

theorem after_dense (strings : List String) : dense.after strings = strings.eraseDups := by
  induction strings using List.reverseRecOn with
  | nil => rfl
  | append_singleton strings string ih =>
    rw [after_concat, ih, eraseDups_concat]
    simp [dense]

theorem get?_dense (strings : List String) (string : String) :
    dense.get? (dense.after strings) string =
      if string ∈ strings then some (strings.eraseDups.idxOf string) else none := by
  rw [after_dense]
  simp [dense]

theorem dense_lawful : dense.Lawful where
  given strings string := by
    rw [get?_dense, if_pos (by simp), eraseDups_concat, after_dense]
    split
    · rfl
    next hnew =>
      have hnew : string ∉ strings.eraseDups := by simpa using hnew
      simp [dense, List.idxOf_append_of_notMem hnew, List.idxOf_of_notMem hnew]
  kept {strings string symbol} more h := by
    rw [get?_dense] at h ⊢
    split at h
    next hmem =>
      rw [if_pos (List.mem_append_left _ hmem), ← h]
      exact congrArg
        some ((eraseDups_grows strings [more]).idxOf_eq_of_mem (List.mem_eraseDups.2 hmem)).symm
    next => cases h
  resolved {strings string symbol} h := by
    rw [get?_dense] at h
    split at h
    next hmem =>
      cases h
      rw [after_dense]
      exact List.getElem?_idxOf (List.mem_eraseDups.2 hmem)
    next => cases h

end Interner

namespace OutlineStore

variable [DecidableEq Symbol] {i : Interner State Symbol}

theorem ids_intern (t : OutlineStore State Symbol) (id : String) (outline : Outline) :
    (t.intern i id outline).1.ids = (i.intern t.ids id).1 := by
  unfold intern
  simp only
  split <;> rfl

/-- The symbol of the id is found under the number that is given, and
other symbols where they were. -/
theorem lookup_intern (t : OutlineStore State Symbol) (id : String) (outline : Outline)
    (symbol : Symbol) :
    (t.intern i id outline).1.handles.lookup symbol =
      if symbol = (i.intern t.ids id).2 then some (t.intern i id outline).2
      else t.handles.lookup symbol := by
  unfold intern
  cases hfind : t.handles.lookup (i.intern t.ids id).2 with
  | some handle =>
    simp only [hfind]
    split
    next hsymbol => rw [hsymbol, hfind]
    next => rfl
  | none =>
    simp only [hfind, List.lookup_cons]
    by_cases hsymbol : symbol = (i.intern t.ids id).2
    · simp [hsymbol]
    · simp [hsymbol, beq_eq_false_iff_ne.2 hsymbol]

theorem forall₂_modify {α β : Type} {R S : α → β → Prop} {f : α → α} {l : List α} {m : List β}
    {b : β} {k : Nat} (h : List.Forall₂ R l m) (hkept : ∀ a b, R a b → S a b)
    (hput : ∀ a before, m[k]? = some before → R a before → S (f a) b) :
    List.Forall₂ S (l.modify k f) (m.set k b) := by
  induction h generalizing k with
  | nil => simp
  | cons hab htail ih =>
    cases k with
    | zero => exact .cons (hput _ _ rfl hab) (htail.imp hkept)
    | succ k => exact .cons (hkept _ _ hab) (ih hput)

/-- The store has what a table has for which the same calls are made,
under the symbols of the ids. -/
structure Keeps (i : Interner State Symbol) (calls : List (String × Outline))
    (t : OutlineStore State Symbol) : Prop where
  ids : t.ids = i.after (calls.map (·.1))
  slots : List.Forall₂
    (fun slot entry => i.get? t.ids entry.1 = some slot.1 ∧ slot.2 = entry.2) t.slots
    (OutlineTable.ofEntries calls).entries
  handles {symbol : Symbol} {handle : Nat} : t.handles.lookup symbol = some handle ↔
    ∃ id, i.get? t.ids id = some symbol ∧ (OutlineTable.ofEntries calls).handle? id = some handle

namespace Keeps

variable {calls : List (String × Outline)} {t : OutlineStore State Symbol}

theorem exists_symbol (h : Keeps i calls t) (hi : i.Lawful) {id : String} {handle : Nat}
    (hid : (OutlineTable.ofEntries calls).handle? id = some handle) :
    ∃ symbol, i.get? t.ids id = some symbol := by
  rw [h.ids]
  refine hi.exists_of_mem ((OutlineTable.mem_ids_ofEntries calls).1 ?_)
  by_contra hnone
  simp [OutlineTable.handle?_eq_none.2 hnone] at hid

/-- The symbol that an id gets has the number that the id has. -/
theorem lookup_symbol (h : Keeps i calls t) (hi : i.Lawful) (id : String) :
    t.handles.lookup (i.intern t.ids id).2 = (OutlineTable.ofEntries calls).handle? id := by
  ext handle
  rw [h.handles]
  constructor
  · rintro ⟨other, hother, hhandle⟩
    rw [h.ids] at hother
    rwa [hi.eq_of_get? (hi.kept id hother) (hi.given _ id)] at hhandle
  · intro hhandle
    obtain ⟨symbol, hsymbol⟩ := h.exists_symbol hi hhandle
    refine ⟨id, ?_, hhandle⟩
    rw [h.ids] at hsymbol ⊢
    rw [hi.intern_of_get? hsymbol, hsymbol]

theorem length_slots (h : Keeps i calls t) : t.slots.length = (OutlineTable.ofEntries calls).size :=
  h.slots.length_eq

theorem handle_intern (h : Keeps i calls t) (hi : i.Lawful) (id : String) (outline : Outline) :
    (t.intern i id outline).2 = ((OutlineTable.ofEntries calls).intern id outline).2 := by
  unfold OutlineStore.intern OutlineTable.intern
  simp only [h.lookup_symbol hi]
  cases (OutlineTable.ofEntries calls).handle? id with
  | some handle => rfl
  | none => exact h.length_slots

theorem after_intern (h : Keeps i calls t) (id : String) (outline : Outline) :
    (t.intern i id outline).1.ids = i.after (calls.map (·.1) ++ [id]) := by
  rw [ids_intern, h.ids, Interner.after_concat]

theorem given_intern (h : Keeps i calls t) (hi : i.Lawful) (id : String) (outline : Outline) :
    i.get? (t.intern i id outline).1.ids id = some (i.intern t.ids id).2 := by
  rw [h.after_intern, h.ids]
  exact hi.given _ id

theorem kept_intern (h : Keeps i calls t) (hi : i.Lawful) {other : String} {symbol : Symbol}
    (hs : i.get? t.ids other = some symbol) (id : String) (outline : Outline) :
    i.get? (t.intern i id outline).1.ids other = some symbol := by
  rw [h.after_intern]
  exact hi.kept id (h.ids ▸ hs)

theorem slots_intern (h : Keeps i calls t) (hi : i.Lawful) (id : String) (outline : Outline) :
    List.Forall₂ (fun slot entry =>
      i.get? (t.intern i id outline).1.ids entry.1 = some slot.1 ∧ slot.2 = entry.2)
      (t.intern i id outline).1.slots
        (OutlineTable.ofEntries (calls ++ [(id, outline)])).entries := by
  have hgiven := h.given_intern hi id outline
  have hslots := h.slots.imp fun _ _ hslot => And.imp_left (h.kept_intern hi · id outline) hslot
  rw [OutlineTable.ofEntries_append_singleton]
  generalize (t.intern i id outline).1.ids = ids at hgiven hslots ⊢
  unfold OutlineStore.intern OutlineTable.intern
  simp only [h.lookup_symbol hi]
  cases hfind : (OutlineTable.ofEntries calls).handle? id with
  | some handle =>
    obtain ⟨before, hentry⟩ := OutlineTable.entry_of_handle? hfind
    refine forall₂_modify hslots (fun _ _ hslot => hslot) fun slot entry hbefore hslot => ?_
    cases hentry.symm.trans hbefore
    exact ⟨hslot.1, rfl⟩
  | none => exact List.rel_append hslots (.cons ⟨hgiven, rfl⟩ .nil)

/-- A symbol is that of the id just stored, or has the number that it had. -/
theorem handles_intern (h : Keeps i calls t) (hi : i.Lawful) (id : String) (outline : Outline)
    {symbol : Symbol} {handle : Nat} :
    (t.intern i id outline).1.handles.lookup symbol = some handle ↔
      ∃ other, i.get? (t.intern i id outline).1.ids other = some symbol ∧
        (OutlineTable.ofEntries (calls ++ [(id, outline)])).handle? other = some handle := by
  have hgiven := h.given_intern hi id outline
  rw [lookup_intern, OutlineTable.ofEntries_append_singleton]
  simp only [OutlineTable.handle?_intern, ← h.handle_intern hi]
  split
  next hsymbol =>
    subst hsymbol
    refine ⟨fun hhandle => ⟨id, hgiven, by rwa [if_pos rfl]⟩, ?_⟩
    rintro ⟨other, hother, hhandle⟩
    rw [h.after_intern] at hother hgiven
    rwa [if_pos (hi.eq_of_get? hother hgiven)] at hhandle
  next hsymbol =>
    have hne {other : String} (hother : i.get? (t.intern i id outline).1.ids other = some symbol) :
        other ≠ id := by
      rintro rfl
      exact hsymbol (Option.some_inj.1 (hother.symm.trans hgiven))
    rw [h.handles]
    constructor
    · rintro ⟨other, hother, hhandle⟩
      have hother := h.kept_intern hi hother id outline
      exact ⟨other, hother, by rwa [if_neg (hne hother)]⟩
    · rintro ⟨other, hother, hhandle⟩
      rw [if_neg (hne hother)] at hhandle
      obtain ⟨same, hsame⟩ := h.exists_symbol hi hhandle
      refine ⟨other, ?_, hhandle⟩
      rwa [← Option.some_inj.1 ((h.kept_intern hi hsame id outline).symm.trans hother)]

theorem intern (h : Keeps i calls t) (hi : i.Lawful) (entry : String × Outline) :
    Keeps i (calls ++ [entry]) (t.intern i entry.1 entry.2).1 where
  ids := by simpa using h.after_intern entry.1 entry.2
  slots := h.slots_intern hi entry.1 entry.2
  handles := h.handles_intern hi entry.1 entry.2

/-! What is asked of the store is answered as by the table. -/

theorem handle?_eq (h : Keeps i calls t) (hi : i.Lawful) (id : String) :
    t.handle? i id = (OutlineTable.ofEntries calls).handle? id := by
  rw [OutlineStore.handle?]
  cases hsymbol : i.get? t.ids id with
  | some symbol =>
    rw [Option.bind_some, ← h.lookup_symbol hi, h.ids, hi.intern_of_get? (h.ids ▸ hsymbol)]
  | none =>
    cases hfind : (OutlineTable.ofEntries calls).handle? id with
    | some handle =>
      obtain ⟨symbol, hsome⟩ := h.exists_symbol hi hfind
      simp [hsymbol] at hsome
    | none => rfl

theorem resolved_slots (h : Keeps i calls t) (hi : i.Lawful) :
    t.slots.map (fun slot => (i.resolve? t.ids slot.1, slot.2)) =
      (OutlineTable.ofEntries calls).entries.map fun entry => (some entry.1, entry.2) := by
  rw [← List.forall₂_eq_eq_eq, List.forall₂_map_left_iff, List.forall₂_map_right_iff]
  refine h.slots.imp fun slot entry hslot => ?_
  rw [h.ids] at hslot ⊢
  rw [hi.resolved hslot.1, hslot.2]

theorem get?_eq (h : Keeps i calls t) (hi : i.Lawful) (handle : Nat) :
    t.get? handle = (OutlineTable.ofEntries calls).get? handle := by
  have hslot := congrArg (fun slots => slots[handle]?.map (·.2)) (h.resolved_slots hi)
  simpa [OutlineStore.get?, OutlineTable.get?, Function.comp_def] using hslot

theorem id?_eq (h : Keeps i calls t) (hi : i.Lawful) (handle : Nat) :
    t.id? i handle = (OutlineTable.ofEntries calls).id? handle := by
  have hslot := congrArg (fun slots => slots[handle]?.bind (·.1)) (h.resolved_slots hi)
  rw [OutlineTable.id?, Option.map_eq_bind]
  simpa [OutlineStore.id?, Option.bind_map, Function.comp_def] using hslot

theorem numbered_eq (h : Keeps i calls t) (hi : i.Lawful) :
    t.numbered i = (OutlineTable.ofEntries calls).numbered := by
  have hslots := congrArg (fun slots => slots.zipIdx.filterMap fun (slot, handle) =>
    slot.1.map fun id => (handle, id, slot.2)) (h.resolved_slots hi)
  simpa [OutlineStore.numbered, OutlineTable.numbered, List.zipIdx_map, List.filterMap_map,
    Function.comp_def] using hslots

end Keeps

theorem keeps_ofEntries (hi : i.Lawful) (calls : List (String × Outline)) :
    Keeps i calls (ofEntries i calls) := by
  induction calls using List.reverseRecOn with
  | nil =>
    exact ⟨rfl, .nil, by simp [ofEntries, empty, OutlineTable.ofEntries, OutlineTable.handle?]⟩
  | append_singleton calls entry ih => simpa [ofEntries] using ih.intern hi entry

/-- Whatever is stored, an id has the number that it got when it first came, by which it is found
and which finds it. There is the outline that was last stored under the id, and the others are left
alone. The numbers have no gaps, and the outlines come in their order. A table in which the ids
stand themselves gives the same answers. -/
theorem numbers_stay (hi : i.Lawful) (calls : List (String × Outline)) :
    let t := ofEntries i calls
    let table := OutlineTable.ofEntries calls
    (∀ before id outline after, calls = before ++ (id, outline) :: after →
      t.handle? i id = some ((ofEntries i before).intern i id outline).2 ∧
      (id ∉ before.map (·.1) → t.handle? i id = some (before.map (·.1)).eraseDups.length) ∧
      (id ∉ after.map (·.1) → (t.handle? i id).bind t.get? = some outline)) ∧
    (∀ id, t.handle? i id = none ↔ id ∉ calls.map (·.1)) ∧
    (∀ id handle, t.id? i handle = some id ↔ t.handle? i id = some handle) ∧
    (∀ id outline, let next := t.intern i id outline
      (∀ other ≠ id, next.1.handle? i other = t.handle? i other) ∧
      ∀ handle ≠ next.2, next.1.id? i handle = t.id? i handle ∧
      next.1.get? handle = t.get? handle) ∧
    t.size = (calls.map (·.1)).eraseDups.length ∧
    (t.numbered i).map (·.1) = List.range t.size ∧
    (∀ entry ∈ t.numbered i, t.id? i entry.1 = some entry.2.1 ∧ t.get? entry.1 = some entry.2.2) ∧
    (∀ id, t.handle? i id = table.handle? id) ∧
    (∀ handle, t.id? i handle = table.id? handle ∧ t.get? handle = table.get? handle) ∧
    t.numbered i = table.numbered := by
  intro t table
  have h : Keeps i calls t := keeps_ofEntries hi calls
  have hget : t.get? = table.get? := funext (h.get?_eq hi)
  have hnodup := OutlineTable.nodup_ids_ofEntries calls
  refine ⟨?_, ?_, ?_, ?_, ?_, ?_, ?_, h.handle?_eq hi,
    fun handle => ⟨h.id?_eq hi handle, h.get?_eq hi handle⟩, h.numbered_eq hi⟩
  all_goals simp only [h.handle?_eq hi, h.id?_eq hi, h.numbered_eq hi, hget,
    show t.size = table.size from h.length_slots]
  · rintro before id outline after rfl
    have hgiven := OutlineTable.handle?_given before after id outline
    rw [(keeps_ofEntries hi before).handle_intern hi]
    refine ⟨hgiven, fun hnew => ?_, OutlineTable.get?_last before outline⟩
    rw [hgiven, OutlineTable.handle_intern_new before outline hnew]
  · intro id
    rw [OutlineTable.handle?_eq_none, OutlineTable.mem_ids_ofEntries]
  · intro id handle
    exact OutlineTable.id?_eq_some hnodup
  · intro id outline
    have hnext := h.intern hi (id, outline)
    simp only [hnext.handle?_eq hi, hnext.id?_eq hi, hnext.get?_eq hi, h.handle_intern hi,
      OutlineTable.ofEntries_append_singleton]
    refine ⟨fun other hother => ?_, fun handle hne => ⟨?_, ?_⟩⟩
    · rw [OutlineTable.handle?_intern, if_neg hother]
    · exact OutlineTable.id?_intern_of_ne _ _ _ hne
    · exact OutlineTable.get?_intern_of_ne _ _ _ hne
  · rw [← OutlineTable.ids_ofEntries, List.length_map]
    rfl
  · exact table.numbers_numbered
  · exact fun entry => table.mem_numbered

/-- The second of two ids, stored between two outlines of the first. -/
theorem secondId_numbered :
    Interner.dense.Lawful ∧
    (ofEntries Interner.dense [("a", ⟨1, []⟩), ("b", ⟨2, []⟩), ("a", ⟨3, []⟩)]).handle?
      Interner.dense "b" = some 1 := by
  have hcalls : [("a", ⟨1, []⟩), ("b", ⟨2, []⟩), ("a", ⟨3, []⟩)] =
    [("a", (⟨1, []⟩ : Outline))] ++ ("b", ⟨2, []⟩) :: [("a", ⟨3, []⟩)] := rfl
  have hb := ((numbers_stay Interner.dense_lawful _).1 _ _ _ _ hcalls).2.1 (by decide)
  exact ⟨Interner.dense_lawful, hb⟩

end OutlineStore
end KeyLayout.Model
