import KeyLayout.Proofs.Document.Arrangement
import KeyLayout.Proofs.Document.SymbolsReading
import KeyLayout.Proofs.Load.Linked

/-! The levels of every key are numbered without gaps, loss or overlap, whatever
symbols documents are bound. -/
namespace KeyLayout.Markup.Block
open Document Model

/-- The division of `n + 1` starts a new quotient, or goes on in the old one. -/
theorem succ_div_mod (n c : Nat) :
    ((n + 1) / c = n / c + 1 ∧ (n + 1) % c = 0) ∨
      ((n + 1) / c = n / c ∧ (n + 1) % c = n % c + 1) := by
  have hold := Nat.div_add_mod n c
  have hnew := Nat.div_add_mod (n + 1) c
  by_cases hd : c ∣ n + 1
  · exact .inl ⟨Nat.succ_div_of_dvd hd, Nat.mod_eq_zero_of_dvd hd⟩
  · have hdiv : (n + 1) / c = n / c := Nat.succ_div_of_not_dvd hd
    rw [hdiv] at hnew
    exact .inr ⟨hdiv, by omega⟩

theorem ceilDiv_bounds {n c : Nat} (hc : 0 < c) :
    n / c ≤ n ⌈/⌉ c ∧ n ⌈/⌉ c ≤ n / c + 1 ∧ (n + 1) ⌈/⌉ c = n / c + 1 := by
  simp only [Nat.ceilDiv_eq_add_pred_div]
  have hnext : (n + c) / c = n / c + 1 := Nat.add_div_right n hc
  refine ⟨Nat.div_le_div_right (by omega), ?_, ?_⟩
  · exact hnext ▸ Nat.div_le_div_right (by omega)
  · rw [show n + 1 + c - 1 = n + c by omega, hnext]

/-- Slots that come behind regular levels, `c` to a group: the levels stay regular, the groups used
are counted, and the number of the next slot is that of the next level. -/
theorem regular_numberSlots {levels : List Level} (h : Regular levels) {c : Nat} (hc : 0 < c)
    (slots : List (Option Symbol)) :
    let bound := levels ++ numberSlots (groupCount levels) c slots
    Regular bound ∧ groupCount bound = groupCount levels + slots.length ⌈/⌉ c ∧
      (levelNumbers bound (groupCount levels + slots.length / c)).length = slots.length % c := by
  induction slots using List.reverseRecOn with
  | nil =>
    have hnone : levelNumbers levels (groupCount levels) = [] :=
      levelNumbers_of_groupCount_le (Nat.le_refl _)
    simpa [numberSlots, hnone] using h
  | append_singleton slots slot ih =>
    obtain ⟨hregular, hcount, hlength⟩ := ih
    obtain ⟨hle, hlt, hnext⟩ := ceilDiv_bounds (n := slots.length) hc
    have hslots : levels ++ numberSlots (groupCount levels) c (slots ++ [slot]) =
        (levels ++ numberSlots (groupCount levels) c slots) ++
          [⟨groupCount levels + slots.length / c, slots.length % c, slot.toList⟩] := by
      rw [numberSlots_append_singleton, List.append_assoc]
    simp only [hslots, List.length_append, List.length_singleton]
    generalize levels ++ numberSlots (groupCount levels) c slots =
      bound at hregular hcount hlength ⊢
    have hnew := hregular.append_singleton
      (l := ⟨groupCount levels + slots.length / c, slots.length % c, slot.toList⟩)
      (by simp only; omega) (by simp only; omega) hlength.symm ⟨slot, rfl⟩
    have hcountNew :
        groupCount
          (bound ++ [⟨groupCount levels + slots.length / c, slots.length % c, slot.toList⟩]) =
        groupCount levels + (slots.length + 1) ⌈/⌉ c := by
      simp only [groupCount_append_singleton, hcount, hnext]
      omega
    refine ⟨hnew, hcountNew, ?_⟩
    rcases succ_div_mod slots.length c with ⟨hdiv, hmod⟩ | ⟨hdiv, hmod⟩
    · rw [levelNumbers_of_groupCount_le (by omega), hmod]
      rfl
    · rw [levelNumbers_append_singleton, hdiv, if_pos rfl, List.length_append, hlength, hmod]
      rfl

variable {levels : List Level} {b : Block}

theorem width_pos (hpos : 0 < b.groups) (hslots : b.slots ≠ []) : 0 < b.width := by
  by_contra hzero
  have hle : b.slots.length ⌈/⌉ b.groups ≤ 0 := Nat.le_of_not_lt hzero
  have := (ceilDiv_le_iff_le_mul hpos).1 hle
  exact hslots (List.length_eq_zero_iff.1 (by omega))

/-- A block keeps levels regular, and uses as many groups as its slots fill. -/
theorem regular_addTo (h : Regular levels) (hpos : 0 < b.groups) :
    Regular (addTo levels b) ∧
      groupCount (addTo levels b) = groupCount levels + b.slots.length ⌈/⌉ b.width := by
  by_cases hslots : b.slots = []
  · simpa [addTo, Block.levels, hslots] using h
  · have hbound := regular_numberSlots h (width_pos hpos hslots) b.slots
    exact ⟨hbound.1, hbound.2.1⟩

/-- A block uses no more groups than it asks for. -/
theorem used_le_groups (hpos : 0 < b.groups) : b.slots.length ⌈/⌉ b.width ≤ b.groups := by
  by_cases hslots : b.slots = []
  · simp [hslots]
  · refine (ceilDiv_le_iff_le_mul (width_pos hpos hslots)).2 ?_
    rw [Nat.mul_comm]
    exact (ceilDiv_le_iff_le_mul hpos).1 le_rfl

end KeyLayout.Markup.Block

namespace KeyLayout.Document
open Markup Model

/-- A geometry document binds no symbols. -/
theorem levels_of_readGeometry {source : Source} {g : Geometry}
    (h : (readGeometry source).result = .ok g) :
    ∀ key ∈ g.keys, key.levels = [] := by
  obtain ⟨tree, -, -, -, hkeyed, -⟩ := arranged_of_readGeometry h
  intro key hkey
  obtain ⟨i, hi⟩ := List.mem_iff_getElem?.1 hkey
  exact (hkeyed.told i key hi).levels

namespace Geometry
variable {g bound : Geometry}

/-- Each key gets the blocks that name it. -/
theorem keys_extendAll (g : Geometry) (blocks : List Block) :
    (blocks.foldl extend g).keys = g.keys.map fun key =>
      { key with
        levels := (blocks.filter (·.key = some key.name)).foldl Block.addTo key.levels } := by
  induction blocks generalizing g with
  | nil => simp
  | cons b more ih =>
    rw [List.foldl_cons, ih, extend, List.map_map]
    refine List.map_congr_left fun key _ => ?_
    by_cases hb : b.key = some key.name <;> simp [hb]

/-- The index is right, and the levels of every key are regular. -/
structure Numbered (g : Geometry) : Prop where
  indexed : g.Indexed
  regular : ∀ key ∈ g.keys, Regular key.levels

theorem Numbered.extend (h : g.Numbered) {b : Block} (hpos : 0 < b.groups) :
    (g.extend b).Numbered where
  indexed := h.indexed.congr rfl (g.names_extend b)
  regular := by
    intro key hkey
    obtain ⟨old, hold, rfl⟩ := List.mem_map.1 hkey
    split
    · exact (Block.regular_addTo (h.regular old hold) hpos).1
    · exact h.regular old hold

theorem Numbered.bindSymbols (h : g.Numbered) {document : Source}
    (hb : Document.bindSymbols g document = .ok bound) : bound.Numbered := by
  obtain ⟨tree, -, -, rfl, hblocks⟩ := blocks_of_bindSymbols h.indexed hb
  exact List.foldlRecOn _ _ h fun g hg b hmem => hg.extend (hblocks b hmem).1

end Geometry

/-- Binds symbols documents one behind the other. One that is refused
leaves the geometry as it was. -/
def bindEach (g : Geometry) (documents : List Source) : Geometry :=
  documents.foldl (fun g document =>
    match bindSymbols g document with
    | .ok bound => bound
    | .error _ => g) g

theorem bindEach_append_singleton (g : Geometry) (documents : List Source) (document : Source) :
    bindEach g (documents ++ [document]) =
      match bindSymbols (bindEach g documents) document with
      | .ok bound => bound
      | .error _ => bindEach g documents := by
  simp [bindEach]

theorem Geometry.Numbered.bindEach {g : Geometry} (h : g.Numbered) (documents : List Source) :
    (Document.bindEach g documents).Numbered := by
  induction documents using List.reverseRecOn with
  | nil => exact h
  | append_singleton documents document ih =>
    rw [bindEach_append_singleton]
    split
    next hb => exact ih.bindSymbols hb
    next => exact ih

theorem numbered_of_readGeometry {source : Source} {g : Geometry}
    (h : (readGeometry source).result = .ok g) : g.Numbered where
  indexed := (ready_of_readGeometry h).indexed
  regular := by
    intro key hkey
    rw [levels_of_readGeometry h key hkey]
    exact regular_nil

/-- Whatever symbols documents have been bound to a geometry, and whether they were accepted or
refused, the levels of every key are regular. The next one that is accepted adds the slots of its
blocks, each block behind the groups that its key has; and a keyboard that is assembled finds the
symbol of each slot by the numbers of its level. -/
theorem levels_numbered {source : Source} {geometry : Geometry}
    (hg : (readGeometry source).result = .ok geometry) (documents : List Source) :
    let g := bindEach geometry documents
    (∀ key ∈ g.keys, Regular key.levels) ∧
    (∀ document e, bindSymbols g document = .error e →
      bindEach geometry (documents ++ [document]) = g) ∧
    (∀ document bound, bindSymbols g document = .ok bound →
      bindEach geometry (documents ++ [document]) = bound ∧
      ∃! tree : Tree, document.events = tree.events ∧ tree.name = "symbols" ∧
        bound.keys = g.keys.map (fun key =>
          { key with
            levels :=
              (tree.content.blocks.filter (·.key = some key.name)).foldl Block.addTo key.levels }) ∧
        ∀ b ∈ tree.content.blocks, 0 < b.groups ∧ (∃ key ∈ g.keys, b.key = some key.name) ∧
          b.slots.length ⌈/⌉ b.width ≤ b.groups ∧
          ∀ levels, Regular levels →
            groupCount (Block.addTo levels b) = groupCount levels + b.slots.length ⌈/⌉ b.width) ∧
    (∀ descriptor keyboard, (Load.assemble descriptor g).result = .ok keyboard →
      keyboard.keys.map (fun key => (key.name, key.levels)) =
        g.keys.map (fun key => (key.name, key.levels)) ∧
      ∀ key ∈ keyboard.keys,
        (∀ l ∈ key.levels, l.symbols = (key.symbolAt? l.group l.level).toList) ∧
        ∀ group level, (∀ l ∈ key.levels, ¬(l.group = group ∧ l.level = level)) →
          key.symbolAt? group level = none) := by
  intro g
  have hn : g.Numbered := (numbered_of_readGeometry hg).bindEach documents
  refine ⟨hn.regular, fun document e hb => ?_, fun document bound hb => ⟨?_, ?_⟩,
    fun descriptor keyboard hk => ?_⟩
  · rw [bindEach_append_singleton, hb]
  · rw [bindEach_append_singleton, hb]
  · obtain ⟨tree, hevents, hname, rfl, hblocks⟩ := blocks_of_bindSymbols hn.indexed hb
    refine ⟨tree, ⟨hevents, hname, g.keys_extendAll _, fun b hmem => ?_⟩, fun other hother =>
      Tree.events_inj (hother.1.symm.trans hevents)⟩
    obtain ⟨hpos, name, hmem, hkey⟩ := hblocks b hmem
    obtain ⟨key, hnamed, rfl⟩ := List.mem_map.1 hmem
    exact ⟨hpos, ⟨key, hnamed, hkey⟩, Block.used_le_groups hpos, fun levels hlevels =>
      (Block.regular_addTo hlevels hpos).2⟩
  · obtain ⟨keys, hlink, rfl⟩ := Load.assemble_eq_ok.1 hk
    have hlinks := Load.linkKeys_eq_ok.1 hlink
    refine ⟨Load.map_eq_of_links hlinks ?_, fun key hkey => ?_⟩
    · rintro draft _ ⟨outline, -, rfl⟩
      rfl
    · obtain ⟨draft, hdraft, outline, -, rfl⟩ := Load.draft_of_links hlinks hkey
      exact ⟨fun l hl => Regular.symbolAt?_of_mem (hn.regular draft hdraft) hl,
        fun _ _ => Key.symbolAt?_eq_none⟩

/-- Documents for two keys: a key that is named twice and has a slot left out, a document that is
refused behind its first block, and a block that asks for more groups than it has slots. -/
def twoKeys : List Source :=
  [.ofBytes <| ascii <|
      "<symbols><key name='a' groups='2'><symbol>x</symbol><invalid/><text>y</text></key><key name='b'/>" ++
      "<key name='a'><symbol>z</symbol></key></symbols>",
    .ofBytes <| ascii "<symbols><key name='a'><symbol>q</symbol></key><key name='c'/></symbols>",
    .ofBytes <| ascii <|
      "<symbols><key name='b' groups='3'><keysym keyval='0x41'/></key>" ++
      "<key name='a' groups='5'><symbol>u</symbol><symbol>v</symbol></key></symbols>"]

theorem twoKeys_numbered :
    ∃ geometry,
      (readGeometry (.ofBytes (ascii "<geometry><section>a b</section></geometry>"))).result =
        .ok geometry ∧
      (∀ key ∈ (bindEach geometry twoKeys).keys, Regular key.levels) ∧
      (bindEach geometry twoKeys).keys.map (fun key => (key.name, key.levels)) =
        [("a", [⟨0, 0, [⟨.keysym "x", {}⟩]⟩, ⟨0, 1, []⟩, ⟨1, 0, [⟨.text "y", {}⟩]⟩,
          ⟨2, 0, [⟨.keysym "z", {}⟩]⟩,
            ⟨3, 0, [⟨.keysym "u", {}⟩]⟩, ⟨4, 0, [⟨.keysym "v", {}⟩]⟩]),
          ("b", [⟨0, 0, [⟨.keyval 0x41 none, {}⟩]⟩])] := by
  have hkeys :
      (readGeometry (.ofBytes (ascii "<geometry><section>a b</section></geometry>"))).result.map
      (fun geometry => (bindEach geometry twoKeys).keys.map fun key => (key.name, key.levels)) =
      .ok [("a",
          [⟨0, 0, [⟨.keysym "x", {}⟩]⟩, ⟨0, 1, []⟩, ⟨1, 0, [⟨.text "y", {}⟩]⟩,
            ⟨2, 0, [⟨.keysym "z", {}⟩]⟩, ⟨3, 0, [⟨.keysym "u", {}⟩]⟩, ⟨4, 0, [⟨.keysym "v", {}⟩]⟩]),
        ("b", [⟨0, 0, [⟨.keyval 0x41 none, {}⟩]⟩])] := by decide +kernel
  obtain ⟨geometry, hread, hkeys⟩ := map_eq_ok.1 hkeys
  exact ⟨geometry, hread, (levels_numbered hread twoKeys).1, hkeys⟩

end KeyLayout.Document
