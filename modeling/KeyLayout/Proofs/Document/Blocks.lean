import KeyLayout.Proofs.Document.Binding
import KeyLayout.Proofs.Markup.Tree
import KeyLayout.Proofs.Model.Levels
import Mathlib.Algebra.Order.Floor.Div

/-! The blocks of a symbols document: each ends behind the groups that its key has, though no levels
are bound before the whole document has been read. -/
namespace KeyLayout.Markup
open Document Model

def Content.texts : Content → String
  | nil => ""
  | text t beside => t ++ beside.texts
  | element _ _ _ beside => beside.texts

def symbolOf (name : String) (a : Attributes) (below : Content) : Symbol where
  kind := SymbolsDraft.symbolKind name
    (if name = "keysym" then (a.get? "keyval").bind Number.prefixed? else none) below.texts
  decoration := { label := a.get? "label", icon := a.get? "icon", tooltip := a.get? "tooltip" }

def slotsOf (name : String) (a : Attributes) (below : Content) : List (Option Symbol) :=
  match name with
  | "symbol" | "keysym" | "text" => [some (symbolOf name a below)]
  | "invalid" => [none]
  | _ => []

def Content.slots : Content → List (Option Symbol)
  | nil => []
  | text _ beside => beside.slots
  | element name a below beside => slotsOf name a below ++ beside.slots

/-- The slots of a `key` element, the key that it names, and the number of
groups for which it asks. -/
structure Block where
  key : Option String
  groups : Nat
  slots : List (Option Symbol)

def blockOf (a : Attributes) (below : Content) : Block where
  key := a.get? "name"
  groups :=
    ((a.get? "groups").bind fun value => Number.word64? (Text.trimChars value.toList)).getD 1
  slots := below.slots

def Content.blocks : Content → List Block
  | nil => []
  | text _ beside => beside.blocks
  | element name a below beside =>
    if name = "key" then blockOf a below :: beside.blocks else beside.blocks

namespace Block

/-- The number of levels in each group of a block but the last. -/
def width (b : Block) : Nat := b.slots.length ⌈/⌉ b.groups

/-- The slots, spread over groups from `base` on. -/
def levels (b : Block) (base : Nat) : List Level :=
  b.slots.mapIdx fun j slot => ⟨base + j / b.width, j % b.width, slot.toList⟩

def addTo (levels : List Level) (b : Block) : List Level := levels ++ b.levels (groupCount levels)

end Block
end KeyLayout.Markup

namespace KeyLayout.Document
open Markup Model

def Geometry.extend (g : Geometry) (b : Block) : Geometry :=
  { g with keys := g.keys.map fun key =>
      if b.key = some key.name then { key with levels := b.addTo key.levels } else key }

theorem Geometry.names_extend (g : Geometry) (b : Block) :
    (g.extend b).keys.map (·.name) = g.keys.map (·.name) := by
  simp only [extend, List.map_map]
  refine List.map_congr_left fun key _ => ?_
  simp only [Function.comp]
  split <;> rfl

def Geometry.attach (g : Geometry) (b : Block) : Geometry :=
  match b.key.bind g.findKey? with
  | some i => g.extendLevels i (b.levels (g.groupsOf i))
  | none => g

theorem Geometry.bare_attach (g : Geometry) (b : Block) : (g.attach b).bare = g.bare := by
  unfold attach
  split
  · exact g.bare_extendLevels _ _
  · rfl

theorem Geometry.extendLevels_nil (g : Geometry) (i : Nat) : g.extendLevels i [] = g := by
  have hkeys : g.keys.modify i (fun key => { key with levels := key.levels ++ [] }) = g.keys := by
    simp only [List.append_nil]
    exact List.modify_id i g.keys
  simp only [extendLevels, modifyKey, hkeys]

theorem Geometry.extendLevels_of_length_le {g : Geometry} {i : Nat} (h : g.keys.length ≤ i)
    (levels : List Level) : g.extendLevels i levels = g := by
  simp only [extendLevels, modifyKey, List.modify_eq_self h]

/-- Only one key has the name. -/
theorem Geometry.attach_eq_extend {g : Geometry} (hg : g.Indexed) {b : Block} {name : String}
    (hname : name ∈ g.keys.map (·.name)) (hb : b.key = some name) : g.attach b = g.extend b := by
  obtain ⟨i, hat⟩ := List.mem_iff_getElem?.1 hname
  have hi : g.findKey? name = some i := hg.findKey?_eq_some.2 hat
  obtain ⟨named, hnamed, hsame⟩ := hg.exists_key hi
  have hgroups : g.groupsOf i = groupCount named.levels := by
    simp [groupsOf, hnamed, KeyDraft.groups]
  have hkeys :
      g.keys.modify i
        (fun key => { key with levels := key.levels ++ b.levels (groupCount named.levels) }) =
      (g.extend b).keys := by
    apply List.ext_getElem?
    intro j
    rw [List.getElem?_modify, extend, List.getElem?_map]
    cases hj : g.keys[j]? with
    | none => rfl
    | some key =>
      by_cases hij : i = j
      · subst hij
        obtain rfl : named = key := Option.some.inj (hnamed.symm.trans hj)
        simp [hb, hsame, Block.addTo]
      · have hne : name ≠ key.name := by
          rintro rfl
          have hfind : g.findKey? key.name = some j := hg.findKey?_eq_some.2 (by simp [hj])
          exact hij (Option.some.inj (hi.symm.trans hfind))
        simp [hb, hij, hne]
  simp only [attach, hb, Option.bind_some, hi, hgroups]
  exact congrArg (fun keys => { g with keys }) hkeys

/-- Where the index is right, blocks that name keys are bound to all keys of their names. -/
theorem Geometry.foldl_attach_eq_extend {g : Geometry} (hg : g.Indexed) {blocks : List Block}
    (hblocks : ∀ b ∈ blocks, ∃ name ∈ g.keys.map (·.name), b.key = some name) :
    blocks.foldl attach g = blocks.foldl extend g := by
  induction blocks generalizing g with
  | nil => rfl
  | cons b more ih =>
    obtain ⟨⟨name, hname, hb⟩, hmore⟩ := List.forall_mem_cons.1 hblocks
    have hnames := g.names_extend b
    rw [List.foldl_cons, List.foldl_cons, attach_eq_extend hg hname hb]
    exact ih (hg.congr rfl hnames) (hnames ▸ hmore)

theorem Geometry.groupsOf_extendLevels (g : Geometry) (i j : Nat) (levels : List Level) :
    (g.extendLevels i levels).groupsOf j =
    if i = j then (g.keys[i]?.map fun key => groupCount (key.levels ++ levels)).getD 0
    else g.groupsOf j := by
  simp only [Geometry.groupsOf, Geometry.extendLevels, Geometry.modifyKey, List.getElem?_modify]
  by_cases hij : i = j
  · subst hij
    simp [Option.map_map, Function.comp_def, KeyDraft.groups]
  · simp [hij]

theorem numberSlots_append_singleton (base c : Nat) (slots : List (Option Symbol))
    (slot : Option Symbol) :
    numberSlots base c (slots ++ [slot]) =
      numberSlots base c slots ++ [⟨base + slots.length / c, slots.length % c, slot.toList⟩] := by
  simp [numberSlots]

/-- The groups of slots that come behind levels are counted by the last slot. -/
theorem groupCount_numberSlots (levels : List Level) (c : Nat) (slots : List (Option Symbol))
    (slot : Option Symbol) :
    groupCount (levels ++ numberSlots (groupCount levels) c (slots ++ [slot])) =
      groupCount levels + slots.length / c + 1 := by
  have hle : groupCount (levels ++ numberSlots (groupCount levels) c slots) ≤
      groupCount levels + slots.length / c + 1 := by
    induction slots using List.reverseRecOn with
    | nil => simp [numberSlots]
    | append_singleton slots last ih =>
      have hdiv : slots.length / c ≤ (slots.length + 1) / c := Nat.div_le_div_right (Nat.le_succ _)
      rw [numberSlots_append_singleton, ← List.append_assoc, groupCount_append_singleton]
      simp only [List.length_append, List.length_singleton]
      omega
  rw [numberSlots_append_singleton, ← List.append_assoc, groupCount_append_singleton]
  exact Nat.max_eq_right hle

namespace SymbolsDraft
variable {d : SymbolsDraft}

/-- Between the children of the root: nothing is open, and the next free group of each key is the
one behind those that it would have if the document ended here. -/
structure Idle (d : SymbolsDraft) : Prop where
  symbol : d.symbol = none
  block : d.block = none
  counted : ∀ i < d.bound.keys.length, d.nextGroup i = d.bound.groupsOf i

theorem idle_start (g : Geometry) : Idle { geometry := g } where
  symbol := rfl
  block := rfl
  counted := fun _ _ => rfl

theorem bound_stage (d : SymbolsDraft) (i : Nat) (levels : List Level) :
    (d.stage i levels).bound = d.bound.extendLevels i levels := by
  simp [bound, stage]

theorem nextGroup_stage (d : SymbolsDraft) (i j : Nat) (levels : List Level) :
    (d.stage i levels).nextGroup j =
    if i = j then (levels.getLast?.map (·.group + 1)).getD (d.nextGroup i) else d.nextGroup j := by
  by_cases hij : i = j
  · subst hij
    simp [stage, nextGroup]
  · have hne : (j == i) = false := by simpa using Ne.symm hij
    simp [stage, nextGroup, List.lookup_cons, hij, hne]

/-- The last of the slots that are staged tells the next free group. -/
theorem Idle.stage (h : d.Idle) (i c : Nat) {slots : List (Option Symbol)} (hne : slots ≠ []) :
    (d.stage i (numberSlots (d.nextGroup i) c slots)).Idle where
  symbol := h.symbol
  block := h.block
  counted := by
    obtain ⟨front, last, rfl⟩ : ∃ front last, slots = front ++ [last] :=
      ⟨slots.dropLast, slots.getLast hne, (List.dropLast_append_getLast hne).symm⟩
    intro j hj
    rw [bound_stage, Geometry.extendLevels, Geometry.modifyKey, List.length_modify] at hj
    rw [nextGroup_stage, bound_stage, Geometry.groupsOf_extendLevels]
    split
    next hij =>
      subst hij
      have hgroups : d.nextGroup i = groupCount d.bound.keys[i].levels := by
        simp [h.counted i hj, Geometry.groupsOf, hj, KeyDraft.groups]
      rw [hgroups, List.getElem?_eq_getElem hj, Option.map_some, Option.getD_some,
        groupCount_numberSlots, numberSlots_append_singleton]
      simp
    next => exact h.counted j hj

/-- A block that ends is bound to its key, behind the blocks of the document so far. -/
theorem Idle.stopKey (h : d.Idle) {name : String} {i : Nat} (hi : d.geometry.findKey? name = some i)
    (groups : Nat) (slots : List (Option Symbol)) :
    ∃ ended, stopKey { d with block := some { key := i, groups, slots } } = ended ∧ ended.Idle ∧
      ended.geometry = d.geometry ∧ ended.bound = d.bound.attach ⟨some name, groups, slots⟩ := by
  have hopened : { d with block := none } = d := by
    obtain ⟨geometry, staged, nextGroups, block, symbol⟩ := d
    cases h.block
    rfl
  have hfind : d.bound.findKey? name = some i :=
    (Geometry.findKey?_of_bare d.bare_bound name).trans hi
  have hbound : d.bound.attach ⟨some name, groups, slots⟩ =
      d.bound.extendLevels i (numberSlots (d.nextGroup i) (divUp slots.length groups) slots) := by
    simp only [Geometry.attach, Option.bind_some, hfind]
    by_cases hlt : i < d.bound.keys.length
    · rw [h.counted i hlt]
      rfl
    · have hle := Nat.le_of_not_lt hlt
      rw [Geometry.extendLevels_of_length_le hle, Geometry.extendLevels_of_length_le hle]
  refine ⟨_, rfl, ?_⟩
  rw [hbound]
  simp only [SymbolsDraft.stopKey, hopened]
  by_cases hslots : slots = []
  · simp only [hslots, List.isEmpty_nil, if_true]
    exact ⟨h, trivial, (d.bound.extendLevels_nil i).symm⟩
  · simp only [List.isEmpty_iff, hslots, if_false]
    exact ⟨h.stage i _ hslots, rfl, bound_stage d i _⟩

end SymbolsDraft
end KeyLayout.Document
