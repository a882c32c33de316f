import KeyLayout.Proofs.Command.Writing
import KeyLayout.Proofs.Document.Numbering

/-! Showing a keyboard: every key has one entry, in its place, and the entry leaves no level out. -/
namespace KeyLayout.Load
open Document Model Resource

theorem numbered_of_bindAll {lib : Library} {root : Name} {geometry bound : Geometry}
    {name : String}
    (hg : geometry.Numbered) (h : bindAll lib root geometry name = .ok bound) : bound.Numbered := by
  obtain ⟨p, hp, rfl⟩ := bindAll_eq_ok.1 h
  obtain ⟨t, -, -, -, -, hfold⟩ := forest_of_bindIncluding hp
  refine foldlM_invariant (P := Geometry.Numbered)
    (fun {before name after} hbefore hbind => ?_) hg hfold
  obtain ⟨source, -, hbind⟩ := readWith_eq_ok.1 hbind
  exact hbefore.bindSymbols hbind

/-- What a loader returns is assembled from a geometry that is ready and has regular levels. -/
theorem assembled_of_load {l : Loader} {k : Keyboard}
    (h : (∃ id, (l.load id).result = .ok k) ∨
      ∃ descriptor, (l.loadDescribed descriptor).result = .ok k) :
    ∃ given descriptor geometry, Geometry.Ready given geometry ∧ geometry.Numbered ∧
      (assemble descriptor geometry).result = .ok k := by
  have hbuild : ∃ descriptor, (l.build descriptor).result = .ok k := by
    rcases h with ⟨id, h⟩ | ⟨descriptor, h⟩
    · obtain ⟨keyboards, descriptor, -, -, h⟩ := Loader.load_eq_ok.1 h
      exact ⟨descriptor, h⟩
    · exact ⟨descriptor, Loader.loadDescribed_eq_ok.1 h⟩
  obtain ⟨descriptor, h⟩ := hbuild
  obtain ⟨symbols, geometry, bound, -, hread, hbind, hassemble⟩ := Loader.build_eq_ok.1 h
  obtain ⟨source, -, hread⟩ := Loader.readGeometry_eq_ok.1 hread
  exact ⟨_, descriptor, bound, (ready_of_readGeometry hread).of_bare (bare_of_bindAll hbind),
    numbered_of_bindAll (numbered_of_readGeometry hread) hbind, hassemble⟩

theorem regular_of_assemble {descriptor : Descriptor} {geometry : Geometry} {k : Keyboard}
    (hg : geometry.Numbered)
    (h : (assemble descriptor geometry).result = .ok k) : ∀ key ∈ k.keys, Regular key.levels := by
  obtain ⟨keys, hlink, rfl⟩ := assemble_eq_ok.1 h
  intro key hkey
  obtain ⟨draft, hdraft, outline, -, rfl⟩ := draft_of_links (linkKeys_eq_ok.1 hlink) hkey
  exact hg.regular draft hdraft

end KeyLayout.Load

namespace KeyLayout.Command
open Document Load Markup Model Resource Text

/-- The lines behind the head of a shown keyboard: a section, a row by its number, a key by its
position, the heading of what is left. -/
inductive Item where
  | heading (s : Section)
  | row (number : Nat)
  | key (i : Nat)
  | unplaced

def Item.key? : Item → Option Nat
  | .key i => some i
  | _ => none

def rowItems (number : Nat) (rows : List (List Nat)) : List Item :=
  (rows.zipIdx number).flatMap fun (row, number) => .row number :: row.map .key

/-- The numbers of the keys that stand in no section, in the order of the keys. -/
def remaining (k : Keyboard) : List Nat :=
  (List.range k.keys.length).filter fun i => i ∉ k.sections.flatMap Section.keys

/-- The sections with their rows, numbered from 1, and then the remaining
keys, if any, under a heading. -/
def layout (k : Keyboard) : List Item :=
  k.sections.flatMap (fun s => .heading s :: rowItems 1 s.rows) ++
    if remaining k = [] then [] else .unplaced :: (remaining k).map .key

/-- The levels in parts, one for each group, none of them empty. -/
structure ByGroup (levels : List Level) (parts : List (List Level)) : Prop where
  flatten : parts.flatten = levels
  length : parts.length = groupCount levels
  of_group : ∀ (group : Nat) (part : List Level), parts[group]? = some part →
    part ≠ [] ∧ ∀ l ∈ part, l.group = group

/-- How an item is written. A key has its own name, keycode and outline, and the
labels of all its levels. -/
inductive Item.Written (k : Keyboard) : Item → String → Prop
  | heading (s : Section) : Written k (.heading s) s!"Section {orDash s.name} (angle {s.angle})\n"
  | row (number : Nat) : Written k (.row number) s!"  Row {number}\n"
  | key {i : Nat} {key : Key} {outline : String} {parts : List (List Level)}
      (hkey : k.keys[i]? = some key)
      (houtline : k.outlines.id? key.outline = some outline) (hparts : ByGroup key.levels parts)
      (hascending : key.levels.Pairwise Level.Before) :
      Written k (.key i)
        ("    " ++ padRight 6 key.name ++ " " ++ padLeft 4 (toString key.keycode) ++ "  " ++
        padRight 10 outline ++ " " ++
        " | ".intercalate (parts.map fun part => " ".intercalate (part.map levelLabel)) ++ "\n")
  | unplaced : Written k .unplaced "Unplaced\n"

theorem byGroup_of_regular {levels : List Level} (h : Regular levels) :
    ByGroup levels
      ((List.range (groupCount levels)).map fun group => levels.filter (·.group == group)) where
  flatten := h.flatten_groups
  length := by simp
  of_group := by
    intro group part hpart
    obtain ⟨hlt, rfl⟩ : group < groupCount levels ∧ levels.filter (·.group == group) = part := by
      simpa [List.getElem?_map, List.getElem?_range, Option.map_eq_some_iff,
        List.getElem?_eq_some_iff] using hpart
    refine ⟨h.levels_ne_nil hlt, fun l hl => ?_⟩
    simpa using (List.mem_filter.1 hl).2

section
variable {k : Keyboard}

/-- Every key has an outline with an id and regular levels, and the sections show
existing keys, each once. -/
structure Presentable (k : Keyboard) : Prop where
  outline : ∀ key ∈ k.keys, ∃ id, k.outlines.id? key.outline = some id
  regular : ∀ key ∈ k.keys, Regular key.levels
  placed_lt : ∀ i ∈ k.sections.flatMap Section.keys, i < k.keys.length
  placed_once : (k.sections.flatMap Section.keys).Nodup

namespace Presentable

theorem written_keyLine (h : Presentable k) {i : Nat} {key : Key} (hi : k.keys[i]? = some key) :
    Item.Written k (.key i) (keyLine k key) := by
  have hmem := List.mem_of_getElem? hi
  obtain ⟨outline, houtline⟩ := h.outline key hmem
  have hregular := h.regular key hmem
  have hwritten := Item.Written.key hi houtline (byGroup_of_regular hregular) hregular.ascending
  have hline : keyLine k key = "    " ++ padRight 6 key.name ++ " " ++
      padLeft 4 (toString key.keycode) ++ "  " ++
      padRight 10 outline ++ " " ++ keyLabels key ++ "\n" := by
    rw [keyLine, houtline, Option.getD_some]
  rw [hline, keyLabels]
  simpa [Key.groups, Key.levelsIn, Function.comp_def] using hwritten

/-- The keys of a row, none of which is missing. -/
theorem written_row (h : Presentable k) {row : List Nat} (hrow : ∀ i ∈ row, i < k.keys.length) :
    List.Forall₂ (Item.Written k) (row.map .key)
      (row.filterMap fun i => (k.keys[i]?).map (keyLine k)) := by
  induction row with
  | nil => exact .nil
  | cons i row ih =>
    have hlt : i < k.keys.length := hrow i List.mem_cons_self
    have hi : k.keys[i]? = some k.keys[i] := List.getElem?_eq_getElem hlt
    rw [List.filterMap_cons_some (by rw [hi, Option.map_some])]
    exact .cons (h.written_keyLine hi) (ih fun j hj => hrow j (List.mem_cons_of_mem i hj))

theorem written_rows (h : Presentable k) (number : Nat) {rows : List (List Nat)}
    (hrows : ∀ i ∈ rows.flatten, i < k.keys.length) :
    List.Forall₂ (Item.Written k) (rowItems number rows) (rowLines k number rows) := by
  induction rows generalizing number with
  | nil => exact .nil
  | cons row rows ih =>
    have hrow := h.written_row fun i hi => hrows i (List.mem_append_left _ hi)
    exact .cons (.row number)
      (List.rel_append hrow (ih (number + 1) fun i hi => hrows i (List.mem_append_right _ hi)))

theorem written_sections (h : Presentable k) {sections : List Section}
    (hsections : ∀ i ∈ sections.flatMap Section.keys, i < k.keys.length) :
    List.Forall₂ (Item.Written k) (sections.flatMap fun s => .heading s :: rowItems 1 s.rows)
      (sections.flatMap (sectionLines k)) := by
  induction sections with
  | nil => exact .nil
  | cons s sections ih =>
    have hrows := h.written_rows 1 fun i hi => hsections i (List.mem_append_left _ hi)
    exact .cons (.heading s)
      (List.rel_append hrows (ih fun i hi => hsections i (List.mem_append_right _ hi)))

end Presentable

/-- The keys that stand in no section are those that remain. -/
theorem forall₂_unplacedKeys (k : Keyboard) :
    List.Forall₂ (fun i key => k.keys[i]? = some key) (remaining k) (unplacedKeys k) := by
  have hnumbers : remaining k =
      (k.keys.zipIdx.filter fun entry => !(k.sections.flatMap Section.keys).contains entry.2).map
        (·.2) := by
    rw [remaining, List.range_eq_range', ← List.zipIdx_map_snd 0 k.keys, List.filter_map]
    simp only [Function.comp_def, List.contains_eq_mem, decide_not]
  rw [hnumbers, unplacedKeys, List.forall₂_map_left_iff, List.forall₂_map_right_iff,
    List.forall₂_same]
  intro entry hentry
  exact List.mem_zipIdx_iff_getElem?.1 (List.mem_filter.1 hentry).1

theorem Presentable.written_layout (h : Presentable k) :
    List.Forall₂ (Item.Written k) (layout k)
      (k.sections.flatMap (sectionLines k) ++ unplacedLines k) := by
  refine List.rel_append (h.written_sections h.placed_lt) ?_
  have hkeys := forall₂_unplacedKeys k
  have hlines :
      List.Forall₂ (Item.Written k) ((remaining k).map .key)
        ((unplacedKeys k).map (keyLine k)) := by
    rw [List.forall₂_map_left_iff, List.forall₂_map_right_iff]
    exact hkeys.imp fun i key hi => h.written_keyLine hi
  unfold unplacedLines
  generalize remaining k = numbers at hkeys hlines ⊢
  generalize unplacedKeys k = keys at hkeys hlines ⊢
  cases hkeys with
  | nil => exact .nil
  | cons hi hmore => exact .cons .unplaced hlines

@[simp] theorem Item.key?_comp_key : Item.key? ∘ Item.key = some := rfl

theorem keys_rowItems (number : Nat) (rows : List (List Nat)) :
    (rowItems number rows).filterMap Item.key? = rows.flatten := by
  induction rows generalizing number with
  | nil => rfl
  | cons row rows ih =>
    have hcons : rowItems number (row :: rows) =
        .row number :: row.map .key ++ rowItems (number + 1) rows := rfl
    rw [hcons, List.filterMap_append, ih, List.flatten_cons]
    simp [List.filterMap_cons, Item.key?]

/-- The keys of the sections come first, then the others. -/
theorem keys_layout (k : Keyboard) :
    (layout k).filterMap Item.key? = k.sections.flatMap Section.keys ++ remaining k := by
  have hsections :
      (k.sections.flatMap fun s => .heading s :: rowItems 1 s.rows).filterMap Item.key? =
      k.sections.flatMap Section.keys := by
    simp only [List.filterMap_flatMap, List.filterMap_cons, keys_rowItems, Item.key?]
    rfl
  have hrest :
      (if remaining k = [] then [] else .unplaced :: (remaining k).map .key).filterMap Item.key? =
        remaining k := by
    split
    next hnone => rw [hnone]; rfl
    next => simp [List.filterMap_cons, Item.key?]
  rw [layout, List.filterMap_append, hsections, hrest]

theorem mem_remaining {i : Nat} :
    i ∈ remaining k ↔ i < k.keys.length ∧ i ∉ k.sections.flatMap Section.keys := by
  simp [remaining]

theorem Presentable.perm_layout (h : Presentable k) :
    ((layout k).filterMap Item.key?).Perm (List.range k.keys.length) := by
  have hnodup : (k.sections.flatMap Section.keys ++ remaining k).Nodup := by
    refine List.nodup_append.2 ⟨h.placed_once, List.nodup_range.filter _, fun i hi j hj heq => ?_⟩
    exact (mem_remaining.1 hj).2 (heq ▸ hi)
  rw [keys_layout, List.perm_ext_iff_of_nodup hnodup List.nodup_range]
  intro i
  rw [List.mem_append, mem_remaining, List.mem_range]
  constructor
  · rintro (hi | ⟨hi, -⟩)
    · exact h.placed_lt i hi
    · exact hi
  · intro hi
    by_cases hplaced : i ∈ k.sections.flatMap Section.keys
    · exact .inl hplaced
    · exact .inr ⟨hi, hplaced⟩

theorem unplaced_mem_layout :
    .unplaced ∈ layout k ↔ ∃ i < k.keys.length, i ∉ k.sections.flatMap Section.keys := by
  have hrows (number : Nat) (rows : List (List Nat)) : .unplaced ∉ rowItems number rows := by
    simp [rowItems]
  simp only [← mem_remaining]
  by_cases hr : remaining k = []
  · simp [layout, hrows, hr]
  · simpa [layout, hrows, hr] using List.exists_mem_of_ne_nil _ hr

end

theorem presentable_of_load {l : Loader} {k : Keyboard}
    (h : (∃ id, (l.load id).result = .ok k) ∨
      ∃ descriptor, (l.loadDescribed descriptor).result = .ok k) :
    Presentable k := by
  obtain ⟨given, descriptor, geometry, hready, hnumbered, hassemble⟩ := assembled_of_load h
  have hlinked := linked_of_assemble hready hassemble
  refine ⟨fun key hkey => ⟨_, hlinked.outline_id key hkey⟩, regular_of_assemble hnumbered hassemble,
    fun i hi => ?_, hlinked.shown_once⟩
  obtain ⟨s, hs, hi⟩ := List.mem_flatMap.1 hi
  obtain ⟨row, hrow, hi⟩ := List.mem_flatten.1 hi
  exact hlinked.shown_lt s hs row hrow i hi

/-- A keyboard that a loader returns is written with all its keys: those of the sections row by row,
then the others, if any, under a heading of their own. Each key has one entry, which shows the
labels of all its levels, group by group. -/
theorem keys_shown {l : Loader} {k : Keyboard}
    (h : (∃ id, (l.load id).result = .ok k) ∨
      ∃ descriptor, (l.loadDescribed descriptor).result = .ok k) :
    (∃ texts, List.Forall₂ (Item.Written k) (layout k) texts ∧
      keyboardLines k = headLines k ++ texts ∧
      ∀ id, (l.load id).result = .ok k → runShow l id {} =
        { output := { written := Utf8.encode (String.join (headLines k ++ texts)) },
          warnings := (l.load id).warnings }) ∧
    ((layout k).filterMap Item.key?).Perm (List.range k.keys.length) ∧
    (.unplaced ∈ layout k ↔ ∃ i < k.keys.length, i ∉ k.sections.flatMap Section.keys) := by
  have hk := presentable_of_load h
  refine ⟨⟨k.sections.flatMap (sectionLines k) ++ unplacedLines k, hk.written_layout, ?_,
    fun id hid => ?_⟩, hk.perm_layout, unplaced_mem_layout⟩
  · rw [keyboardLines, List.append_assoc]
  · rw [← List.append_assoc, ← keyboardLines]
    have hshow : runShow l id {} = writeLines {} (keyboardLines k) (l.load id).warnings := by
      unfold runShow
      simp only [hid]
    rw [hshow]
    exact (Writes.lines (keyboardLines k) (l.load id).warnings).run_unlimited

/-- Two rows, a key with levels in two groups, and a key beside the section. -/
def spareKey : Directory where
  files :=
    [(["kb", "keyboards.xml"],
      ascii "<keyboards><keyboard id='a' geometry='g' symbols='s'/></keyboards>"),
      (["kb", "geometry", "g.xml"], ascii <|
        "<geometry><section id='left'>b\nc</section><button name='d' oref='w'/><outline id='default'/><outline id='w'/>" ++
        "</geometry>"),
      (["kb", "symbols", "s.xml"], ascii
        "<symbols><key name='c' groups='2'><text>x</text><invalid/><text> </text></key></symbols>")]

theorem spareKey_shown :
    ∃ k, ((Loader.ofDirectory spareKey "kb").load "a").result = .ok k ∧
      List.Forall₂ (Item.Written k) (layout k)
        ["Section left (angle 0)\n", "  Row 1\n", "    b         8  default    \n", "  Row 2\n",
          "    c         9  default    x - | \" \"\n", "Unplaced\n",
          "    d        10  w          \n"] ∧
      .unplaced ∈ layout k := by
  have hwithin : ((Loader.ofDirectory spareKey "kb").loadWithin 1 "a").map (fun k =>
      (k.sections.flatMap (sectionLines k) ++ unplacedLines k, k.keys.length,
        k.sections.flatMap Section.keys)) =
      .ok (["Section left (angle 0)\n", "  Row 1\n", "    b         8  default    \n", "  Row 2\n",
          "    c         9  default    x - | \" \"\n", "Unplaced\n",
          "    d        10  w          \n"], 3, [0, 1]) := by
    decide +kernel
  obtain ⟨k, hwithin, hparts⟩ := map_eq_ok.1 hwithin
  simp only [Prod.mk.injEq] at hparts
  obtain ⟨hlines, hcount, hplaced⟩ := hparts
  have hload := Loader.load_of_loadWithin hwithin
  obtain ⟨⟨texts, hwritten, htexts, -⟩, -, hunplaced⟩ := keys_shown (.inl ⟨"a", hload⟩)
  have hsame : texts = k.sections.flatMap (sectionLines k) ++ unplacedLines k := by
    rw [keyboardLines, List.append_assoc] at htexts
    exact (List.append_cancel_left htexts).symm
  refine ⟨k, hload, ?_, hunplaced.2 ⟨2, by omega, by rw [hplaced]; decide⟩⟩
  rw [← hlines, ← hsame]
  exact hwritten

end KeyLayout.Command
