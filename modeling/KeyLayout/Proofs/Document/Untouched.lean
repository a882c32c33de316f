import KeyLayout.Proofs.Document.SymbolsReading

/-! Binding symbols to a geometry in place: nothing is changed before the document has been read to
its end, and then nothing but levels that come behind those of the keys that it binds. -/
namespace KeyLayout.Document
open Markup Model

def bindInPlace (g : Geometry) (source : Source) : Geometry × Option Error :=
  match consume (.ofExcept SymbolsDraft.step) { geometry := g } source with
  | (d, none) => (d.bound, none)
  | (d, some e) => (d.geometry, some e)

theorem bindSymbols_eq_bindInPlace (g : Geometry) (source : Source) :
    bindSymbols g source = outcome id (bindInPlace g source) := by
  unfold bindSymbols bindInPlace
  cases consume (.ofExcept SymbolsDraft.step) { geometry := g } source with
  | mk d refusal => cases refusal <;> rfl

namespace Geometry

/-- The later geometry is the earlier one with more levels, behind those of keys that
a block with slots names. -/
structure Extends (g : Geometry) (blocks : List Block) (later : Geometry) : Prop where
  bounds : later.bounds = g.bounds
  sections : later.sections = g.sections
  outlines : later.outlines = g.outlines
  names : later.names = g.names
  length : later.keys.length = g.keys.length
  keys : ∀ (i : Nat) (key : KeyDraft), g.keys[i]? = some key →
    ∃ added, later.keys[i]? = some { key with levels := key.levels ++ added } ∧
      (g.Indexed → (∀ b ∈ blocks, b.key = some key.name → b.slots = []) → added = [])

variable {g later last : Geometry} {blocks more : List Block}

theorem extends_self (g : Geometry) : g.Extends [] g where
  bounds := rfl
  sections := rfl
  outlines := rfl
  names := rfl
  length := rfl
  keys := fun _ key h => ⟨[], by simpa using h, fun _ _ => rfl⟩

theorem Extends.indexed (h : g.Extends blocks later) (hg : g.Indexed) : later.Indexed := by
  refine hg.congr h.names (List.ext_getElem (by simp [h.length]) fun i hlater hi => ?_)
  rw [List.length_map] at hi
  obtain ⟨added, hadded, -⟩ := h.keys i _ (List.getElem?_eq_getElem hi)
  have hsame := (List.getElem?_eq_some_iff.1 hadded).2
  simp only [List.getElem_map, hsame]

theorem Extends.trans (h : g.Extends blocks later) (hm : later.Extends more last) :
    g.Extends (blocks ++ more) last where
  bounds := hm.bounds.trans h.bounds
  sections := hm.sections.trans h.sections
  outlines := hm.outlines.trans h.outlines
  names := hm.names.trans h.names
  length := hm.length.trans h.length
  keys := by
    intro i key hkey
    obtain ⟨first, hlater, hfirst⟩ := h.keys i key hkey
    obtain ⟨second, hlast, hsecond⟩ := hm.keys i _ hlater
    refine ⟨first ++ second, by simpa using hlast, fun hg hnone => ?_⟩
    rw [List.forall_mem_append] at hnone
    rw [hfirst hg hnone.1, hsecond (h.indexed hg) hnone.2, List.append_nil]

/-- A block touches the key that is found by its name. -/
theorem extends_attach (g : Geometry) (b : Block) : g.Extends [b] (g.attach b) := by
  have hbare := g.bare_attach b
  have hkeys : (g.attach b).keys.map KeyDraft.bare = g.keys.map KeyDraft.bare :=
    congrArg (·.keys) hbare
  refine ⟨congrArg (·.bounds) hbare, congrArg (·.sections) hbare, congrArg (·.outlines) hbare,
    congrArg (·.names) hbare,
    by simpa using congrArg List.length hkeys, fun i key hkey => ?_⟩
  unfold attach
  cases hfound : b.key.bind g.findKey? with
  | none => exact ⟨[], by simpa using hkey, fun _ _ => rfl⟩
  | some j =>
    obtain ⟨name, hname, hj⟩ := Option.bind_eq_some_iff.1 hfound
    by_cases hij : j = i
    · subst hij
      refine ⟨b.levels (g.groupsOf j), by simp [extendLevels, modifyKey, hkey], fun hg hnone => ?_⟩
      obtain ⟨named, hnamed, rfl⟩ := hg.exists_key hj
      obtain rfl : key = named := Option.some.inj (hkey.symm.trans hnamed)
      have hslots : b.slots = [] := hnone b (List.mem_singleton_self b) hname
      simp [Block.levels, hslots]
    · exact ⟨[], by simpa [extendLevels, modifyKey, List.getElem?_modify, hij] using hkey,
        fun _ _ => rfl⟩

theorem extends_foldl_attach (g : Geometry) (blocks : List Block) :
    g.Extends blocks (blocks.foldl attach g) := by
  induction blocks generalizing g with
  | nil => exact g.extends_self
  | cons b more ih => exact (g.extends_attach b).trans (ih (g.attach b))

end Geometry

/-- Binding a document leaves the geometry as it was if it fails, wherever the source ends and
whatever has been read before. If it goes well, slots of the `key` elements come behind the levels
that keys had, and nothing else changes. -/
theorem binding_atomic (g : Geometry) (source : Source) :
    bindSymbols g source = outcome id (bindInPlace g source) ∧
    ((bindInPlace g source).2 ≠ none → (bindInPlace g source).1 = g) ∧
    ((bindInPlace g source).2 = none → ∃! tree : Tree, source.events = tree.events ∧
      g.Extends tree.content.blocks (bindInPlace g source).1) := by
  refine ⟨bindSymbols_eq_bindInPlace g source, fun hfails => ?_, fun hnone => ?_⟩
  · have hgeometry := geometry_fst_consume g source
    unfold bindInPlace at hfails ⊢
    split at hfails
    · exact absurd rfl hfails
    next d e hconsume => simpa [hconsume] using hgeometry
  · have hbound : bindSymbols g source = .ok (bindInPlace g source).1 := by
      rw [bindSymbols_eq_bindInPlace, outcome_eq_ok]
      exact ⟨hnone, rfl⟩
    obtain ⟨tree, htree, -, -, hblocks, -⟩ := attached_of_bindSymbols hbound
    refine ⟨tree, ⟨htree, ?_⟩, fun other hother => Tree.events_inj (hother.1.symm.trans htree)⟩
    rw [hblocks]
    exact g.extends_foldl_attach tree.content.blocks

/-- A key with one level, and a source that breaks off behind a block for it, or does not. -/
theorem brokenOff_untouched :
    let g : Geometry :=
      { keys := [{ name := "a", keycode := 8, levels := [⟨0, 0, []⟩] }], names := [("a", 0)] }
    let block := Read.bytes (ascii "<symbols><key name='a'><text>x</text></key>")
    bindInPlace g [block, .interrupted, .failed "gone"] = (g, some (.unreadable "gone")) ∧
      ∃ bound, bindInPlace g [block, .interrupted, .bytes (ascii "</symbols>")] = (bound, none) ∧
        bound.keys =
          [{ name := "a", keycode := 8, levels := [⟨0, 0, []⟩, ⟨1, 0, [⟨.text "x", {}⟩]⟩] }] := by
  intro g block
  have hfails : (bindInPlace g [block, .interrupted, .failed "gone"]).2 =
      some (.unreadable "gone") := by decide +kernel
  have hnone : (bindInPlace g [block, .interrupted, .bytes (ascii "</symbols>")]).2 = none := by
    decide +kernel
  obtain ⟨-, huntouched, -⟩ := binding_atomic g [block, .interrupted, .failed "gone"]
  refine ⟨Prod.ext (huntouched (by simp [hfails])) hfails, _, Prod.ext rfl hnone, ?_⟩
  decide +kernel

end KeyLayout.Document
