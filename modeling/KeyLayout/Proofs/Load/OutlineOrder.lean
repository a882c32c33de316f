import KeyLayout.Proofs.Document.Warnings
import KeyLayout.Proofs.Load.Assembly

/-! The outlines of a keyboard come in the order in which its geometry document first defines them,
each as it is defined last. -/
namespace KeyLayout.Load
open Document Markup Model

theorem outlines_of_assemble {descriptor : Descriptor} {g : Geometry} {keyboard : Keyboard}
    (h : (assemble descriptor g).result = .ok keyboard) :
    keyboard.outlines = .ofEntries g.outlines.entries := by
  obtain ⟨keys, -, rfl⟩ := assemble_eq_ok.1 h
  rfl

/-- An accepted geometry document has each outline once, where it is defined first and as it is
defined last; every definition but the first is warned of. The keyboard has the same outlines,
numbered in this order. -/
theorem outlines_in_order {source : Source} {g : Geometry}
    (h : (readGeometry source).result = .ok g) :
    ∃! tree : Tree, source.events = tree.events ∧ tree.name = "geometry" ∧
      g.outlines.entries.map (·.1) = (tree.content.outlines.map (·.1)).eraseDups ∧
      (∀ entry ∈ g.outlines.entries, tree.content.outlines.reverse.lookup entry.1 = some entry.2) ∧
      (∀ id, (readGeometry source).warnings.count (.outlineRedefined id) =
        (tree.content.outlines.map (·.1)).count id - 1) ∧
      ∀ documents bound descriptor keyboard, List.foldlM bindSymbols g documents = .ok bound →
        (assemble descriptor bound).result = .ok keyboard →
        keyboard.outlines.entries = g.outlines.entries ∧
        ∀ id i, keyboard.outlines.handle? id = some i ↔
          (tree.content.outlines.map (·.1)).eraseDups[i]? = some id := by
  obtain ⟨tree, hevents, hname, -, houtlines, hwarnings⟩ := noted_of_readGeometry h
  have hids : g.outlines.entries.map (·.1) = (tree.content.outlines.map (·.1)).eraseDups := by
    rw [houtlines, OutlineTable.ids_ofEntries]
  have hnodup : (g.outlines.entries.map (·.1)).Nodup := by
    rw [houtlines]
    exact OutlineTable.nodup_ids_ofEntries _
  refine ⟨tree, ⟨hevents, hname, hids, ?_, ?_, ?_⟩, fun other hother => ?_⟩
  · intro entry hentry
    rw [← OutlineTable.lookup_ofEntries, ← houtlines]
    exact OutlineTable.lookup_of_mem hnodup hentry
  · intro id
    have hnone :
        ((g.keys.filter (!·.placed)).map fun key => Warning.notPlaced key.name).count
          (.outlineRedefined id) = 0 :=
      List.count_eq_zero.2 (by simp)
    rw [hwarnings, List.count_append, count_redefined, hnone]
    rfl
  · intro documents bound descriptor keyboard hbind hkeyboard
    have hsame : keyboard.outlines = g.outlines := by
      rw [outlines_of_assemble hkeyboard, outlines_of_foldlM hbind,
        OutlineTable.ofEntries_entries _ hnodup]
    rw [hsame]
    refine ⟨rfl, fun id i => ?_⟩
    rw [OutlineTable.handle?_eq_some hnodup, hids]
  · exact Tree.events_inj (hother.1.symm.trans hevents)

/-- An outline is defined again behind another one, now with a point. -/
def shiftingOutlines : Source := .ofBytes <| ascii <|
  "<geometry><outline id='a'/><outline id='b'/><outline id='a'><point x='1' y='2'/></outline></geometry>"

theorem shiftingOutlines_numbered :
    ∃ g keyboard, ∃ tree : Tree, (readGeometry shiftingOutlines).result = .ok g ∧
    (assemble { id := "k", geometry := "g" } g).result = .ok keyboard ∧
    shiftingOutlines.events = tree.events ∧
    (readGeometry shiftingOutlines).warnings = [.outlineRedefined "a"] ∧
    (tree.content.outlines.map (·.1)).eraseDups = ["a", "b"] ∧
    keyboard.outlines.entries.map (fun entry => (entry.1, entry.2.points.length)) =
      [("a", 1), ("b", 0)] ∧
    keyboard.outlines.handle? "b" = some 1 := by
  have hread : (readGeometry shiftingOutlines).result.map (fun g =>
      (g.outlines.entries.map (·.1),
        (assemble { id := "k", geometry := "g" } g).result.toOption.map fun keyboard =>
        keyboard.outlines.entries.map fun entry => (entry.1, entry.2.points.length))) =
      .ok (["a", "b"], some [("a", 1), ("b", 0)]) := by decide +kernel
  have hwarned : (readGeometry shiftingOutlines).warnings = [.outlineRedefined "a"] := by
    decide +kernel
  obtain ⟨g, hg, hlists⟩ := map_eq_ok.1 hread
  obtain ⟨hids, hassemble⟩ := Prod.mk.inj hlists
  cases hkeyboard : (assemble { id := "k", geometry := "g" } g).result with
  | error e => simp [hkeyboard, Except.toOption] at hassemble
  | ok keyboard =>
    have hpoints : keyboard.outlines.entries.map (fun entry => (entry.1, entry.2.points.length)) =
        [("a", 1), ("b", 0)] := by
      simpa [hkeyboard, Except.toOption] using hassemble
    obtain ⟨tree, ⟨hevents, -, hfirst, -, -, hassembled⟩, -⟩ := outlines_in_order hg
    have horder := hfirst.symm.trans hids
    obtain ⟨-, hnumber⟩ := hassembled [] g _ keyboard rfl hkeyboard
    exact ⟨g, keyboard, tree, hg, hkeyboard, hevents, hwarned, horder, hpoints,
      (hnumber "b" 1).2 (by rw [horder]; rfl)⟩

end KeyLayout.Load
