import KeyLayout.Proofs.Document.Outlines
import KeyLayout.Proofs.Load.Linked
import Mathlib.Data.List.TakeWhile

/-! A geometry becomes a keyboard unless a key has an outline that its document does not define. -/
namespace KeyLayout.Load
open Document Markup Model

/-- A geometry that comes from this source, with symbols bound to it or not. -/
structure ComesFrom (source : Source) (g : Geometry) : Prop where
  ready : g.Ready (outlineNamed source.events)
  known : ∀ id, g.outlines.handle? id = none ↔ id ∉ outlineIds source.events

/-- Symbols do not touch the outlines. -/
theorem outlines_of_foldlM {documents : List Source} {first g : Geometry}
    (hbind : documents.foldlM bindSymbols first = .ok g) : g.outlines = first.outlines :=
  foldlM_invariant (P := fun g => g.outlines = first.outlines)
    (fun hbefore hb => (congrArg (·.outlines) (bare_bindSymbols hb)).trans hbefore) rfl hbind

theorem comesFrom_of_foldlM {source : Source} {documents : List Source} {first g : Geometry}
    (hread : (readGeometry source).result = .ok first)
    (hbind : documents.foldlM bindSymbols first = .ok g) : ComesFrom source g := by
  have hbare : g.bare = first.bare :=
    foldlM_invariant (P := fun g => g.bare = first.bare)
      (fun hbefore hb => (bare_bindSymbols hb).trans hbefore) rfl hbind
  exact ⟨(ready_of_readGeometry hread).of_bare hbare,
    outlines_of_foldlM hbind ▸ handle?_of_readGeometry hread⟩

namespace ComesFrom
variable {source : Source} {g : Geometry} (h : ComesFrom source g)
include h

theorem isNone_handle? (id : String) :
    (g.outlines.handle? id).isNone = decide (id ∉ outlineIds source.events) := by
  rw [Bool.eq_iff_iff, Option.isNone_iff_eq_none, h.known, decide_eq_true_eq]

theorem isSome_handle? (id : String) :
    (g.outlines.handle? id).isSome = decide (id ∈ outlineIds source.events) := by
  rw [← Option.not_isNone, h.isNone_handle?, decide_not, Bool.not_not]

theorem unresolved_eq : g.unresolved =
    (g.keys.filter (·.outline ∉ outlineIds source.events)).map fun key =>
      (key.name, key.outline) := by
  simp only [Geometry.unresolved, h.isNone_handle?]

end ComesFrom

theorem assemble_eq_error_iff {descriptor : Descriptor} {g : Geometry} {e : Error} :
    (assemble descriptor g).result = .error e ↔
      ∃ key outline more, g.unresolved = (key, outline) :: more ∧
        e = .danglingOutline key outline := by
  have hhead : ∀ key outline, (∃ more, g.unresolved = (key, outline) :: more) ↔
      ∃ draft, g.keys.find? (fun key => (g.outlines.handle? key.outline).isNone) = some draft ∧
        (draft.name, draft.outline) = (key, outline) := by
    intro key outline
    rw [← List.head?_eq_some_iff, Geometry.unresolved, List.head?_map, List.head?_filter,
      Option.map_eq_some_iff]
  rw [assemble_eq_error]
  constructor
  · rintro ⟨draft, hfind, rfl⟩
    obtain ⟨more, hmore⟩ := (hhead draft.name draft.outline).2 ⟨draft, hfind, rfl⟩
    exact ⟨_, _, more, hmore, rfl⟩
  · rintro ⟨key, outline, more, hmore, rfl⟩
    obtain ⟨draft, hfind, hdraft⟩ := (hhead key outline).1 ⟨more, hmore⟩
    cases hdraft
    exact ⟨draft, hfind, rfl⟩

/-- A geometry with whatever symbols have been bound to it is assembled unless a key has an outline
that its document does not define, not even behind the key; the first such key is blamed. The keys
in front of it, or all of them, are warned of if they have no symbols. What is assembled is what the
geometry is, key by key. -/
theorem assembly_exact {source : Source} {documents : List Source} {first g : Geometry}
    (hread : (readGeometry source).result = .ok first)
    (hbind : documents.foldlM bindSymbols first = .ok g) (descriptor : Descriptor) :
    (∀ key ∈ g.keys, key.outline = outlineNamed source.events key.name) ∧
    g.unresolved = (g.keys.filter (·.outline ∉ outlineIds source.events)).map
      (fun key => (key.name, key.outline)) ∧
    ((∃ e, (assemble descriptor g).result = .error e) ↔ g.unresolved ≠ []) ∧
    (∀ e, (assemble descriptor g).result = .error e ↔
      ∃ key outline more, g.unresolved = (key, outline) :: more ∧
    e = .danglingOutline key outline) ∧
    (assemble descriptor g).warnings =
      ((g.keys.takeWhile (·.outline ∈ outlineIds source.events)).filter (·.levels.isEmpty)).map
        (fun key => .withoutSymbols key.name) ∧
    ∀ keyboard, (assemble descriptor g).result = .ok keyboard →
      (assemble descriptor g).warnings =
        (g.keys.filter (·.levels.isEmpty)).map (fun key => .withoutSymbols key.name) ∧
      keyboard.keys.map (fun key => (key.name, key.keycode, key.levels)) =
        g.keys.map (fun key => (key.name, key.keycode, key.levels)) ∧
      keyboard.descriptor = descriptor ∧ keyboard.bounds = g.bounds ∧
      keyboard.sections = g.sections ∧
      keyboard.outlines = g.outlines := by
  have hg := comesFrom_of_foldlM hread hbind
  have hwarnings := assemble_warnings descriptor g
  simp only [hg.isSome_handle?] at hwarnings
  refine ⟨hg.ready.described.outline, hg.unresolved_eq, ?_, fun e => assemble_eq_error_iff,
    hwarnings, ?_⟩
  · constructor
    · rintro ⟨e, he⟩
      obtain ⟨key, outline, more, hmore, -⟩ := assemble_eq_error_iff.1 he
      simp [hmore]
    · intro hne
      obtain ⟨⟨key, outline⟩, more, hmore⟩ := List.exists_cons_of_ne_nil hne
      exact ⟨_, assemble_eq_error_iff.2 ⟨key, outline, more, hmore, rfl⟩⟩
  · intro keyboard hkeyboard
    have hall : ∀ key ∈ g.keys, key.outline ∈ outlineIds source.events := by
      by_contra hlack
      have hne : g.unresolved ≠ [] := by simpa [hg.unresolved_eq] using hlack
      obtain ⟨⟨key, outline⟩, more, hmore⟩ := List.exists_cons_of_ne_nil hne
      have herror : (assemble descriptor g).result = .error (.danglingOutline key outline) :=
        assemble_eq_error_iff.2 ⟨key, outline, more, hmore, rfl⟩
      simp [hkeyboard] at herror
    obtain ⟨keys, hlink, rfl⟩ := assemble_eq_ok.1 hkeyboard
    refine ⟨?_, ?_, rfl, rfl, rfl, g.outlines.ofEntries_entries hg.ready.outlines⟩
    · rw [hwarnings, List.takeWhile_eq_self_iff.2 fun key hkey => decide_eq_true (hall key hkey)]
    · refine map_eq_of_links (linkKeys_eq_ok.1 hlink) ?_
      rintro draft _ ⟨outline, -, rfl⟩
      rfl

/-- A key whose outline is defined behind it, and one whose outline is not defined. -/
def lateOutline : Source := .ofBytes <| ascii <|
  "<geometry><section>a b c d</section><button name='b' oref='late'/><button name='c' oref='none'/>" ++
  "<outline id='default'/><outline id='late'/><outline id='default'/></geometry>"

def symbolOfB : Source := .ofBytes (ascii "<symbols><key name='b'><text>x</text></key></symbols>")

theorem lateOutline_dangling : ∃ first g, (readGeometry lateOutline).result = .ok first ∧
    [symbolOfB].foldlM bindSymbols first = .ok g ∧
    ∀ descriptor, (assemble descriptor g).result = .error (.danglingOutline "c" "none") ∧
      (assemble descriptor g).warnings = [.withoutSymbols "a"] := by
  have hkeys :
      ((readGeometry lateOutline).result >>= fun first => [symbolOfB].foldlM bindSymbols first).map
        (·.keys) =
      .ok [{ name := "a", keycode := 8, placed := true },
        { name := "b", keycode := 9, outline := "late", placed := true,
          levels := [⟨0, 0, [⟨.text "x", {}⟩]⟩] },
        { name := "c", keycode := 10, outline := "none", placed := true },
        { name := "d", keycode := 11, placed := true }] := by decide +kernel
  obtain ⟨g, hg, hkeys⟩ := map_eq_ok.1 hkeys
  obtain ⟨first, hread, hbind⟩ := bind_eq_ok.1 hg
  have hids : outlineIds lateOutline.events = ["default", "late", "default"] := by decide +kernel
  refine ⟨first, g, hread, hbind, fun descriptor => ?_⟩
  obtain ⟨-, hunresolved, -, hfails, hwarnings, -⟩ := assembly_exact hread hbind descriptor
  rw [hids, hkeys] at hunresolved hwarnings
  exact ⟨(hfails _).2 ⟨"c", "none", [], hunresolved, rfl⟩, hwarnings⟩

end KeyLayout.Load
