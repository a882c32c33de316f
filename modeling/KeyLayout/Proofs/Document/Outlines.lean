import KeyLayout.Proofs.Document.Warnings

/-! The outlines of a geometry document that is accepted are those that its events define, wherever
they stand in it. -/
namespace KeyLayout.Document
open Markup Model

def outlineId? : Event → Option String
  | .start "outline" a _ => a.get? "id"
  | _ => none

def outlineIds (events : List Event) : List String := events.filterMap outlineId?

variable {d d' : GeometryDraft} {a : Attributes} {path : List String} {c : Content} {name : String}

theorem outlineId?_start (hname : name ≠ "outline") : outlineId? (.start name a path) = none := by
  unfold outlineId?
  split
  next heq =>
    cases heq
    exact absurd rfl hname
  next => rfl

theorem outlineIds_element (below beside : Content) :
    outlineIds ((Content.element name a below beside).events path) =
    (outlineId? (.start name a path)).toList ++ (outlineIds (below.events (name :: path)) ++
      outlineIds (beside.events path)) := by
  simp only [outlineIds, Content.events, List.filterMap_cons, List.filterMap_append]
  cases outlineId? (.start name a path) <;> simp [outlineId?]

/-- What stands deeper than the children of the root defines no outline. -/
theorem outlineIds_deep (hc : c.Plain) (hp : ∀ outer ∈ path, Plain outer) (hdeep : 2 ≤ path.length)
    (h : deliver GeometryDraft.step d (c.events path) = (d', none)) :
    outlineIds (c.events path) = [] := by
  induction c generalizing d d' path with
  | nil => rfl
  | text t beside ih =>
    obtain ⟨next, -, h⟩ := deliver_cons_taken.1 h
    exact ih hc hp hdeep h
  | element name a below beside ihbelow ihbeside =>
    obtain ⟨started, ended, stopped, hstart, hended, -, h⟩ := deliver_element h
    have hname : name ≠ "outline" := by
      rintro rfl
      obtain rfl : path = ["geometry"] := by
        simpa using GeometryDraft.mem_places (GeometryDraft.start_of_step hstart hc.1 hp).1
      simp at hdeep
    have hbelow := ihbelow hc.2.1 (List.forall_mem_cons.2 ⟨hc.1, hp⟩) (by simp; omega) hended
    have hbeside := ihbeside hc.2.2 hp hdeep h
    simp [outlineIds_element, outlineId?_start hname, hbelow, hbeside]

theorem outlineIds_root (hc : c.Plain)
    (h : deliver GeometryDraft.step d (c.events ["geometry"]) = (d', none)) :
    outlineIds (c.events ["geometry"]) = c.outlines.map (·.1) := by
  induction c generalizing d with
  | nil => rfl
  | text t beside ih =>
    obtain ⟨next, -, h⟩ := deliver_cons_taken.1 h
    exact ih hc h
  | element name a below beside _ ih =>
    obtain ⟨started, ended, stopped, hstart, hended, -, h⟩ := deliver_element h
    have hbelow :=
      outlineIds_deep hc.2.1 (List.forall_mem_cons.2 ⟨hc.1, GeometryDraft.plain_geometry⟩)
        (by simp) hended
    rw [outlineIds_element, hbelow, List.nil_append, ih hc.2.2 h, Content.outlines_element,
      List.map_append]
    congr 1
    by_cases hname : name = "outline"
    · subst hname
      simp [outlineId?, Function.comp_def]
    · simp [outlineId?_start hname, hname]

/-- An outline has a number if, and only if, the document defines it. -/
theorem handle?_of_readGeometry {source : Source} {g : Geometry}
    (h : (readGeometry source).result = .ok g) (id : String) :
    g.outlines.handle? id = none ↔ id ∉ outlineIds source.events := by
  obtain ⟨d, hconsume, -, rfl⟩ := consume_of_readGeometry h
  obtain ⟨tree, hevents, hname, hplain, hd⟩ := content_of_consume hconsume
  have hids : outlineIds source.events = tree.content.outlines.map (·.1) := by
    rw [hevents, Tree.events, hname, outlineIds_element, outlineId?_start (by decide),
      outlineIds_root hplain hd]
    simp [outlineIds, Content.events]
  have houtlines := (GeometryDraft.Noted.start.read hplain hd).outlines
  rw [OutlineTable.handle?_eq_none, houtlines, OutlineTable.mem_ids_ofEntries, hids]
  rfl

end KeyLayout.Document
