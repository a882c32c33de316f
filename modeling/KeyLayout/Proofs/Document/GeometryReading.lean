import KeyLayout.Proofs.Document.Delivery
import KeyLayout.Proofs.Document.GeometryElements
import KeyLayout.Proofs.Model.Outlines

/-! Every geometry document that is accepted leaves keys, sections and outlines sound. -/
namespace KeyLayout.Document
open Markup Model

theorem outlineAfter_of_ne {name : String} (hn : name ≠ "button") (a : Attributes)
    (path : List String) (given : String → String) :
    (fun key => outlineAfter key (given key) (.start name a path)) = given := by
  funext key
  unfold outlineAfter
  split
  next heq =>
    cases heq
    exact absurd rfl hn
  next => rfl

namespace GeometryDraft
variable {given : String → String} {d d' : GeometryDraft} {a : Attributes} {path : List String}

theorem Sound.startBounds (h : Sound given d) (hd : d.startBounds a path = .ok d') :
    Sound given d' := by
  obtain ⟨r, -, ⟨s, ho, -, rfl⟩ | ⟨-, rfl⟩⟩ := startBounds_eq_ok hd
  · exact h.of_openSection ho rfl id
  · exact h.congr rfl rfl rfl rfl

theorem Sound.startSection (h : Sound given d) (hd : d.startSection a = .ok d') :
    Sound given d' := by
  obtain ⟨angle, -, hd⟩ := bind_eq_ok.1 hd
  cases hd
  refine ⟨h.described, h.numbered.congr rfl, ⟨?_, ?_, h.arranged.rows, ?_⟩, h.outlines⟩
  · have := h.arranged.nodup
    simp only [shown, List.nodup_append] at this
    simpa [shown, SectionDraft.keys] using this.1
  · intro i hi
    exact h.arranged.placed i
      (List.mem_append_left _ (by simpa [shown, SectionDraft.keys] using hi))
  · rintro _ ⟨⟩
    simp

/-- A key that is told of has the outline that is told of it, if there is one. -/
theorem Sound.tell (h : Sound given d) {m : Mention}
    (hrange : ∀ code ∈ m.keycode, firstKeycode ≤ code ∧ code < 1 <<< 32) :
    Sound (Function.update given m.name (m.outline.getD (given m.name))) (d.tell m).1 := by
  have hi := h.introduce m.name
  obtain ⟨key, hkey, hname⟩ := introduce_named h.numbered.indexed m.name
  have hmem := List.mem_of_getElem? hkey
  have hge : firstKeycode + (d.introduce m.name).1.geometry.keys.length ≤ 1 <<< 32 →
      firstKeycode ≤ m.keycode.getD key.keycode := by
    intro hfew
    cases hm : m.keycode with
    | none => exact hi.described.keycode_ge hfew key hmem
    | some code => exact (hrange code hm).1
  have hlt : m.keycode.getD key.keycode < 1 <<< 32 := by
    cases hm : m.keycode with
    | none => exact hi.described.keycode_lt key hmem
    | some code => exact (hrange code hm).2
  have hdescribed := hi.described.modify hkey (f := fun key =>
    { key with outline := m.outline.getD key.outline, keycode := m.keycode.getD key.keycode })
    (fun _ => rfl) hge hlt
  simp only [hi.described.outline key hmem, hname] at hdescribed
  have hnumbered : (d.tell m).1.Numbered := h.numbered.tell m
  exact ⟨hdescribed, hnumbered,
    hi.arranged.of_keys rfl rfl fun j hj => hj.modify _ fun _ hplaced => hplaced, hi.outlines⟩

theorem Sound.startButton (h : Sound given d) (hd : d.startButton a path = .ok d') :
    ∃ name, a.get? "name" = some name ∧
      Sound (Function.update given name ((a.get? "oref").getD (given name))) d' := by
  obtain ⟨m, hm, hrange, rfl⟩ := startButton_eq_ok hd
  obtain ⟨name, hname, rfl⟩ := Option.map_eq_some_iff.1 hm
  have htold := h.tell hrange
  refine ⟨name, hname, ?_⟩
  split
  · exact htold.place _
  · exact htold

theorem Sound.startOutline (h : Sound given d) (hd : d.startOutline a = .ok d') :
    Sound given d' := by
  obtain ⟨id, -, rfl⟩ := startOutline_eq_ok hd
  exact h.congr rfl rfl rfl rfl

theorem Sound.startPoint (h : Sound given d) (hd : d.startPoint a = .ok d') : Sound given d' := by
  obtain rfl := startPoint_eq_ok hd
  exact h.congr rfl rfl rfl rfl

theorem Sound.start (h : Sound given d) {name : String} (hd : d.start name a path = .ok d') :
    Sound (fun key => outlineAfter key (given key) (.start name a path)) d' := by
  unfold GeometryDraft.start at hd
  split at hd
  · rw [outlineAfter_of_ne (by decide)]
    exact h.startBounds hd
  · rw [outlineAfter_of_ne (by decide)]
    exact h.startSection hd
  · obtain ⟨name, hname, hd⟩ := h.startButton hd
    rwa [outlineAfter_button hname]
  · rw [outlineAfter_of_ne (by decide)]
    exact h.startOutline hd
  · rw [outlineAfter_of_ne (by decide)]
    exact h.startPoint hd
  next hbutton _ _ =>
    cases hd
    rwa [outlineAfter_of_ne hbutton]

theorem Sound.stopSection (h : Sound given d) : Sound given d.stopSection := by
  have hr := h.readContent
  unfold GeometryDraft.stopSection
  simp only
  generalize d.readContent = d₁ at hr
  cases ho : d₁.openSection with
  | none => exact hr
  | some s =>
    have hdone : s.endRow.rows.flatten = s.keys := by
      simpa [SectionDraft.keys, SectionDraft.row_endRow] using s.keys_endRow
    have hshown :
        d₁.shown = d₁.geometry.sections.flatMap Section.keys ++ s.endRow.rows.flatten := by
      simp [shown, ho, hdone]
    have hnodup := hshown ▸ hr.arranged.nodup
    have hplaced := hshown ▸ hr.arranged.placed
    refine ⟨hr.described, hr.numbered.congr rfl, ⟨?_, ?_, ?_, by simp⟩, hr.outlines⟩
    · simpa [shown, Section.keys] using hnodup
    · intro i hi
      exact hplaced i (by simpa [shown, Section.keys] using hi)
    · intro other hmem
      rcases List.mem_append.1 hmem with hmem | hmem
      · exact hr.arranged.rows other hmem
      · obtain rfl := List.mem_singleton.1 hmem
        exact SectionDraft.nil_not_mem_rows_endRow (hr.arranged.openRows s ho)

theorem Sound.stopOutline (h : Sound given d) : Sound given d.stopOutline := by
  unfold GeometryDraft.stopOutline
  split
  · exact h
  next o ho =>
    simp only
    split
    all_goals exact ⟨h.described, h.numbered.congr rfl, h.arranged.of_keys rfl rfl fun _ hi => hi,
      OutlineTable.nodup_ids_intern h.outlines _⟩

theorem Sound.addText (h : Sound given d) (text : String) (path : List String) :
    Sound given (d.addText text path) := by
  unfold GeometryDraft.addText
  split
  · cases ho : d.openSection with
    | none => exact h.congr rfl rfl ho.symm rfl
    | some s => exact h.of_openSection ho rfl id
  · exact h

/-- Every event that is accepted keeps a geometry document sound. -/
theorem Sound.step {event : Event} (h : Sound given d)
    (hd : GeometryDraft.step d event = (d', none)) :
    Sound (fun key => outlineAfter key (given key) event) d' := by
  cases event with
  | start name a path =>
    simp only [GeometryDraft.step] at hd
    split at hd
    · simp at hd
    · have hr : Sound given (if path.head? = some "section" then d.readContent else d) := by
        split
        · exact h.readContent
        · exact h
      split at hd
      next hstart =>
        cases hd
        exact hr.start hstart
      next => simp at hd
  | stop name path =>
    cases hd
    unfold GeometryDraft.stop
    split
    · exact h.stopSection
    · exact h.stopOutline
    · exact h
  | text text path =>
    cases hd
    exact h.addText text path

end GeometryDraft

/-- A keycode that is not found among others is a new one. -/
theorem nodup_keycodes_concat {earlier : List KeyDraft} {key : KeyDraft}
    (he : (earlier.map (·.keycode)).Nodup) (h : earlier.find? (·.keycode == key.keycode) = none) :
    ((earlier ++ [key]).map (·.keycode)).Nodup := by
  have hnew : key.keycode ∉ earlier.map (·.keycode) := by
    intro hmem
    obtain ⟨other, hother, hsame⟩ := List.mem_map.1 hmem
    have := List.find?_eq_none.1 h other hother
    simp [hsame] at this
  simpa using he.append (List.nodup_singleton key.keycode) (by simpa using hnew)

theorem keycodes_nodup_of_duplicateKeycode? {earlier keys : List KeyDraft}
    (he : (earlier.map (·.keycode)).Nodup)
    (h : duplicateKeycode? earlier keys = none) : ((earlier ++ keys).map (·.keycode)).Nodup := by
  induction keys generalizing earlier with
  | nil => simpa using he
  | cons key more ih =>
    unfold duplicateKeycode? at h
    split at h
    · simp at h
    next hfind => simpa using ih (nodup_keycodes_concat he hfind) h

/-- What linking needs: keys as described and indexed, keycodes and ids that differ, sections that
show existing keys once. -/
structure Geometry.Ready (given : String → String) (g : Geometry) : Prop where
  described : Described given g.keys
  indexed : g.Indexed
  keycodes : (g.keys.map (·.keycode)).Nodup
  shown : (g.sections.flatMap Section.keys).Nodup
  shown_lt : ∀ i ∈ g.sections.flatMap Section.keys, i < g.keys.length
  rows : ∀ s ∈ g.sections, [] ∉ s.rows
  outlines : (g.outlines.entries.map (·.1)).Nodup

theorem GeometryDraft.Sound.ready {given : String → String} {d : GeometryDraft} (h : d.Sound given)
    (hk : (d.geometry.keys.map (·.keycode)).Nodup) : d.geometry.Ready given where
  described := h.described
  indexed := h.numbered.indexed
  keycodes := hk
  shown := (List.nodup_append.1 h.arranged.nodup).1
  shown_lt := by
    intro i hi
    obtain ⟨key, hkey, -⟩ := h.arranged.placed i (List.mem_append_left _ hi)
    exact (List.getElem?_eq_some_iff.1 hkey).1
  rows := h.arranged.rows
  outlines := h.outlines

/-- A geometry that a document gives is that of the draft at its end, and
its keycodes are distinct. -/
theorem consume_of_readGeometry {source : Source} {geometry : Geometry}
    (h : (readGeometry source).result = .ok geometry) :
    ∃ d, consume GeometryDraft.step {} source = (d, none) ∧
      duplicateKeycode? [] d.geometry.keys = none ∧
      d.geometry = geometry := by
  unfold readGeometry at h
  split at h
  · simp at h
  next d hconsume =>
    split at h
    · simp at h
    next hkeycodes =>
      cases h
      exact ⟨d, hconsume, hkeycodes, rfl⟩

theorem ready_of_readGeometry {source : Source} {geometry : Geometry}
    (h : (readGeometry source).result = .ok geometry) :
    geometry.Ready (outlineNamed source.events) := by
  obtain ⟨d, hconsume, hkeycodes, rfl⟩ := consume_of_readGeometry h
  have hsound := consume_invariant (P := fun seen d => d.Sound (outlineNamed seen))
    (fun h hs => outlineNamed_append _ _ ▸ h.step hs) GeometryDraft.sound_start hconsume
  have hnil : (([] : List KeyDraft).map (·.keycode)).Nodup := List.nodup_nil
  exact hsound.ready (keycodes_nodup_of_duplicateKeycode? hnil hkeycodes)

end KeyLayout.Document
