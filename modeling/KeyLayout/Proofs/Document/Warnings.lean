import KeyLayout.Proofs.Document.Remarks
import KeyLayout.Proofs.Model.Outlines

/-! The warnings of a geometry document that is accepted, and its outlines, are those that it makes
remark by remark. -/
namespace KeyLayout.Document
open Markup Model

namespace GeometryDraft
variable {d d' : GeometryDraft} {said : List Remark} {behind : String} {a : Attributes}
    {path : List String}
  {c : Content} {name : String} {i : Nat} {key : KeyDraft}

/-- The draft has the warnings and the outlines of these remarks, and the
keys placed that they name. -/
structure Noted (d : GeometryDraft) (said : List Remark) : Prop where
  warnings : d.warnings = warningsFrom [] said
  keyed : ∃ seen, d.KeyedBy seen (said.filterMap Remark.key?)
  outlines : d.geometry.outlines = .ofEntries (said.filterMap Remark.definition?)

namespace Noted

theorem start : Noted {} [] := ⟨rfl, ⟨[], .start⟩, rfl⟩

theorem congr (h : d.Noted said) (hwarnings : d'.warnings = d.warnings) (ht : d'.table = d.table)
    (houtlines : d'.geometry.outlines = d.geometry.outlines) : d'.Noted said :=
  ⟨hwarnings.trans h.warnings, h.keyed.imp fun _ hkeyed => hkeyed.congr ht,
    houtlines.trans h.outlines⟩

theorem indexed (h : d.Noted said) : d.geometry.Indexed := by
  obtain ⟨seen, hkeyed⟩ := h.keyed
  exact hkeyed.indexed

theorem introduce (h : d.Noted said) (name : String) : (d.introduce name).1.Noted said := by
  obtain ⟨seen, hkeyed⟩ := h.keyed
  have hsame : (d.introduce name).1.warnings = d.warnings ∧
      (d.introduce name).1.geometry.outlines = d.geometry.outlines := by
    unfold GeometryDraft.introduce
    split <;> exact ⟨rfl, rfl⟩
  exact ⟨hsame.1.trans h.warnings, ⟨_, hkeyed.introduce name⟩, hsame.2.trans h.outlines⟩

theorem tell (h : d.Noted said) (m : Mention) : (d.tell m).1.Noted said := by
  have hi := h.introduce m.name
  obtain ⟨seen, hkeyed⟩ := h.keyed
  exact ⟨hi.warnings, ⟨_, hkeyed.tell m⟩, hi.outlines⟩

/-- A key that is placed already is named again. -/
theorem again (h : d.Noted said) {r : Remark} (hr : r.key? = some name)
    (hname : name ∈ said.filterMap Remark.key?) :
    Noted { d with warnings := d.warnings ++ (r.warning? said).toList } (said ++ [r]) := by
  obtain ⟨seen, hkeyed⟩ := h.keyed
  have hnone : r.definition? = none := by cases r <;> simp_all [Remark.key?, Remark.definition?]
  refine ⟨?_, ⟨seen, (hkeyed.congr_held fun other => ?_).congr rfl⟩, ?_⟩
  · rw [warningsFrom_append, ← h.warnings, List.nil_append, warningsFrom_singleton]
  · rw [List.filterMap_append, List.mem_append]
    refine ⟨.inl, ?_⟩
    rintro (hother | hother)
    · exact hother
    · obtain rfl : other = name := by simpa [hr] using hother
      exact hname
  · simpa [hnone] using h.outlines

/-- A key that has no place gets one. -/
theorem join (h : d.Noted said) {r : Remark} (hi : d.geometry.keys[i]? = some key)
    (hr : r.key? = some key.name) (hw : r.warning? said = none) (s : Option SectionDraft) :
    Noted { d with
      geometry := d.geometry.modifyKey i fun key => { key with placed := true }
      openSection := s } (said ++ [r]) := by
  obtain ⟨seen, hkeyed⟩ := h.keyed
  have hnone : r.definition? = none := by cases r <;> simp_all [Remark.key?, Remark.definition?]
  refine ⟨?_, ⟨seen, ?_⟩, ?_⟩
  · rw [warningsFrom_append, ← h.warnings, List.nil_append, warningsFrom_singleton, hw]
    simp
  · simpa [hr, Geometry.modifyKey] using hkeyed.place hi s
  · simpa [hnone, Geometry.modifyKey] using h.outlines

theorem placed_iff (h : d.Noted said) (hi : d.geometry.keys[i]? = some key) :
    key.placed = true ↔ key.name ∈ said.filterMap Remark.key? := by
  obtain ⟨seen, hkeyed⟩ := h.keyed
  exact (hkeyed.told i key hi).placed

theorem place (h : d.Noted said) {s : SectionDraft} (hs : d.openSection = some s)
    (hi : d.geometry.keys[i]? = some key) : (d.place i).Noted (said ++ [.text key.name]) := by
  have hplaced := h.placed_iff hi
  simp only [GeometryDraft.place, hs, hi]
  cases hp : key.placed with
  | true =>
    have hname := hplaced.1 hp
    have hagain := h.again (r := .text key.name) rfl hname
    simpa [Remark.warning?, hname, GeometryDraft.warn] using hagain
  | false =>
    have hname : key.name ∉ said.filterMap Remark.key? := by simp [← hplaced, hp]
    exact h.join hi rfl (by simp [Remark.warning?, hname]) _

/-- A `button` in a section names a key, and never warns. -/
theorem startButton (h : d.Noted said) {s : SectionDraft} (hs : d.openSection = some s)
    (hp : path.head? = some "section") (hd : d.startButton a path = .ok d') :
    d'.Noted (said ++ (a.get? "name").toList.map .button) := by
  obtain ⟨m, hm, -, rfl⟩ := startButton_eq_ok hd
  obtain ⟨key, hkey, hname⟩ := tell_named h.indexed m
  have ht := h.tell m
  have ho : (d.tell m).1.openSection = some s := (d.openSection_introduce m.name).trans hs
  have hget : a.get? "name" = some key.name := by
    obtain ⟨name, hn, rfl⟩ := Option.map_eq_some_iff.1 hm
    exact hn.trans (congrArg some hname.symm)
  have hplaced := ht.placed_iff hkey
  simp only [hp, hkey, hget, Option.any_some, decide_true, Bool.true_and, Option.toList_some,
    List.map_singleton]
  cases hplace : key.placed with
  | true => simpa [Remark.warning?] using ht.again (r := .button key.name) rfl (hplaced.1 hplace)
  | false =>
    have hjoin :=
      ht.join (r := .button key.name) hkey rfl rfl (some { s with row := s.row ++ [(d.tell m).2] })
    simpa [GeometryDraft.place, ho, hkey, hplace] using hjoin

/-- A `button` beside the sections names no key in one. -/
theorem startButton_outside (h : d.Noted said) (hp : path.head? ≠ some "section")
    (hd : d.startButton a path = .ok d') : d'.Noted said := by
  obtain ⟨m, -, -, rfl⟩ := startButton_eq_ok hd
  simpa [hp] using h.tell m

/-- An outline is defined, maybe again. -/
theorem stopOutline (h : d.Noted said) {o : OutlineDraft} (ho : d.openOutline = some o) :
    d.stopOutline.Noted (said ++ [.outline o.id ⟨o.radius, o.points⟩]) := by
  have hknown : (d.geometry.outlines.handle? o.id).isSome = true ↔
      o.id ∈ (said.filterMap Remark.definition?).map (·.1) := by
    rw [h.outlines, ← OutlineTable.mem_ids_ofEntries, ← not_iff_not, Bool.not_eq_true,
      Option.isSome_eq_false_iff, Option.isNone_iff_eq_none, OutlineTable.handle?_eq_none]
  have hwarnings : d.stopOutline.warnings = d.warnings ++
      ((Remark.outline o.id ⟨o.radius, o.points⟩).warning? said).toList := by
    unfold GeometryDraft.stopOutline
    simp only [ho, Remark.warning?, ← hknown]
    split <;> simp [GeometryDraft.warn]
  have hsame : d.stopOutline.table = d.table ∧
      d.stopOutline.geometry.outlines =
        (d.geometry.outlines.intern o.id ⟨o.radius, o.points⟩).1 := by
    unfold GeometryDraft.stopOutline
    simp only [ho]
    split <;> exact ⟨rfl, rfl⟩
  refine ⟨?_, ?_, ?_⟩
  · rw [hwarnings, warningsFrom_append, ← h.warnings, List.nil_append, warningsFrom_singleton]
  · obtain ⟨seen, hkeyed⟩ := h.keyed
    refine ⟨seen, ?_⟩
    simpa [Remark.key?, List.filterMap_cons] using hkeyed.congr hsame.1
  · rw [hsame.2, h.outlines, List.filterMap_append, List.filterMap_cons, List.filterMap_nil,
      Remark.definition?,
      OutlineTable.ofEntries_append_singleton]

end Noted

/-- A section is open, and behind its last child there is some text that is not yet read. -/
structure Hears (d : GeometryDraft) (said : List Remark) (behind : String) : Prop where
  noted : d.Noted said
  opened : ∃ s, d.openSection = some s ∧ s.content = behind

theorem opened_place {s : SectionDraft} (hs : d.openSection = some s) (i : Nat) :
    ∃ s', (d.place i).openSection = some s' ∧ s'.content = s.content := by
  have hcontent := d.content_place i
  rw [hs, Option.map_some] at hcontent
  exact Option.map_eq_some_iff.1 hcontent

namespace Hears

theorem mention (h : d.Hears said behind) (name : String) :
    (d.mention name).Hears (said ++ [.text name]) behind := by
  obtain ⟨s, hs, rfl⟩ := h.opened
  obtain ⟨key, hkey, rfl⟩ := introduce_named h.noted.indexed name
  have ho : (d.introduce key.name).1.openSection = some s :=
    (d.openSection_introduce key.name).trans hs
  exact ⟨(h.noted.introduce key.name).place ho hkey, opened_place ho _⟩

theorem readLine (h : d.Hears said behind) (line : List Char) :
    (d.readLine line).Hears (said ++ (Text.words line).map .text) behind := by
  unfold GeometryDraft.readLine
  induction Text.words line generalizing d said with
  | nil => simpa using h
  | cons name more ih => simpa using ih (h.mention name)

theorem endRow (h : d.Hears said behind) : d.endRow.Hears said behind := by
  obtain ⟨s, hs, hcontent⟩ := h.opened
  refine ⟨h.noted.congr rfl rfl rfl, s.endRow, by simp [GeometryDraft.endRow, hs], ?_⟩
  unfold SectionDraft.endRow
  split <;> exact hcontent

theorem readMoreLines (h : d.Hears said behind) (lines : List (List Char)) :
    (d.readMoreLines lines).Hears (said ++ (lines.flatMap Text.words).map .text) behind := by
  unfold GeometryDraft.readMoreLines
  induction lines generalizing d said with
  | nil => simpa using h
  | cons line more ih => simpa using ih (h.endRow.readLine line)

theorem readContent (h : d.Hears said behind) :
    d.readContent.Hears (said ++ textRemarks behind) "" := by
  obtain ⟨s, hs, rfl⟩ := h.opened
  have hcleared : Hears { d with openSection := some { s with content := "" } } said "" :=
    ⟨h.noted.congr rfl rfl rfl, _, rfl, rfl⟩
  unfold GeometryDraft.readContent textRemarks
  simp only [hs]
  cases Text.lines s.content.toList with
  | nil => simpa using hcleared
  | cons first more => simpa using (hcleared.readLine first).readMoreLines more

theorem addText (h : d.Hears said behind) (text : String) :
    (d.addText text ["section", "geometry"]).Hears said (behind ++ text) := by
  obtain ⟨s, hs, rfl⟩ := h.opened
  exact ⟨h.noted.congr rfl rfl rfl, { s with content := s.content ++ text },
    by simp [GeometryDraft.addText, hs], rfl⟩

theorem startBounds (h : d.Hears said behind) (hp : path.head? = some "section")
    (hd : d.startBounds a path = .ok d') : d'.Hears said behind := by
  obtain ⟨s, hs, hcontent⟩ := h.opened
  obtain ⟨r, -, ⟨opened, ho, -, rfl⟩ | ⟨houtside, -⟩⟩ := startBounds_eq_ok hd
  · obtain rfl : s = opened := Option.some.inj (hs.symm.trans ho)
    exact ⟨h.noted.congr rfl rfl rfl, _, rfl, hcontent⟩
  · simp [hs, hp] at houtside

theorem startButton (h : d.Hears said behind) (hp : path.head? = some "section")
    (hd : d.startButton a path = .ok d') :
    d'.Hears (said ++ (a.get? "name").toList.map .button) behind := by
  obtain ⟨s, hs, rfl⟩ := h.opened
  refine ⟨h.noted.startButton hs hp hd, ?_⟩
  obtain ⟨m, -, -, rfl⟩ := startButton_eq_ok hd
  have ho : (d.tell m).1.openSection = some s := (d.openSection_introduce m.name).trans hs
  split
  · exact opened_place ho _
  · exact ⟨s, ho, rfl⟩

end Hears

/-- What a section holds is remarked as it says. -/
theorem Hears.read (h : d.Hears said behind) (hc : c.Plain)
    (hd : deliver step d (c.events ["section", "geometry"]) = (d', none)) :
    d'.readContent.Hears (said ++ c.sectionRemarks behind) "" := by
  induction c generalizing d said behind with
  | nil =>
    cases hd
    exact h.readContent
  | text t beside ih =>
    obtain ⟨next, hnext, hd⟩ := deliver_cons_taken.1 hd
    cases hnext
    exact ih (h.addText t) hc hd
  | element name a below beside _ ih =>
    obtain ⟨started, ended, stopped, hstart, hended, hstop, hrest⟩ := deliver_element hd
    obtain ⟨hplace, hstart⟩ := start_of_step hstart hc.1 plain_section
    have hname : name = "bounds" ∨ name = "button" := by simpa using mem_places hplace
    obtain rfl : ended = started := by
      refine eq_of_deliver hc.2.1 (List.forall_mem_cons.2 ⟨hc.1, plain_section⟩) ?_
        (fun inner hinner => ?_) hended
      · rcases hname with rfl | rfl <;> simp
      · simpa using mem_places hinner
    -- The text before a child is read before the child, so that it is remarked first.
    have hread := h.readContent
    have hstopped : ended.stop name = ended := by rcases hname with rfl | rfl <;> rfl
    obtain rfl : ended = stopped := hstopped.symm.trans (Prod.mk.inj hstop).1
    rcases hname with rfl | rfl
    · simpa [Content.sectionRemarks] using ih (hread.startBounds rfl hstart) hc.2.2 hrest
    · simpa [Content.sectionRemarks] using ih (hread.startButton rfl hstart) hc.2.2 hrest

namespace Noted

/-- A section that ends has nothing more to say than its content. -/
theorem stopSection (h : d.readContent.Noted said) : d.stopSection.Noted said := by
  unfold GeometryDraft.stopSection
  simp only
  split
  · exact h
  · exact h.congr rfl rfl rfl

/-- A child of the root is remarked as it says. -/
theorem child (h : d.Noted said) (hc : c.Plain)
    (hname : name = "bounds" ∨ name = "section" ∨ name = "button" ∨ name = "outline")
    {started ended : GeometryDraft} (hstart : d.start name a ["geometry"] = .ok started)
    (hd : deliver step started (c.events [name, "geometry"]) = (ended, none)) :
    (ended.stop name).Noted (said ++ remarksOf name a c) := by
  rcases hname with rfl | rfl | rfl | rfl
  · obtain rfl := eq_of_deliver_leaf (.inl rfl) hc hd
    obtain ⟨r, -, ⟨s, -, hp, -⟩ | ⟨-, rfl⟩⟩ := startBounds_eq_ok hstart
    · simp at hp
    · have hnone : remarksOf "bounds" a c = [] := by simp [remarksOf]
      rw [hnone, List.append_nil]
      exact h.congr rfl rfl rfl
  · obtain ⟨angle, -, hstart⟩ := bind_eq_ok.1 hstart
    cases hstart
    have hopened :
        Hears { d with openSection := some { name := a.get? "id", angle := angle.getD 0 } } said "" :=
      ⟨h.congr rfl rfl rfl, _, rfl, rfl⟩
    exact (hopened.read hc hd).noted.stopSection
  · obtain rfl := eq_of_deliver_leaf (.inr rfl) hc hd
    simpa [remarksOf, stop] using h.startButton_outside (by simp) hstart
  · obtain ⟨id, hid, rfl⟩ := startOutline_eq_ok hstart
    have hended := points_of_deliver hc hd
    have hopened : ended.Noted said := by
      rw [hended]
      exact h.congr rfl rfl rfl
    have ho : ended.openOutline =
        some ⟨id, (a.value? Number.real? "corner-radius").getD 0, c.points⟩ := by
      rw [hended]
      rfl
    simpa [remarksOf, stop, hid, outlineOf] using hopened.stopOutline ho

/-- What the root holds is remarked in document order. -/
theorem read (h : d.Noted said) (hc : c.Plain)
    (hd : deliver step d (c.events ["geometry"]) = (d', none)) : d'.Noted (said ++ c.remarks) := by
  induction c generalizing d said with
  | nil =>
    cases hd
    simpa [Content.remarks] using h
  | text t beside ih =>
    obtain ⟨next, hnext, hd⟩ := deliver_cons_taken.1 hd
    cases hnext
    exact ih h hc hd
  | element name a below beside _ ih =>
    obtain ⟨started, ended, stopped, hstart, hended, hstop, hd⟩ := deliver_element hd
    obtain ⟨hplace, hstart⟩ := start_of_step hstart hc.1 plain_geometry
    cases hstop
    have hchild := h.child hc.2.1 (by simpa using mem_places hplace) hstart hended
    simpa [Content.remarks] using ih hchild hc.2.2 hd

end Noted

end GeometryDraft

theorem warnings_of_readGeometry {source : Source} {g : Geometry}
    (h : (readGeometry source).result = .ok g) :
    ∃ d, consume GeometryDraft.step {} source = (d, none) ∧ d.geometry = g ∧
      (readGeometry source).warnings = d.warnings ++ (g.keys.filter (!·.placed)).map fun key =>
        .notPlaced key.name := by
  obtain ⟨d, hconsume, hkeycodes, rfl⟩ := consume_of_readGeometry h
  exact ⟨d, hconsume, rfl, by simp only [readGeometry, hconsume, hkeycodes]⟩

/-- What an accepted geometry document says makes its keys, its outlines and its warnings. -/
theorem noted_of_readGeometry {source : Source} {g : Geometry}
    (h : (readGeometry source).result = .ok g) :
    ∃ tree : Tree, source.events = tree.events ∧ tree.name = "geometry" ∧
      (∃ seen, Keyed seen (tree.content.remarks.filterMap Remark.key?) g.keys) ∧
      g.outlines = .ofEntries tree.content.outlines ∧
      (readGeometry source).warnings = warningsFrom [] tree.content.remarks ++
        (g.keys.filter (!·.placed)).map fun key => .notPlaced key.name := by
  obtain ⟨d, hconsume, rfl, hwarnings⟩ := warnings_of_readGeometry h
  obtain ⟨tree, hevents, hname, hplain, hd⟩ := content_of_consume hconsume
  have hnoted := GeometryDraft.Noted.start.read hplain hd
  rw [List.nil_append] at hnoted
  have hkeyed := hnoted.keyed.imp fun _ hkeyed => hkeyed.toKeyed
  exact ⟨tree, hevents, hname, hkeyed, hnoted.outlines, hnoted.warnings ▸ hwarnings⟩

/-- The warnings of an accepted geometry document, in order: for each name in the text of a section
whose key a section has placed before, and for each outline whose id is defined before, where it
stands; then for each key that no section names, in the order of the keys. So every name in a text
places its key or is warned of. -/
theorem warnings_exact {source : Source} {g : Geometry} (h : (readGeometry source).result = .ok g) :
    ∃! tree : Tree, source.events = tree.events ∧ tree.name = "geometry" ∧
      (readGeometry source).warnings = warningsFrom [] tree.content.remarks ++
        ((g.keys.map (·.name)).filter (· ∉ tree.content.remarks.filterMap Remark.key?)).map
          .notPlaced ∧
      (∀ key ∈ g.keys, key.placed = true ↔ key.name ∈ tree.content.remarks.filterMap Remark.key?) ∧
      tree.content.remarks.countP Remark.isText =
        g.keys.countP (fun key => placedByText tree.content.remarks key.name) +
          (readGeometry source).warnings.countP Warning.isSkip := by
  obtain ⟨tree, hevents, hname, ⟨seen, hkeyed⟩, -, hwarnings⟩ := noted_of_readGeometry h
  have hplaced : ∀ key ∈ g.keys, key.placed = true ↔
      key.name ∈ tree.content.remarks.filterMap Remark.key? := by
    intro key hkey
    obtain ⟨i, hi⟩ := List.mem_iff_getElem?.1 hkey
    exact (hkeyed.told i key hi).placed
  have hunplaced : (g.keys.filter (!·.placed)).map (fun key => Warning.notPlaced key.name) =
      ((g.keys.map (·.name)).filter (· ∉ tree.content.remarks.filterMap Remark.key?)).map
        .notPlaced := by
    rw [List.filter_map, List.map_map]
    refine congrArg _ (List.filter_congr fun key hkey => ?_)
    simp only [Function.comp_apply, ← hplaced key hkey]
    cases key.placed <;> rfl
  have hnames :
      ∀ name ∈ tree.content.remarks.filterMap Remark.key?, name ∈ g.keys.map (·.name) := by
    intro name hmem
    rw [hkeyed.names]
    exact hkeyed.held_subset hmem
  have hskips : (readGeometry source).warnings.countP Warning.isSkip =
      (warningsFrom [] tree.content.remarks).countP Warning.isSkip := by
    rw [hwarnings, List.countP_append, List.countP_map]
    simp [Function.comp_def, Warning.isSkip]
  refine ⟨tree, ⟨hevents, hname, hwarnings.trans (by rw [hunplaced]), hplaced, ?_⟩,
    fun other hother => ?_⟩
  · rw [hskips, count_text hkeyed.nodup hnames, List.countP_map]
    rfl
  · exact Tree.events_inj (hother.1.symm.trans hevents)

/-- A text names a key again, and one that a `button` has placed; an outline is defined twice, and
no section names the first key. -/
def oddRemarks : Source := .ofBytes <| ascii <|
  "<geometry><button name='q'/><outline id='o'/><section>a <button name='c'/> a</section><outline id='o'/>" ++
  "<section>c<!---->  d</section></geometry>"

theorem oddRemarks_warned : ∃ g, ∃ tree : Tree, (readGeometry oddRemarks).result = .ok g ∧
    oddRemarks.events = tree.events ∧
    (readGeometry oddRemarks).warnings =
      [.alreadyPlaced "a", .outlineRedefined "o", .alreadyPlaced "c", .notPlaced "q"] ∧
    tree.content.remarks.countP Remark.isText =
      g.keys.countP (fun key => placedByText tree.content.remarks key.name) + 2 := by
  have hlist : (readGeometry oddRemarks).warnings =
      [.alreadyPlaced "a", .outlineRedefined "o", .alreadyPlaced "c", .notPlaced "q"] := by
        decide +kernel
  have hread : (readGeometry oddRemarks).result.map (fun _ => ()) = .ok () := by decide +kernel
  obtain ⟨g, hg, -⟩ := map_eq_ok.1 hread
  obtain ⟨tree, ⟨hevents, -, -, -, hcount⟩, -⟩ := warnings_exact hg
  rw [hlist] at hcount
  exact ⟨g, tree, hg, hevents, hlist, hcount⟩

end KeyLayout.Document
