import KeyLayout.Proofs.Document.Accepted
import KeyLayout.Proofs.Document.Filling

/-! An accepted geometry document has the keys that it mentions, in the order of their first
mention, and its sections show them line by line. -/
namespace KeyLayout.Markup
open Model

def Content.points : Content → List (Point Float)
  | nil => []
  | text _ beside => beside.points
  | element name a _ beside => (if name = "point" then (pointOf a).toList else []) ++ beside.points

end KeyLayout.Markup

namespace KeyLayout.Document
open Markup Model

/-- A section has the heading and the rows of a passage, where these are the names of all keys. -/
structure Shows (names : List String) (s : Section) (p : Passage) : Prop where
  heading : ⟨s.name, s.angle, s.bounds⟩ = p.heading
  rows : List.Forall₂ (Stand names) s.rows p.lines

theorem Shows.mono {names later : List String} (hl : names <+: later) {s : Section} {p : Passage}
    (h : Shows names s p) : Shows later s p :=
  ⟨h.heading, h.rows.imp fun _ _ hrow => hrow.mono hl⟩

namespace GeometryDraft
variable {d d' : GeometryDraft} {seen : List Mention} {held : List String} {shown : List Passage}
    {done : List Section}
  {behind : String} {f : Filled} {a : Attributes} {path : List String} {c : Content} {name : String}

/-- The places at which elements of a geometry document may stand. -/
theorem mem_places (h : name :: path ∈ Kind.geometry.places) :
    name = "geometry" ∧ path = [] ∨
      (name = "bounds" ∨ name = "section" ∨ name = "button" ∨ name = "outline") ∧
        path = ["geometry"] ∨
      (name = "bounds" ∨ name = "button") ∧ path = ["section", "geometry"] ∨
      name = "point" ∧ path = ["outline", "geometry"] := by
  have hplaces :
      Kind.geometry.places = [["geometry"], ["bounds", "geometry"], ["section", "geometry"],
      ["bounds", "section", "geometry"], ["button", "section", "geometry"], ["button", "geometry"],
      ["outline", "geometry"], ["point", "outline", "geometry"]] := by decide +kernel
  rw [hplaces] at h
  simp only [List.mem_cons, List.cons.injEq, List.not_mem_nil, or_false] at h
  tauto

theorem plain_geometry : ∀ outer ∈ ["geometry"], Plain outer := by simp [Plain]

theorem plain_section : ∀ outer ∈ ["section", "geometry"], Plain outer := by simp [Plain]

/-- An element that is accepted stands in an allowed place. In a section
it ends the text before it. -/
theorem start_of_step (h : step d (.start name a path) = (d', none)) (hn : Plain name)
    (hp : ∀ outer ∈ path, Plain outer) :
    name :: path ∈ Kind.geometry.places ∧
      (if path.head? = some "section" then d.readContent else d).start name a path = .ok d' := by
  simp only [step] at h
  split at h
  next => simp at h
  next hcheck =>
    refine ⟨Kind.mem_places_of_check hn hp hcheck, ?_⟩
    split at h
    next hstart =>
      cases h
      exact hstart
    next => simp at h

structure Alike (d d' : GeometryDraft) : Prop where
  table : d'.table = d.table
  sections : d'.geometry.sections = d.geometry.sections
  openSection : d'.openSection = d.openSection

theorem Alike.trans {d'' : GeometryDraft} (h : d.Alike d') (h' : d'.Alike d'') : d.Alike d'' :=
  ⟨h'.table.trans h.table, h'.sections.trans h.sections, h'.openSection.trans h.openSection⟩

theorem alike_startBounds (ho : d.openSection = none) (h : d.startBounds a path = .ok d') :
    d.Alike d' := by
  obtain ⟨r, -, ⟨s, hs, -, -⟩ | ⟨-, rfl⟩⟩ := startBounds_eq_ok h
  · simp [ho] at hs
  · exact ⟨rfl, rfl, rfl⟩

theorem alike_startOutline (h : d.startOutline a = .ok d') : d.Alike d' := by
  obtain ⟨id, -, rfl⟩ := startOutline_eq_ok h
  exact ⟨rfl, rfl, rfl⟩

theorem alike_stopOutline (d : GeometryDraft) : d.Alike d.stopOutline := by
  unfold stopOutline
  split
  · exact ⟨rfl, rfl, rfl⟩
  · simp only
    split <;> exact ⟨rfl, rfl, rfl⟩

/-- Nothing is done where no element may stand, and text is not read as names. -/
theorem eq_of_deliver (hc : c.Plain) (hp : ∀ outer ∈ path, Plain outer)
    (hsection : path.head? ≠ some "section") (hnone : ∀ inner, inner :: path ∉ Kind.geometry.places)
    (h : deliver step d (c.events path) = (d', none)) : d' = d := by
  induction c generalizing d with
  | nil =>
    cases h
    rfl
  | text t beside ih =>
    obtain ⟨next, hnext, h⟩ := deliver_cons_taken.1 h
    cases hnext
    have hsame : d.addText t path = d := if_neg hsection
    exact ih hc (hsame ▸ h)
  | element name a below beside _ _ =>
    obtain ⟨started, ended, stopped, hstart, -⟩ := deliver_element h
    exact absurd (start_of_step hstart hc.1 hp).1 (hnone name)

/-- Bounds and buttons beside the sections hold nothing that counts. -/
theorem eq_of_deliver_leaf (hname : name = "bounds" ∨ name = "button") (hc : c.Plain)
    (h : deliver step d (c.events [name, "geometry"]) = (d', none)) : d' = d := by
  refine eq_of_deliver hc ?_ ?_ (fun inner hinner => ?_) h
  · rcases hname with rfl | rfl <;> simp [Plain]
  · rcases hname with rfl | rfl <;> simp
  · rcases hname with rfl | rfl <;> simpa using mem_places hinner

/-- What an open outline holds are its points. -/
theorem points_of_deliver (hc : c.Plain)
    (h : deliver step d (c.events ["outline", "geometry"]) = (d', none)) :
    d' = { d with
      openOutline := d.openOutline.map fun o => { o with points := o.points ++ c.points } } := by
  induction c generalizing d with
  | nil =>
    cases h
    simp [Content.points]
  | text t beside ih =>
    obtain ⟨next, hnext, h⟩ := deliver_cons_taken.1 h
    cases hnext
    exact ih hc h
  | element name a below beside _ ih =>
    obtain ⟨started, ended, stopped, hstart, hended, hstop, h⟩ := deliver_element h
    obtain ⟨hplace, hstart⟩ := start_of_step hstart hc.1 (by simp [Plain])
    obtain rfl : name = "point" := by simpa using mem_places hplace
    cases hstop
    obtain rfl : ended = started := by
      refine eq_of_deliver hc.2.1 (by simp [Plain]) (by simp) (fun inner hinner => ?_) hended
      simpa using mem_places hinner
    rw [ih hc.2.2 h]
    obtain rfl := startPoint_eq_ok hstart
    simp [Content.points, stop, Function.comp_def]

theorem Fills.child (h : d.Fills done "" f)
    (hplace : name :: ["section", "geometry"] ∈ Kind.geometry.places)
    (hd : d.start name a ["section", "geometry"] = .ok d') :
    d'.Fills done "" ((childMarks name a).foldl Filled.add f) := by
  have hname : name = "bounds" ∨ name = "button" := by simpa using mem_places hplace
  rcases hname with rfl | rfl
  · obtain ⟨r, hr, hstarted⟩ := h.startBounds rfl hd
    simpa [childMarks, hr] using hstarted
  · obtain ⟨m, hm, hstarted⟩ := h.startButton rfl hd
    simpa [childMarks, hm] using hstarted

/-- What a section holds fills it as it says. -/
theorem Fills.read (h : d.Fills done behind f) (hc : c.Plain)
    (hd : deliver step d (c.events ["section", "geometry"]) = (d', none)) :
    d'.readContent.Fills done "" ((c.marks behind).foldl Filled.add f) := by
  induction c generalizing d behind f with
  | nil =>
    cases hd
    exact h.readContent
  | text t beside ih =>
    obtain ⟨next, hnext, hd⟩ := deliver_cons_taken.1 hd
    cases hnext
    obtain ⟨s, hs, rfl, hheading, hrows, hrow⟩ := h.opened
    have hadded : (d.addText t ["section", "geometry"]).Fills done (s.content ++ t) f := by
      refine ⟨h.keyed.congr rfl, h.sections, { s with content := s.content ++ t }, ?_, rfl,
        hheading, hrows, hrow⟩
      simp [addText, hs]
    exact ih hadded hc hd
  | element name a below beside _ ih =>
    obtain ⟨started, ended, stopped, hstart, hended, hstop, hd⟩ := deliver_element hd
    obtain ⟨hplace, hstart⟩ := start_of_step hstart hc.1 plain_section
    have hname : name = "bounds" ∨ name = "button" := by simpa using mem_places hplace
    have hinner : ∀ inner, inner :: name :: ["section", "geometry"] ∉ Kind.geometry.places := by
      intro inner hinner
      simpa using mem_places hinner
    have hstarted :
        started.Fills done ""
          ((childMarks name a).foldl Filled.add ((textMarks behind).foldl Filled.add f)) :=
      h.readContent.child hplace hstart
    have hsame : ended = started :=
      eq_of_deliver hc.2.1 (List.forall_mem_cons.2 ⟨hc.1, plain_section⟩)
        (by rcases hname with rfl | rfl <;> simp)
        hinner hended
    have hstopped : ended.stop name = ended := by rcases hname with rfl | rfl <;> rfl
    obtain rfl : ended = stopped := hstopped.symm.trans (Prod.mk.inj hstop).1
    rw [Content.marks, List.foldl_append, List.foldl_append]
    exact ih (hsame ▸ hstarted) hc.2.2 hd

/-- A section that ends has the rows that it was filled with. -/
theorem Fills.stopSection (h : d.readContent.Fills done "" f) :
    d.stopSection.openSection = none ∧ d.stopSection.KeyedBy f.endLine.seen f.endLine.held ∧
      ∃ s, d.stopSection.geometry.sections = done ++ [s] ∧
        Shows (namesOf f.endLine.seen) s ⟨f.endLine.heading, f.endLine.rows⟩ := by
  obtain ⟨s, hs, -⟩ := h.opened
  have hrow := h.endRow
  obtain ⟨ended, hended, -, hheading, hrows, -⟩ := hrow.opened
  obtain rfl : s.endRow = ended := by simpa [GeometryDraft.endRow, hs] using hended
  have hkeyed : d.readContent.endRow.KeyedBy f.endLine.seen (f.endLine.held ++ []) := hrow.keyed
  rw [List.append_nil] at hkeyed
  unfold GeometryDraft.stopSection
  simp only [hs, h.sections]
  exact ⟨trivial, hkeyed.congr rfl, _, rfl, hheading, hrows⟩

/-- No section is open, and those that have ended show these passages. -/
structure Rests (d : GeometryDraft) (seen : List Mention) (held : List String)
    (shown : List Passage) : Prop where
  closed : d.openSection = none
  keyed : d.KeyedBy seen held
  sections : List.Forall₂ (Shows (namesOf seen)) d.geometry.sections shown

namespace Rests

theorem start : Rests {} [] [] [] := ⟨rfl, .start, .nil⟩

theorem congr (h : d.Rests seen held shown) (ha : d.Alike d') : d'.Rests seen held shown :=
  ⟨ha.openSection.trans h.closed, h.keyed.congr ha.table, ha.sections ▸ h.sections⟩

theorem startButton (h : d.Rests seen held shown) (hp : path.head? ≠ some "section")
    (hd : d.startButton a path = .ok d') :
    ∃ m, buttonMention a = some m ∧ d'.Rests (seen ++ [m]) held shown := by
  obtain ⟨m, hm, -, rfl⟩ := startButton_eq_ok hd
  refine ⟨m, hm, ?_⟩
  have htold : (d.tell m).1.Rests (seen ++ [m]) held shown := by
    refine ⟨(d.openSection_introduce m.name).trans h.closed, h.keyed.tell m, ?_⟩
    have hsections : (d.tell m).1.geometry.sections = d.geometry.sections :=
      d.sections_introduce m.name
    rw [hsections]
    exact h.sections.imp fun _ _ hone => hone.mono (namesOf_grows seen [m])
  simpa [hp] using htold

theorem startSection (h : d.Rests seen held shown) (hd : d.startSection a = .ok d') :
    d'.Fills d.geometry.sections ""
      { seen, held, line := [], rows := []
        heading := ⟨a.get? "id", (a.value? Number.integer32? "angle").getD 0, none⟩ } := by
  obtain ⟨angle, hangle, hd⟩ := bind_eq_ok.1 hd
  cases hd
  rw [(read?_eq_ok.1 hangle).1]
  have hkeyed : d.KeyedBy seen (held ++ []) := by
    rw [List.append_nil]
    exact h.keyed
  exact ⟨hkeyed.congr rfl, rfl, _, rfl, rfl, rfl, .nil, .nil⟩

/-- A section shows what it says, beside what was shown before. -/
theorem readSection (h : d.Rests seen held shown) {started ended : GeometryDraft}
    (hstart : d.startSection a = .ok started)
    (hc : c.Plain) (hd : deliver step started (c.events ["section", "geometry"]) = (ended, none)) :
    ended.stopSection.Rests (seen ++ (c.marks "").filterMap Mark.mention?)
      (held ++ (passageOf a c).names)
      (shown ++ [{ passageOf a c with lines := rowsFrom held (passageOf a c).lines }]) := by
  obtain ⟨hclosed, hkeyed, s, hsections, hshows⟩ := ((h.startSection hstart).read hc hd).stopSection
  rw [Filled.endLine_foldl] at hkeyed hshows
  refine ⟨hclosed, hkeyed, ?_⟩
  rw [hsections]
  refine List.rel_append ?_ (.cons ?_ .nil)
  · exact h.sections.imp fun _ _ hone => hone.mono (namesOf_grows seen _)
  · simpa [passageOf] using hshows

/-- What stands beside the sections can tell of keys, and shows none. -/
theorem child (h : d.Rests seen held shown)
    (hname : name = "bounds" ∨ name = "button" ∨ name = "outline")
    {started ended : GeometryDraft} (hstart : d.start name a ["geometry"] = .ok started)
    (hc : c.Plain) (hd : deliver step started (c.events [name, "geometry"]) = (ended, none)) :
    (ended.stop name).Rests (seen ++ mentionsOf name a c) held shown := by
  rcases hname with rfl | rfl | rfl
  · obtain rfl := eq_of_deliver_leaf (.inl rfl) hc hd
    simpa [mentionsOf, stop] using h.congr (alike_startBounds h.closed hstart)
  · obtain rfl := eq_of_deliver_leaf (.inr rfl) hc hd
    obtain ⟨m, hm, hstarted⟩ := h.startButton (by simp) hstart
    simpa [mentionsOf, stop, hm] using hstarted
  · have hstarted : d.Alike started := alike_startOutline hstart
    have halike : started.Alike ended := by
      rw [points_of_deliver hc hd]
      exact ⟨rfl, rfl, rfl⟩
    simpa [mentionsOf, stop] using h.congr ((hstarted.trans halike).trans ended.alike_stopOutline)

/-- What the root holds is told and shown in document order. -/
theorem read (h : d.Rests seen held shown) (hc : c.Plain)
    (hd : deliver step d (c.events ["geometry"]) = (d', none)) :
    d'.Rests (seen ++ c.mentions) (held ++ c.passages.flatMap Passage.names)
      (shown ++ arrangeFrom held c.passages) := by
  induction c generalizing d seen held shown with
  | nil =>
    cases hd
    simpa [Content.mentions, Content.passages, arrangeFrom] using h
  | text t beside ih =>
    obtain ⟨next, hnext, hd⟩ := deliver_cons_taken.1 hd
    cases hnext
    exact ih h hc hd
  | element name a below beside _ ih =>
    obtain ⟨started, ended, stopped, hstart, hended, hstop, hd⟩ := deliver_element hd
    obtain ⟨hplace, hstart⟩ := start_of_step hstart hc.1 plain_geometry
    cases hstop
    by_cases hname : name = "section"
    · subst hname
      have hsection := h.readSection hstart hc.2.1 hended
      simpa [Content.mentions, Content.passages, mentionsOf,
        arrangeFrom] using ih hsection hc.2.2 hd
    · have hbeside : name = "bounds" ∨ name = "button" ∨ name = "outline" := by
        simpa [hname] using mem_places hplace
      have hchild := h.child hbeside hstart hc.2.1 hended
      simpa [Content.mentions, Content.passages, hname] using ih hchild hc.2.2 hd

end Rests
end GeometryDraft

/-- All rows side by side show all lines side by side. -/
theorem stand_of_shows {names : List String} {sections : List Section} {passages : List Passage}
    (h : List.Forall₂ (Shows names) sections passages) :
    Stand names (sections.flatMap Section.keys) (passages.flatMap Passage.names) :=
  List.rel_flatMap h fun _ _ hone => List.rel_flatten hone.rows

/-- A geometry document that is read to its end is a tree, and what its root
holds is all that counts. -/
theorem content_of_consume {source : Source} {d : GeometryDraft}
    (h : consume GeometryDraft.step {} source = (d, none)) :
    ∃ tree : Tree, source.events = tree.events ∧ tree.name = "geometry" ∧ tree.content.Plain ∧
      deliver GeometryDraft.step {} (tree.content.events ["geometry"]) = (d, none) := by
  obtain ⟨tree, hevents, hplain⟩ := tree_of_consume h
  have hd := deliver_of_consume h
  rw [hevents] at hd
  obtain ⟨started, ended, stopped, hstart, hended, hstop, hd⟩ := deliver_element hd
  obtain ⟨hplace, hstart⟩ := GeometryDraft.start_of_step hstart hplain.1 (by simp)
  have hname : tree.name = "geometry" := by simpa using GeometryDraft.mem_places hplace
  rw [hname] at hstart hended hstop
  cases hstart
  cases hstop
  cases hd
  exact ⟨tree, hevents, hname, hplain.2.1, hended⟩

/-- A geometry document that is read to its end is a tree whose mentions make the keys and whose
sections show their lines. -/
theorem arranged_of_consume {source : Source} {d : GeometryDraft}
    (h : consume GeometryDraft.step {} source = (d, none)) :
    ∃ tree : Tree, source.events = tree.events ∧ tree.name = "geometry" ∧
      d.KeyedBy tree.content.mentions (tree.content.passages.flatMap Passage.names) ∧
      List.Forall₂ (Shows (namesOf tree.content.mentions)) d.geometry.sections
        (arrange tree.content.passages) := by
  obtain ⟨tree, hevents, hname, hplain, hd⟩ := content_of_consume h
  have hrests := GeometryDraft.Rests.start.read hplain hd
  rw [List.nil_append, List.nil_append, List.nil_append, ← arrange_eq] at hrests
  exact ⟨tree, hevents, hname, hrests.keyed, hrests.sections⟩

theorem arranged_of_readGeometry {source : Source} {g : Geometry}
    (h : (readGeometry source).result = .ok g) :
    ∃ tree : Tree, source.events = tree.events ∧ tree.name = "geometry" ∧ g.Indexed ∧
      Keyed tree.content.mentions (tree.content.passages.flatMap Passage.names) g.keys ∧
      List.Forall₂ (Shows (namesOf tree.content.mentions)) g.sections
        (arrange tree.content.passages) := by
  obtain ⟨d, hconsume, -, rfl⟩ := consume_of_readGeometry h
  obtain ⟨tree, hevents, hname, hkeyed, hshows⟩ := arranged_of_consume hconsume
  exact ⟨tree, hevents, hname, hkeyed.indexed, hkeyed.toKeyed, hshows⟩

/-- The keys are the names that are mentioned, each where it is mentioned first. A key has the
keycode and the outline that the last mention with one gives it, and else the keycode of its
position and the default outline. -/
theorem keys_by_mention {source : Source} {g : Geometry}
    (h : (readGeometry source).result = .ok g) :
    ∃! tree : Tree, source.events = tree.events ∧ tree.name = "geometry" ∧
      g.keys.map (·.name) = (tree.content.mentions.map (·.name)).eraseDups ∧
      (∀ name i, g.findKey? name = some i ↔ (g.keys.map (·.name))[i]? = some name) ∧
      (∀ name, g.findKey? name = none ↔ ∀ m ∈ tree.content.mentions, m.name ≠ name) ∧
      ∀ i key, g.keys[i]? = some key →
        key.keycode =
          (lastSaid (·.keycode) tree.content.mentions key.name).getD ((8 + i) % (1 <<< 32)) ∧
        (8 + g.keys.length ≤ 1 <<< 32 →
          key.keycode = (lastSaid (·.keycode) tree.content.mentions key.name).getD (8 + i)) ∧
        key.outline = (lastSaid (·.outline) tree.content.mentions key.name).getD "default" := by
  obtain ⟨tree, hevents, hname, hindexed, hkeyed, -⟩ := arranged_of_readGeometry h
  refine ⟨tree, ⟨hevents, hname, hkeyed.names, ?_, ?_, ?_⟩, fun other hother => ?_⟩
  · exact fun name i => hindexed.findKey?_eq_some
  · intro name
    rw [hindexed.findKey?_eq_none, hkeyed.names, mem_namesOf]
    simp
  · intro i key hi
    obtain ⟨hkeycode, houtline, -⟩ := hkeyed.told i key hi
    refine ⟨hkeycode, fun hfew => ?_, houtline⟩
    have hlt : i < g.keys.length := (List.getElem?_eq_some_iff.1 hi).1
    have hauto : autoKeycode i = 8 + i := autoKeycode_eq (by simp only [firstKeycode]; omega)
    rwa [← hauto]
  · exact Tree.events_inj (hother.1.symm.trans hevents)

/-- Keys that are mentioned beside sections and in them, in lines with a comment and buttons. -/
def lateButtons : Source := .ofBytes <| ascii <|
  "<geometry><button name='z' keycode='30'/><section>a\n b<!---->c\n\n<button name='z' oref='w'/> a</section>" ++
  "<section>d a<button name='a' keycode='40'/></section><button name='q'/></geometry>"

theorem readGeometry_lateButtons : ∃ g, (readGeometry lateButtons).result = .ok g ∧
    g.keys.map (fun key => (key.name, key.keycode, key.outline, key.placed)) =
      [("z", 30, "w", true), ("a", 40, "default", true), ("bc", 10, "default", true),
        ("d", 11, "default", true),
        ("q", 12, "default", false)] ∧
    g.sections.map (·.rows) = [[[1], [2], [0]], [[3]]] := by
  have hread : (readGeometry lateButtons).result.map (fun g =>
      (g.keys.map fun key => (key.name, key.keycode, key.outline, key.placed),
        g.sections.map (·.rows))) =
      .ok ([("z", 30, "w", true), ("a", 40, "default", true), ("bc", 10, "default", true),
        ("d", 11, "default", true),
        ("q", 12, "default", false)], [[[1], [2], [0]], [[3]]]) := by decide +kernel
  obtain ⟨g, hg, hparts⟩ := map_eq_ok.1 hread
  obtain ⟨hkeys, hrows⟩ := Prod.mk.inj hparts
  exact ⟨g, hg, hkeys, hrows⟩

theorem lateButtons_by_mention :
    ∃ g, ∃ tree : Tree, (readGeometry lateButtons).result = .ok g ∧
      lateButtons.events = tree.events ∧
      g.keys.map (·.name) = ["z", "a", "bc", "d", "q"] ∧
      (tree.content.mentions.map (·.name)).eraseDups = ["z", "a", "bc", "d", "q"] := by
  obtain ⟨g, hg, hkeys, -⟩ := readGeometry_lateButtons
  obtain ⟨tree, ⟨hevents, -, hnames, -⟩, -⟩ := keys_by_mention hg
  have hlisted : g.keys.map (·.name) = ["z", "a", "bc", "d", "q"] := by
    simpa [Function.comp_def] using congrArg (List.map Prod.fst) hkeys
  exact ⟨g, tree, hg, hevents, hlisted, hnames.symm.trans hlisted⟩

/-- The sections show the lines of the section elements in document order. A key is placed if a
section mentions it, and stands once in all rows together then, in the line that mentions it first,
and else nowhere. -/
theorem keys_placed_once {source : Source} {g : Geometry}
    (h : (readGeometry source).result = .ok g) :
    ∃! tree : Tree, source.events = tree.events ∧ tree.name = "geometry" ∧
      List.Forall₂ (Shows (g.keys.map (·.name))) g.sections (arrange tree.content.passages) ∧
      ∀ i key, g.keys[i]? = some key →
        (key.placed = true ↔ ∃ p ∈ tree.content.passages, ∃ line ∈ p.lines, key.name ∈ line) ∧
        (g.sections.flatMap Section.keys).count i = if key.placed then 1 else 0 := by
  obtain ⟨tree, hevents, hname, -, hkeyed, hshows⟩ := arranged_of_readGeometry h
  rw [← hkeyed.names] at hshows
  refine ⟨tree, ⟨hevents, hname, hshows, ?_⟩, fun other hother => ?_⟩
  · intro i key hi
    have hplaced : key.placed = true ↔ key.name ∈ tree.content.passages.flatMap Passage.names :=
      (hkeyed.told i key hi).placed
    constructor
    · rw [hplaced]
      simp [Passage.names]
    · have hindex : (g.keys.map (·.name))[i]? = some key.name := by simp [hi]
      have hshown : i ∈ g.sections.flatMap Section.keys ↔ key.placed = true := by
        rw [(stand_of_shows hshows).mem_iff hkeyed.nodup hindex, hplaced, arrange_eq,
          mem_arrangeFrom]
        simp
      rw [(ready_of_readGeometry h).shown.count]
      simp only [hshown]
  · exact Tree.events_inj (hother.1.symm.trans hevents)

theorem lateButtons_placed_once :
    ∃ g, ∃ tree : Tree, (readGeometry lateButtons).result = .ok g ∧
      lateButtons.events = tree.events ∧
      g.sections.map (·.rows) = [[[1], [2], [0]], [[3]]] ∧
      List.Forall₂ (Shows (g.keys.map (·.name))) g.sections (arrange tree.content.passages) ∧
      (g.sections.flatMap Section.keys).count 0 = 1 ∧
      (g.sections.flatMap Section.keys).count 4 = 0 := by
  obtain ⟨g, hg, hkeys, hrows⟩ := readGeometry_lateButtons
  obtain ⟨tree, ⟨hevents, -, hshows, hplaced⟩, -⟩ := keys_placed_once hg
  have hcount :
      ∀ i placed, (g.keys.map fun key => (key.name, key.keycode, key.outline, key.placed))[i]?.map
        (fun key => key.2.2.2) = some placed →
        (g.sections.flatMap Section.keys).count i = if placed then 1 else 0 := by
    intro i placed hi
    rw [List.getElem?_map] at hi
    cases hkey : g.keys[i]? with
    | none => simp [hkey] at hi
    | some key =>
      obtain rfl : key.placed = placed := by simpa [hkey] using hi
      exact (hplaced i key hkey).2
  rw [hkeys] at hcount
  exact ⟨g, tree, hg, hevents, hrows, hshows, hcount 0 true rfl, hcount 4 false rfl⟩

end KeyLayout.Document
