import KeyLayout.Proofs.Document.Rows

/-! How the rows of an open section fill while its text and its children are read. -/
namespace KeyLayout.Document
open Markup Model

/-- The keys of a row have these names, where `names` are those of all keys. -/
def Stand (names : List String) : List Nat → List String → Prop :=
  List.Forall₂ fun i name => names[i]? = some name

theorem Stand.mono {names later : List String} (hl : names <+: later) {row : List Nat}
    {line : List String} (h : Stand names row line) : Stand later row line := by
  refine List.Forall₂.imp (fun i name hi => ?_) h
  obtain ⟨rest, rfl⟩ := hl
  rw [List.getElem?_append_left (List.getElem?_eq_some_iff.1 hi).1]
  exact hi

theorem Stand.mem_iff {names : List String} (hn : names.Nodup) {row : List Nat} {line : List String}
    (h : Stand names row line) {i : Nat} {name : String} (hi : names[i]? = some name) :
    i ∈ row ↔ name ∈ line := by
  induction h with
  | nil => simp
  | @cons j other row line hj _ ih =>
    have hsame : i = j ↔ name = other := by
      constructor
      · rintro rfl
        exact Option.some.inj (hi.symm.trans hj)
      · rintro rfl
        exact (List.getElem?_inj (List.getElem?_eq_some_iff.1 hi).1 hn).1 (hi.trans hj.symm)
    rw [List.mem_cons, List.mem_cons, ih, hsame]

def SectionDraft.heading (s : SectionDraft) : Heading := ⟨s.name, s.angle, s.bounds⟩

namespace GeometryDraft
variable {d d' : GeometryDraft} {seen : List Mention} {held : List String} {done : List Section}
    {behind : String}
  {f : Filled} {key : KeyDraft} {a : Attributes} {path : List String} {i : Nat}

/-- The keys are those of the mentions, earlier sections are done, and the open one has the heading
and the rows of `f` and some text behind its last child. -/
structure Fills (d : GeometryDraft) (done : List Section) (behind : String)
    (f : Filled) : Prop where
  keyed : d.KeyedBy f.seen (f.held ++ f.line)
  sections : d.geometry.sections = done
  opened : ∃ s, d.openSection = some s ∧ s.content = behind ∧ s.heading = f.heading ∧
    List.Forall₂ (Stand (namesOf f.seen)) s.rows f.rows ∧ Stand (namesOf f.seen) s.row f.row

namespace Fills

theorem congr (h : d.Fills done behind f) (ht : d'.table = d.table)
    (hsections : d'.geometry.sections = d.geometry.sections)
    (hopen : d'.openSection = d.openSection) : d'.Fills done behind f :=
  ⟨h.keyed.congr ht, hsections ▸ h.sections, hopen ▸ h.opened⟩

/-- More mentions make no difference to the rows. -/
theorem of_keyed (h : d.Fills done behind f) {m : Mention}
    (hk : d'.KeyedBy (f.seen ++ [m]) (f.held ++ f.line))
    (hsections : d'.geometry.sections = d.geometry.sections)
    (hopen : d'.openSection = d.openSection) :
    d'.Fills done behind { f with seen := f.seen ++ [m] } := by
  obtain ⟨s, hs, hcontent, hheading, hrows, hrow⟩ := h.opened
  refine ⟨hk, hsections.trans h.sections, s, hopen.trans hs, hcontent, hheading, ?_,
    hrow.mono (namesOf_grows f.seen [m])⟩
  exact hrows.imp fun _ _ hone => hone.mono (namesOf_grows f.seen [m])

theorem introduce (h : d.Fills done behind f) (name : String) :
    (d.introduce name).1.Fills done behind { f with seen := f.seen ++ [{ name := name }] } :=
  h.of_keyed (h.keyed.introduce name) (d.sections_introduce name) (d.openSection_introduce name)

theorem tell (h : d.Fills done behind f) (m : Mention) :
    (d.tell m).1.Fills done behind { f with seen := f.seen ++ [m] } :=
  h.of_keyed (h.keyed.tell m) (d.sections_introduce m.name) (d.openSection_introduce m.name)

/-- A name that is held already leaves the row of its line as it is. -/
theorem stay (h : d.Fills done behind f) {name : String} (hname : name ∈ f.held ++ f.line) :
    d.Fills done behind { f with line := f.line ++ [name] } := by
  have hrow : { f with line := f.line ++ [name] }.row = f.row := by
    simp only [Filled.row]
    rw [freshNames_concat]
    exact if_pos hname
  have hsame : ∀ other, other ∈ f.held ++ f.line ↔ other ∈ f.held ++ (f.line ++ [name]) := by
    intro other
    rw [← List.append_assoc, List.mem_append (t := [name]), List.mem_singleton]
    constructor
    · exact .inl
    · rintro (hother | rfl)
      · exact hother
      · exact hname
  refine ⟨h.keyed.congr_held hsame, h.sections, ?_⟩
  rw [hrow]
  exact h.opened

/-- The key of a name that is not held joins the row of the line. -/
theorem join (h : d.Fills done behind f) (hi : d.geometry.keys[i]? = some key)
    (hfree : key.name ∉ f.held ++ f.line) :
    (d.place i).Fills done behind { f with line := f.line ++ [key.name] } := by
  obtain ⟨s, hs, hcontent, hheading, hrows, hrow⟩ := h.opened
  have hplaced : key.placed = false := by
    have := (h.keyed.told i key hi).placed
    simpa [hfree] using this
  have hplace : d.place i = { d with
      geometry := d.geometry.modifyKey i fun key => { key with placed := true }
      openSection := some { s with row := s.row ++ [i] } } := by
    simp [GeometryDraft.place, hs, hi, hplaced]
  have hnew : { f with line := f.line ++ [key.name] }.row = f.row ++ [key.name] := by
    simp only [Filled.row]
    rw [freshNames_concat]
    exact if_neg hfree
  have hindex : (namesOf f.seen)[i]? = some key.name := by simp [← h.keyed.names, hi]
  rw [hplace]
  refine ⟨?_, h.sections, _, rfl, hcontent, hheading, hrows, ?_⟩
  · rw [← List.append_assoc]
    exact h.keyed.place hi _
  · rw [hnew]
    exact List.rel_append hrow (.cons hindex .nil)

theorem place (h : d.Fills done behind f) (hi : d.geometry.keys[i]? = some key) :
    (d.place i).Fills done behind { f with line := f.line ++ [key.name] } := by
  by_cases hname : key.name ∈ f.held ++ f.line
  · obtain ⟨s, hs, -⟩ := h.opened
    have hplaced : key.placed = true := (h.keyed.told i key hi).placed.2 hname
    have hwarned : d.place i = d.warn (.alreadyPlaced key.name) := by
      simp [GeometryDraft.place, hs, hi, hplaced]
    rw [hwarned]
    exact (h.stay hname).congr rfl rfl rfl
  · exact h.join hi hname

theorem mention (h : d.Fills done behind f) (name : String) :
    (d.mention name).Fills done behind (f.add (.mention { name := name })) := by
  obtain ⟨key, hkey, rfl⟩ := introduce_named h.keyed.indexed name
  exact (h.introduce key.name).place hkey

theorem startButton (h : d.Fills done behind f) (hp : path.head? = some "section")
    (hd : d.startButton a path = .ok d') :
    ∃ m, buttonMention a = some m ∧ d'.Fills done behind (f.add (.mention m)) := by
  obtain ⟨m, hm, -, rfl⟩ := startButton_eq_ok hd
  refine ⟨m, hm, ?_⟩
  obtain ⟨key, hkey, hname⟩ := tell_named h.keyed.indexed m
  have ht := h.tell m
  simp only [hp, hkey, Option.any_some, decide_true, Bool.true_and, Filled.add, ← hname]
  cases hplaced : key.placed with
  | false => exact ht.place hkey
  | true => exact ht.stay (((ht.keyed.told _ key hkey).placed).1 hplaced)

theorem startBounds (h : d.Fills done behind f) (hp : path.head? = some "section")
    (hd : d.startBounds a path = .ok d') :
    ∃ r, rectOf a = some r ∧ d'.Fills done behind (f.add (.bounds r)) := by
  obtain ⟨s, hs, hcontent, hheading, hrows, hrow⟩ := h.opened
  obtain ⟨r, hr, ⟨opened, ho, -, rfl⟩ | ⟨houtside, -⟩⟩ := startBounds_eq_ok hd
  · obtain rfl : s = opened := Option.some.inj (hs.symm.trans ho)
    refine ⟨r, hr, h.keyed.congr rfl, h.sections, _, rfl, hcontent, ?_, hrows, hrow⟩
    simp [SectionDraft.heading, ← hheading, Filled.add]
  · simp [hs, hp] at houtside

theorem endRow (h : d.Fills done behind f) : d.endRow.Fills done behind f.endLine := by
  obtain ⟨s, hs, hcontent, hheading, hrows, hrow⟩ := h.opened
  have hopen : d.endRow.openSection = some s.endRow := by simp [GeometryDraft.endRow, hs]
  have hkeyed : d.endRow.KeyedBy f.seen ((f.held ++ f.line) ++ []) := by
    rw [List.append_nil]
    exact h.keyed.congr rfl
  have hboth : s.row = [] ↔ f.row = [] := by
    rw [← List.length_eq_zero_iff, ← List.length_eq_zero_iff, hrow.length_eq]
  refine ⟨hkeyed, h.sections, s.endRow, hopen, ?_, ?_, ?_, ?_⟩
  · unfold SectionDraft.endRow
    split <;> exact hcontent
  · unfold SectionDraft.endRow
    split <;> exact hheading
  · by_cases hnil : f.row = []
    · simpa [SectionDraft.endRow, Filled.endLine, hboth.2 hnil, hnil] using hrows
    · have hsome : s.row ≠ [] := fun hs => hnil (hboth.1 hs)
      simpa [SectionDraft.endRow, Filled.endLine, hsome,
        hnil] using List.rel_append hrows (.cons hrow .nil)
  · rw [SectionDraft.row_endRow]
    exact .nil

theorem readLine (h : d.Fills done behind f) (line : List Char) :
    (d.readLine line).Fills done behind ((lineMarks line).foldl Filled.add f) := by
  unfold GeometryDraft.readLine lineMarks
  induction Text.words line generalizing d f with
  | nil => exact h
  | cons name more ih => exact ih (h.mention name)

theorem readMoreLines (h : d.Fills done behind f) (lines : List (List Char)) :
    (d.readMoreLines lines).Fills done behind
      ((lines.flatMap fun line => .lineEnd :: lineMarks line).foldl Filled.add f) := by
  unfold GeometryDraft.readMoreLines
  induction lines generalizing d f with
  | nil => exact h
  | cons line more ih =>
    rw [List.flatMap_cons, List.foldl_append]
    exact ih (h.endRow.readLine line)

end Fills

theorem intercalate_map {α β : Type} (separator : β) (g : α → List β) (first : α) (more : List α) :
    [separator].intercalate ((first :: more).map g) = g first ++ more.flatMap fun a =>
      separator :: g a := by
  induction more generalizing first with
  | nil => simp [List.intercalate]
  | cons second more ih =>
    rw [List.map_cons, List.map_cons, List.intercalate_cons_cons, ← List.map_cons, ih]
    simp

/-- Reading the text of the open section makes of it what it says. -/
theorem Fills.readContent (h : d.Fills done behind f) :
    d.readContent.Fills done "" ((textMarks behind).foldl Filled.add f) := by
  obtain ⟨s, hs, rfl, hheading, hrows, hrow⟩ := h.opened
  have hcleared : Fills { d with openSection := some { s with content := "" } } done "" f :=
    ⟨h.keyed.congr rfl, h.sections, _, rfl, rfl, hheading, hrows, hrow⟩
  unfold GeometryDraft.readContent textMarks
  simp only [hs]
  cases Text.lines s.content.toList with
  | nil => exact hcleared
  | cons first more =>
    rw [intercalate_map, List.foldl_append]
    exact (hcleared.readLine first).readMoreLines more

end GeometryDraft
end KeyLayout.Document
