import KeyLayout.Proofs.Document.Arrangement
import KeyLayout.Proofs.Document.GeometryReading
import KeyLayout.Proofs.Document.SymbolsReading
import KeyLayout.Proofs.Document.Watching

/-! The drafts of a document are those of the elements that are open, so that
nothing is looked for in vain. -/
namespace KeyLayout.Document
open Markup Model

namespace GeometryDraft

/-- The drafts are those of the open elements. The index has all keys by their names and nothing
else, and the rows hold keys. -/
structure Agrees (path : List String) (d : GeometryDraft) : Prop where
  openSection : d.openSection.isSome ↔ "section" ∈ path
  openOutline : d.openOutline.isSome ↔ "outline" ∈ path
  indexed : d.geometry.Indexed
  shown : ∀ i ∈ d.shown, i < d.geometry.keys.length

/-- Whatever name is mentioned next, there is a key of that name at the
number that stands for it. -/
def FindsKeys (d : GeometryDraft) : Prop :=
  ∀ name, ∃ key, (d.introduce name).1.geometry.keys[(d.introduce name).2]? = some key ∧
    key.name = name

/-- The drafts to which the reading of content leads from a draft. -/
inductive Reading (d : GeometryDraft) : GeometryDraft → Prop where
  | start : Reading d d
  | content {mid : GeometryDraft} {s : SectionDraft} :
      mid.openSection = some s → Reading d mid →
        Reading d { mid with openSection := some { s with content := "" } }
  | mention {mid : GeometryDraft} (name : String) : Reading d mid → Reading d (mid.mention name)
  | endRow {mid : GeometryDraft} : Reading d mid → Reading d mid.endRow

/-- Wherever the content of the open section is read, a section is open, and the keys that it
mentions are found. -/
def FindsSection (d : GeometryDraft) : Prop :=
  (∀ mid, d.Reading mid → mid.openSection.isSome ∧ mid.FindsKeys) ∧ d.Reading d.readContent

/-- Children, text and the end of a section find it open, a `point` and the end of an outline find
the outline, and a `button` finds its key. -/
def Finds (d : GeometryDraft) : Event → Prop
  | .start name _ path =>
    (path.head? = some "section" → d.FindsSection) ∧ (name = "point" → d.openOutline.isSome) ∧
      (name = "button" → d.FindsKeys)
  | .stop name _ => (name = "section" → d.FindsSection) ∧ (name = "outline" → d.openOutline.isSome)
  | .text _ path => path.head? = some "section" → d.openSection.isSome

variable {d d' mid : GeometryDraft} {name : String} {a : Attributes} {path : List String}

theorem openOutline_introduce (d : GeometryDraft) (name : String) :
    (d.introduce name).1.openOutline = d.openOutline := by
  unfold introduce
  split <;> rfl

theorem isSome_openSection_place (d : GeometryDraft) (i : Nat) :
    (d.place i).openSection.isSome = d.openSection.isSome := by
  simpa using congrArg Option.isSome (d.content_place i)

theorem openOutline_place (d : GeometryDraft) (i : Nat) :
    (d.place i).openOutline = d.openOutline := by
  unfold place
  split
  next => split <;> rfl
  next => rfl

/-- Reading content opens and closes nothing. -/
theorem Reading.drafts (h : d.Reading mid) :
    mid.openSection.isSome = d.openSection.isSome ∧ mid.openOutline = d.openOutline := by
  induction h with
  | start => exact ⟨rfl, rfl⟩
  | content hs _ ih => exact ⟨by rw [← ih.1, hs]; rfl, ih.2⟩
  | mention name _ ih =>
    refine ⟨?_, ?_⟩
    · rw [GeometryDraft.mention, isSome_openSection_place, openSection_introduce, ih.1]
    · rw [GeometryDraft.mention, openOutline_place, openOutline_introduce, ih.2]
  | endRow _ ih => exact ⟨by simp [GeometryDraft.endRow, ih.1], ih.2⟩

theorem reading_readContent (d : GeometryDraft) : d.Reading d.readContent :=
  readContent_induction (P := d.Reading) (fun name h => h.mention name) (fun h => h.endRow)
    (fun hs h => h.content hs) .start

theorem Reading.indexed (h : d.Reading mid) (hd : d.geometry.Indexed) : mid.geometry.Indexed := by
  induction h with
  | start => exact hd
  | content _ _ ih => exact ih
  | mention name _ ih => exact (ih.introduce name).place _
  | endRow _ ih => exact ih

theorem findsSection (ho : d.openSection.isSome) (hd : d.geometry.Indexed) : d.FindsSection := by
  refine ⟨fun mid hmid => ⟨?_, introduce_named (hmid.indexed hd)⟩, d.reading_readContent⟩
  rw [hmid.drafts.1]
  exact ho

/-- An element opens its own draft and no other. -/
theorem drafts_of_start (h : d.start name a path = .ok d') :
    (d'.openSection.isSome ↔ name = "section" ∨ d.openSection.isSome) ∧
      (d'.openOutline.isSome ↔ name = "outline" ∨ d.openOutline.isSome) := by
  unfold start at h
  split at h
  · obtain ⟨r, -, ⟨s, hs, -, rfl⟩ | ⟨-, rfl⟩⟩ := startBounds_eq_ok h
    · simp [hs]
    · simp
  · obtain ⟨angle, -, h⟩ := bind_eq_ok.1 h
    cases h
    simp
  · obtain ⟨m, -, -, rfl⟩ := startButton_eq_ok h
    split
    · simp [isSome_openSection_place, openOutline_place, tell, openSection_introduce,
        openOutline_introduce]
    · simp [tell, openSection_introduce, openOutline_introduce]
  · obtain ⟨id, -, rfl⟩ := startOutline_eq_ok h
    simp
  · obtain rfl := startPoint_eq_ok h
    simp
  next hsection _ houtline _ =>
    have hsection : name ≠ "section" := hsection
    have houtline : name ≠ "outline" := houtline
    cases h
    simp [hsection, houtline]

/-- The end of an element closes its own draft and no other. -/
theorem drafts_stop (d : GeometryDraft) (name : String) :
    ((d.stop name).openSection.isSome ↔ name ≠ "section" ∧ d.openSection.isSome) ∧
      ((d.stop name).openOutline.isSome ↔ name ≠ "outline" ∧ d.openOutline.isSome) := by
  have hread := d.reading_readContent.drafts
  unfold stop
  split
  · unfold stopSection
    simp only
    split
    next hs => simp [hs, hread.2]
    next => simp [hread.2]
  · unfold stopOutline
    split
    next ho => simp [ho]
    next =>
      simp only
      split <;> simp [warn]
  next hsection houtline =>
    have hsection : name ≠ "section" := hsection
    have houtline : name ≠ "outline" := houtline
    simp [hsection, houtline]

theorem Sound.agrees {given : String → String} (h : Sound given d)
    (hsection : d.openSection.isSome ↔ "section" ∈ path)
    (houtline : d.openOutline.isSome ↔ "outline" ∈ path) : d.Agrees path where
  openSection := hsection
  openOutline := houtline
  indexed := h.numbered.indexed
  shown := by
    intro i hi
    obtain ⟨key, hkey, -⟩ := h.arranged.placed i hi
    exact (List.getElem?_eq_some_iff.1 hkey).1

theorem follows : Follows .geometry step fun path d => d.Agrees path ∧ ∃ given, Sound given d where
  allowed := by
    intro d d' name a path h
    simp only [step] at h
    split at h
    · simp at h
    next hcheck => exact hcheck
  start := by
    rintro d d' name a path hplace ⟨hagrees, given, hsound⟩ h
    have hplain := (Kind.place_facts hplace).2.2
    obtain ⟨-, hstart⟩ :=
      start_of_step h (hplain name (by simp)) fun outer houter => hplain outer (by simp [houter])
    have hread : (if path.head? = some "section" then d.readContent else d).openSection.isSome =
      d.openSection.isSome ∧
        (if path.head? = some "section" then d.readContent else d).openOutline = d.openOutline := by
      split
      · exact d.reading_readContent.drafts
      · exact ⟨rfl, rfl⟩
    obtain ⟨hsection, houtline⟩ := drafts_of_start hstart
    rw [hread.1, hagrees.openSection] at hsection
    rw [hread.2, hagrees.openOutline] at houtline
    have hnext := hsound.step h
    refine ⟨hnext.agrees (hsection.trans ?_) (houtline.trans ?_), _, hnext⟩
    · rw [List.mem_cons, eq_comm]
    · rw [List.mem_cons, eq_comm]
  stop := by
    rintro d d' name path hplace ⟨hagrees, given, hsound⟩ h
    obtain ⟨hnew, -⟩ := List.nodup_cons.1 (Kind.place_facts hplace).1
    obtain ⟨hsection, houtline⟩ := d.drafts_stop name
    rw [hagrees.openSection] at hsection
    rw [hagrees.openOutline] at houtline
    have hnext := hsound.step h
    cases h
    refine ⟨hnext.agrees (hsection.trans ?_) (houtline.trans ?_), _, hnext⟩
    · grind
    · grind
  text := by
    rintro d d' text path hplace ⟨hagrees, given, hsound⟩ h
    have hnext := hsound.step h
    cases h
    refine ⟨hnext.agrees ?_ ?_, _, hnext⟩
    · rw [← hagrees.openSection, addText]
      split <;> simp
    · rw [← hagrees.openOutline, addText]
      split <;> simp

theorem findsAll : FindsAll .geometry Agrees Finds where
  start := by
    intro d name a path hplace h
    refine ⟨fun hhead => findsSection (h.openSection.2 ?_) h.indexed,
      fun hname => h.openOutline.2 ?_, fun _ => introduce_named h.indexed⟩
    · exact List.mem_of_mem_head? hhead
    · obtain ⟨hroot, -⟩ | ⟨hchild, -⟩ | ⟨hinner, -⟩ | ⟨-, rfl⟩ := mem_places hplace
      all_goals simp_all
  stop := by
    intro d name path hplace h
    refine ⟨?_, ?_⟩
    · rintro rfl
      exact findsSection (h.openSection.2 (by simp)) h.indexed
    · rintro rfl
      exact h.openOutline.2 (by simp)
  text := by
    intro d text path hplace h hhead
    exact h.openSection.2 (List.mem_of_mem_head? hhead)

end GeometryDraft

namespace SymbolsDraft

def symbolNames : List String := ["symbol", "keysym", "text"]

def slotNames : List String := "invalid" :: symbolNames

/-- The drafts are those of the open elements, and all keys for which there are
blocks, levels or groups exist. -/
structure Agrees (g : Geometry) (path : List String) (d : SymbolsDraft) : Prop where
  geometry : d.geometry = g
  block : d.block.isSome ↔ "key" ∈ path
  symbol : d.symbol.isSome ↔ ∃ name ∈ symbolNames, name ∈ path
  keyval : ∀ s ∈ d.symbol, s.keyval.isSome ↔ "keysym" ∈ path
  current : ∀ b ∈ d.block, b.key < g.keys.length ∧ 0 < b.groups
  staged : ∀ entry ∈ d.staged, entry.1 < g.keys.length
  nextGroups : ∀ entry ∈ d.nextGroups, entry.1 < g.keys.length

/-- A slot finds the block of a key, and its end finds the symbol of the slot. The block that ends
is found with at least one level to a group. -/
def Finds (d : SymbolsDraft) : Event → Prop
  | .start name _ _ => name ∈ slotNames → d.block.isSome
  | .stop name _ =>
    (name = "key" → ∃ b, d.block = some b ∧ (b.slots ≠ [] → 0 < divUp b.slots.length b.groups)) ∧
      (name ∈ slotNames → d.block.isSome) ∧ (name ∈ symbolNames → d.symbol.isSome) ∧
      (name = "keysym" → ∃ s n, d.symbol = some s ∧ s.keyval = some n)
  | .text _ path => (∃ name ∈ symbolNames, path.head? = some name) → d.symbol.isSome

variable {g : Geometry} {d d' : SymbolsDraft} {name : String} {a : Attributes} {path : List String}

/-- Elements that are no keys and no symbols come and go. -/
theorem Agrees.of_path (h : d.Agrees g path) {other : List String}
    (hkey : "key" ∈ path ↔ "key" ∈ other)
    (hsymbol : ∀ name ∈ symbolNames, name ∈ path ↔ name ∈ other) : d.Agrees g other :=
  { h with
    block := h.block.trans hkey
    symbol := h.symbol.trans (exists_congr fun name => and_congr_right (hsymbol name))
    keyval := fun s hs => (h.keyval s hs).trans (hsymbol "keysym" (by decide)) }

theorem Agrees.startKey (hg : g.Indexed) (h : d.Agrees g ["symbols"]) (hd : d.startKey a = .ok d') :
    d'.Agrees g ["key", "symbols"] := by
  obtain ⟨name, i, groups, hi, hpos, -, rfl⟩ := startKey_eq_ok hd .nil
  rw [h.geometry] at hi
  have hlt : i < g.keys.length := hg.lt_length hi
  have hsame : ∀ name ∈ symbolNames, name ∈ ["symbols"] ↔ name ∈ ["key", "symbols"] := by decide
  exact
    { geometry := h.geometry
      block := by simp
      symbol := h.symbol.trans (exists_congr fun name => and_congr_right (hsame name))
      keyval := fun s hs => (h.keyval s hs).trans (hsame "keysym" (by decide))
      current := by
        rintro b ⟨⟩
        exact ⟨hlt, hpos⟩
      staged := h.staged
      nextGroups := h.nextGroups }

theorem isSome_symbolKeyval {keyval : Option Nat} (h : symbolKeyval name a = .ok keyval) :
    keyval.isSome ↔ name = "keysym" := by
  unfold symbolKeyval at h
  split at h
  next hname =>
    obtain ⟨read, -, h⟩ := bind_eq_ok.1 h
    cases read with
    | none => simp at h
    | some n =>
      cases h
      simp [hname]
  next hname =>
    cases h
    simp [hname]

theorem Agrees.startSymbol (h : d.Agrees g ["key", "symbols"]) (hname : name ∈ symbolNames)
    (hd : d.startSymbol name a = .ok d') : d'.Agrees g [name, "key", "symbols"] := by
  obtain ⟨keyval, hkeyval, hd⟩ := bind_eq_ok.1 hd
  cases hd
  have hblock : d.block.isSome := h.block.2 (by simp)
  exact
    { geometry := h.geometry
      block := by simp [hblock]
      symbol := iff_of_true rfl ⟨name, hname, by simp⟩
      keyval := by
        rintro s ⟨⟩
        rw [isSome_symbolKeyval hkeyval]
        simp [eq_comm]
      current := h.current
      staged := h.staged
      nextGroups := h.nextGroups }

theorem Agrees.addSlot (h : d.Agrees g path) (slot : Option Symbol) :
    (d.addSlot slot).Agrees g path :=
  { h with
    block := by simpa [SymbolsDraft.addSlot] using h.block
    current := by
      intro b hb
      obtain ⟨before, hbefore, rfl⟩ := Option.map_eq_some_iff.1 hb
      exact h.current before hbefore }

theorem Agrees.stopSymbol (h : d.Agrees g [name, "key", "symbols"]) (hname : name ∈ symbolNames) :
    (d.stopSymbol name).Agrees g ["key", "symbols"] := by
  have hsome : d.symbol.isSome := h.symbol.2 ⟨name, hname, by simp⟩
  obtain ⟨s, hs⟩ := Option.isSome_iff_exists.1 hsome
  have hnone : Agrees g ["key", "symbols"] { d with symbol := none } :=
    { h with
      block := h.block.trans (by simp)
      symbol := by simp [symbolNames]
      keyval := by simp }
  rw [SymbolsDraft.stopSymbol, hs]
  exact hnone.addSlot _

theorem Agrees.stopKey (h : d.Agrees g ["key", "symbols"]) : d.stopKey.Agrees g ["symbols"] := by
  have hsome : d.block.isSome := h.block.2 (by simp)
  obtain ⟨b, hb⟩ := Option.isSome_iff_exists.1 hsome
  have hlt := (h.current b hb).1
  have hsame : ∀ name ∈ symbolNames, name ∈ ["key", "symbols"] ↔ name ∈ ["symbols"] := by decide
  have hclosed : Agrees g ["symbols"] { d with block := none } :=
    { h with
      block := by simp
      symbol := h.symbol.trans (exists_congr fun name => and_congr_right (hsame name))
      keyval := fun s hs => (h.keyval s hs).trans (hsame "keysym" (by decide))
      current := by simp }
  rw [SymbolsDraft.stopKey, hb]
  simp only
  split
  · exact hclosed
  · exact
      { hclosed with
        staged := List.forall_mem_append.2 ⟨hclosed.staged, by simpa using hlt⟩
        nextGroups := List.forall_mem_cons.2 ⟨hlt, hclosed.nextGroups⟩ }

theorem Agrees.addText (h : d.Agrees g path) (text : String) : (d.addText text).Agrees g path :=
  { h with
    symbol := by simpa [SymbolsDraft.addText] using h.symbol
    keyval := by
      intro s hs
      obtain ⟨before, hbefore, rfl⟩ := Option.map_eq_some_iff.1 hs
      exact h.keyval before hbefore }

theorem check_of_taken (h : Consumer.ofExcept step d (.start name a path) = (d', none)) :
    Kind.symbols.check name path = .ok () := by
  obtain ⟨_, hcheck, -⟩ := bind_eq_ok.1 (Consumer.ofExcept_eq_none.1 h)
  exact hcheck

theorem follows (hg : g.Indexed) : Follows .symbols (.ofExcept step) (Agrees g) where
  allowed := check_of_taken
  start := by
    intro d d' name a path hplace hagrees h
    obtain ⟨_, -, hstart⟩ := bind_eq_ok.1 (Consumer.ofExcept_eq_none.1 h)
    obtain ⟨rfl, rfl⟩ | ⟨rfl | rfl, rfl⟩ | ⟨(rfl | rfl | rfl) | rfl, rfl⟩ := mem_places hplace
    · cases hstart
      exact hagrees.of_path (by decide) (by decide)
    · cases hstart
      exact hagrees.of_path (by decide) (by decide)
    · exact hagrees.startKey hg hstart
    · exact hagrees.startSymbol (by decide) hstart
    · exact hagrees.startSymbol (by decide) hstart
    · exact hagrees.startSymbol (by decide) hstart
    · cases hstart
      exact hagrees.of_path (by decide) (by decide)
  stop := by
    intro d d' name path hplace hagrees h
    cases h
    obtain ⟨rfl, rfl⟩ | ⟨rfl | rfl, rfl⟩ | ⟨(rfl | rfl | rfl) | rfl, rfl⟩ := mem_places hplace
    · exact hagrees.of_path (by decide) (by decide)
    · exact hagrees.of_path (by decide) (by decide)
    · exact hagrees.stopKey
    · exact hagrees.stopSymbol (by decide)
    · exact hagrees.stopSymbol (by decide)
    · exact hagrees.stopSymbol (by decide)
    · exact (hagrees.addSlot none).of_path (by decide) (by decide)
  text := by
    intro d d' text path hplace hagrees h
    cases h
    exact hagrees.addText text

theorem divUp_pos {n d : Nat} (hn : 0 < n) (hd : 0 < d) : 0 < divUp n d := by
  unfold divUp
  exact Nat.div_pos (by omega) hd

theorem findsAll (g : Geometry) : FindsAll .symbols (Agrees g) Finds where
  start := by
    intro d name a path hplace h hname
    apply h.block.2
    obtain ⟨rfl, -⟩ | ⟨rfl | rfl, -⟩ | ⟨-, rfl⟩ := mem_places hplace
    · simp [slotNames, symbolNames] at hname
    · simp [slotNames, symbolNames] at hname
    · simp [slotNames, symbolNames] at hname
    · simp
  stop := by
    intro d name path hplace h
    refine ⟨?_, fun hname => h.block.2 ?_, fun hname => h.symbol.2 ⟨name, hname, by simp⟩, ?_⟩
    · rintro rfl
      obtain ⟨b, hb⟩ := Option.isSome_iff_exists.1 (h.block.2 (by simp))
      exact ⟨b, hb, fun hslots => divUp_pos (List.length_pos_iff.2 hslots) (h.current b hb).2⟩
    · obtain ⟨rfl, -⟩ | ⟨rfl | rfl, -⟩ | ⟨-, rfl⟩ := mem_places hplace
      · simp [slotNames, symbolNames] at hname
      · simp [slotNames, symbolNames] at hname
      · simp [slotNames, symbolNames] at hname
      · simp
    · rintro rfl
      obtain ⟨s, hs⟩ := Option.isSome_iff_exists.1 (h.symbol.2 ⟨"keysym", by decide, by simp⟩)
      obtain ⟨n, hn⟩ := Option.isSome_iff_exists.1 ((h.keyval s hs).2 (by simp))
      exact ⟨s, n, hs, hn⟩
  text := by
    rintro d text path hplace h ⟨name, hname, hhead⟩
    exact h.symbol.2 ⟨name, hname, List.mem_of_mem_head? hhead⟩

end SymbolsDraft
namespace IncludesDraft

/-- There is content just while an `include` is open. -/
def Agrees (path : List String) (d : IncludesDraft) : Prop := d.content.isSome ↔ "include" ∈ path

/-- The text and the end of an `include` find its content. -/
def Finds (d : IncludesDraft) : Event → Prop
  | .start _ _ _ => True
  | .stop name _ => name = "include" → d.content.isSome
  | .text _ path => path.head? = some "include" → d.content.isSome

theorem follows : Follows .prerequisites (.ofExcept step) Agrees where
  allowed := by
    intro d d' name a path h
    obtain ⟨_, hcheck, -⟩ := bind_eq_ok.1 (Consumer.ofExcept_eq_none.1 h)
    exact hcheck
  start := by
    intro d d' name a path hplace hagrees h
    obtain ⟨_, -, hstart⟩ := bind_eq_ok.1 (Consumer.ofExcept_eq_none.1 h)
    unfold Agrees at hagrees ⊢
    split at hstart
    next hname =>
      cases hstart
      simp [hname]
    next hname =>
      cases hstart
      simp [hagrees, Ne.symm hname]
  stop := by
    intro d d' name path hplace hagrees h
    have hstop := Consumer.ofExcept_eq_none.1 h
    obtain ⟨hnew, -⟩ := List.nodup_cons.1 (Kind.place_facts hplace).1
    unfold Agrees at hagrees ⊢
    simp only [step] at hstop
    split at hstop
    next hname =>
      split at hstop
      · cases hstop
      · cases hstop
        simpa [hname] using hnew
    next hname =>
      cases hstop
      simpa [Ne.symm hname] using hagrees
  text := by
    intro d d' text path hplace hagrees h
    cases h
    simpa [Agrees] using hagrees

theorem findsAll : FindsAll .prerequisites Agrees Finds where
  start := fun _ _ => trivial
  stop := by
    rintro d name path hplace h rfl
    exact h.2 (by simp)
  text := by
    intro d text path hplace h hhead
    exact h.2 (List.mem_of_mem_head? hhead)

end IncludesDraft
theorem Geometry.Indexed.of_readGeometry {source : Source} {g : Geometry}
    (h : (readGeometry source).result = .ok g) : g.Indexed :=
  (ready_of_readGeometry h).indexed

/-- However the bytes of a document come, up to the first error the drafts of what reads it are
those of the elements that have started and not ended, whatever is looked for is there, and the keys
that are referred to exist. At the end this holds of all that is to be bound. For symbols it takes
an index that is right, as that of every geometry is that a document gives, and as it stays when
symbols are bound. -/
theorem drafts_in_step (pieces : List Bytes) :
    InStep .geometry GeometryDraft.step {} GeometryDraft.Agrees GeometryDraft.Finds pieces ∧
      (∀ g : Geometry, g.Indexed → InStep .symbols (.ofExcept SymbolsDraft.step) { geometry := g }
        (SymbolsDraft.Agrees g) SymbolsDraft.Finds pieces) ∧
      InStep .prerequisites (.ofExcept IncludesDraft.step) {} IncludesDraft.Agrees
        IncludesDraft.Finds pieces ∧
      (∀ source g, (readGeometry source).result = .ok g → g.Indexed) ∧
      ∀ (g : Geometry) source bound, g.Indexed → bindSymbols g source = .ok bound →
        bound.Indexed := by
  have hgeometry : GeometryDraft.Agrees [] {} :=
    GeometryDraft.sound_start.agrees (by simp) (by simp)
  have hsymbols : ∀ g, SymbolsDraft.Agrees g [] { geometry := g } := fun g =>
    ⟨rfl, by simp, by simp, by simp, by simp, by simp, by simp⟩
  have hincludes : IncludesDraft.Agrees [] {} := by simp [IncludesDraft.Agrees]
  refine ⟨?_, fun g hg => ?_, ?_, fun source g h => .of_readGeometry h,
    fun g source bound hg h => ?_⟩
  · exact GeometryDraft.follows.inStep (fun h => h.1) GeometryDraft.findsAll ⟨hgeometry, _,
      GeometryDraft.sound_start⟩ pieces
  · exact (SymbolsDraft.follows hg).inStep id (SymbolsDraft.findsAll g) (hsymbols g) pieces
  · exact IncludesDraft.follows.inStep id IncludesDraft.findsAll hincludes pieces
  · exact hg.of_bare (bare_bindSymbols h)

/-- A block for the second key, cut in the middle of a tag. -/
def cutBlock : List Bytes :=
  [ascii "<symbols><key na", ascii "me='b'><text>x</text></key></symbols>"]

theorem cutBlock_in_step :
    ∃ g, (readGeometry (.ofBytes (ascii "<geometry><section>a b</section></geometry>"))).result =
      .ok g ∧
      g.findKey? "b" = some 1 ∧
      InStep .symbols (.ofExcept SymbolsDraft.step) { geometry := g } (SymbolsDraft.Agrees g)
        SymbolsDraft.Finds cutBlock := by
  have hread :
      (readGeometry (.ofBytes (ascii "<geometry><section>a b</section></geometry>"))).result.map
      (·.findKey? "b") = .ok (some 1) := by decide +kernel
  obtain ⟨g, hg, hfind⟩ := map_eq_ok.1 hread
  obtain ⟨-, hsymbols, -, hindexed, -⟩ := drafts_in_step cutBlock
  exact ⟨g, hg, hfind, hsymbols g (hindexed _ g hg)⟩

/-- The section is open at the calls between its start and its end, that of its end included. -/
example :
    (Session.readPieces (Consumer.watching GeometryDraft.step) { state := ({}, []) }
        [ascii "<geometry><sec", ascii "tion>a</section></geometry>"]).1.2.map
          (fun call => call.1.openSection.isSome) =
      [false, false, true, true, false] := by
  decide +kernel

end KeyLayout.Document
