import KeyLayout.Proofs.Document.Accepted
import KeyLayout.Proofs.Document.Blocks

/-! What an accepted symbols document binds: the slots of its `key` elements, block by block. -/
namespace KeyLayout.Document
open Markup Model

namespace SymbolsDraft
variable {d d' : SymbolsDraft} {a : Attributes} {path : List String} {c : Content}

def addSlots (d : SymbolsDraft) (slots : List (Option Symbol)) : SymbolsDraft :=
  { d with block := d.block.map fun b => { b with slots := b.slots ++ slots } }

@[simp] theorem addSlots_nil (d : SymbolsDraft) : d.addSlots [] = d := by
  obtain ⟨geometry, staged, nextGroups, block, symbol⟩ := d
  cases block <;> simp [addSlots]

@[simp] theorem addSlots_addSlots (d : SymbolsDraft) (front back : List (Option Symbol)) :
    (d.addSlots front).addSlots back = d.addSlots (front ++ back) := by
  obtain ⟨geometry, staged, nextGroups, block, symbol⟩ := d
  cases block <;> simp [addSlots]

@[simp] theorem addText_empty (d : SymbolsDraft) : d.addText "" = d := by
  obtain ⟨geometry, staged, nextGroups, block, symbol⟩ := d
  cases symbol <;> simp [addText]

@[simp] theorem addText_addText (d : SymbolsDraft) (front back : String) :
    (d.addText front).addText back = d.addText (front ++ back) := by
  obtain ⟨geometry, staged, nextGroups, block, symbol⟩ := d
  cases symbol <;> simp [addText, String.append_assoc]

theorem addText_of_symbol (h : d.symbol = none) (t : String) : d.addText t = d := by
  obtain ⟨geometry, staged, nextGroups, block, symbol⟩ := d
  cases h
  rfl

/-- An element that is accepted stands in an allowed place. -/
theorem start_of_step {name : String}
    (h : Consumer.ofExcept step d (.start name a path) = (d', none)) (hn : Plain name)
    (hp : ∀ outer ∈ path, Plain outer) :
    name :: path ∈ Kind.symbols.places ∧ d.start name a = .ok d' := by
  obtain ⟨_, hcheck, hstart⟩ := bind_eq_ok.1 (Consumer.ofExcept_eq_none.1 h)
  exact ⟨Kind.mem_places_of_check hn hp hcheck, hstart⟩

/-- Where no element may stand, all content is text. -/
theorem steps_texts (hc : c.Plain) (hp : ∀ outer ∈ path, Plain outer)
    (hnone : ∀ name, name :: path ∉ Kind.symbols.places)
    (h : deliver (.ofExcept step) d (c.events path) = (d', none)) : d' = d.addText c.texts := by
  induction c generalizing d with
  | nil =>
    cases h
    simp [Content.texts]
  | text t beside ih =>
    obtain ⟨next, hnext, h⟩ := deliver_cons_taken.1 h
    cases hnext
    rw [ih hc h, addText_addText]
    rfl
  | element name a below beside _ _ =>
    obtain ⟨started, -, -, hstart, -⟩ := deliver_element h
    exact absurd (start_of_step hstart hc.1 hp).1 (hnone name)

/-- The places at which elements of a symbols document may stand. -/
theorem mem_places {name : String} (h : name :: path ∈ Kind.symbols.places) :
    name = "symbols" ∧ path = [] ∨ (name = "include" ∨ name = "key") ∧ path = ["symbols"] ∨
      ((name = "symbol" ∨ name = "keysym" ∨ name = "text") ∨ name = "invalid") ∧
        path = ["key", "symbols"] := by
  have hplaces : Kind.symbols.places = [["symbols"], ["include", "symbols"], ["key", "symbols"],
      ["symbol", "key", "symbols"], ["keysym", "key", "symbols"], ["text", "key", "symbols"],
      ["invalid", "key", "symbols"]] := by decide +kernel
  rw [hplaces] at h
  simp only [List.mem_cons, List.cons.injEq, List.not_mem_nil, or_false] at h
  tauto

theorem plain_symbols : ∀ outer ∈ ["symbols"], Plain outer := by simp [Plain]

theorem plain_key : ∀ outer ∈ ["key", "symbols"], Plain outer := by simp [Plain]

theorem keyval_of_symbolKeyval {name : String} {keyval : Option Nat}
    (h : symbolKeyval name a = .ok keyval) :
    keyval = if name = "keysym" then (a.get? "keyval").bind Number.prefixed? else none := by
  unfold symbolKeyval at h
  split at h
  next hname =>
    obtain ⟨read, hread, h⟩ := bind_eq_ok.1 h
    unfold Attributes.prefixed? at hread
    cases hv : a.get? "keyval" with
    | none =>
      obtain rfl : none = read := by simpa [hv] using hread
      simp at h
    | some value =>
      cases hn : Number.prefixed? value with
      | none => simp [hv, hn] at hread
      | some n =>
        obtain rfl : some n = read := by simpa [hv, hn] using hread
        obtain rfl : some n = keyval := by simpa using h
        simp [hname, hn]
  next hname =>
    obtain rfl : none = keyval := by simpa using h
    simp [hname]

/-- A symbol becomes one slot, made of its attributes and its text. -/
theorem addSlot_of_symbol {name : String} {started : SymbolsDraft} {below : Content}
    (hd : d.symbol = none) (h : d.startSymbol name a = .ok started) :
    (started.addText below.texts).stopSymbol name = d.addSlots [some (symbolOf name a below)] := by
  obtain ⟨keyval, hkeyval, h⟩ := bind_eq_ok.1 h
  cases h
  obtain ⟨geometry, staged, nextGroups, block, symbol⟩ := d
  cases hd
  rw [keyval_of_symbolKeyval hkeyval]
  simp [addText, stopSymbol, addSlot, addSlots, symbolOf]

/-- The children of a `key` element become the slots of its block. -/
theorem steps_key (hc : c.Plain) (hd : d.symbol = none)
    (h : deliver (.ofExcept step) d (c.events ["key", "symbols"]) = (d', none)) :
    d' = d.addSlots c.slots := by
  induction c generalizing d with
  | nil =>
    cases h
    simp [Content.slots]
  | text t beside ih =>
    obtain ⟨next, hnext, h⟩ := deliver_cons_taken.1 h
    cases hnext
    exact ih hc hd ((addText_of_symbol hd t).symm ▸ h)
  | element name a below beside _ ih =>
    obtain ⟨started, held, stopped, hstart, hheld, hstop, h⟩ := deliver_element h
    cases hstop
    obtain ⟨hplace, hstart⟩ := start_of_step hstart hc.1 plain_key
    have hpath : ∀ outer ∈ name :: ["key", "symbols"],
      Plain outer := List.forall_mem_cons.2 ⟨hc.1, plain_key⟩
    have hnone : ∀ inner, inner :: name :: ["key", "symbols"] ∉ Kind.symbols.places := by
      intro inner hinner
      simpa using mem_places hinner
    obtain rfl := steps_texts hc.2.1 hpath hnone hheld
    have hstop : (started.addText below.texts).stop name = d.addSlots (slotsOf name a below) := by
      have hname : (name = "symbol" ∨ name = "keysym" ∨ name = "text") ∨ name = "invalid" := by
        simpa using mem_places hplace
      rcases hname with (rfl | rfl | rfl) | rfl
      · exact addSlot_of_symbol hd hstart
      · exact addSlot_of_symbol hd hstart
      · exact addSlot_of_symbol hd hstart
      · obtain rfl : d = started := by simpa [start] using hstart
        rw [addText_of_symbol hd]
        rfl
    rw [hstop] at h
    have hd' : (d.addSlots (slotsOf name a below)).symbol = none := hd
    rw [ih hc.2.2 hd' h, addSlots_addSlots]
    rfl

/-- A `key` element opens a block for the key that it names, with the number of
groups for which it asks. -/
theorem startKey_eq_ok {started : SymbolsDraft} (h : d.startKey a = .ok started) (below : Content) :
    ∃ name i groups, d.geometry.findKey? name = some i ∧ 0 < groups ∧
      blockOf a below = ⟨some name, groups, below.slots⟩ ∧
      started = { d with block := some { key := i, groups } } := by
  obtain ⟨name, hname, h⟩ := bind_eq_ok.1 h
  cases hi : d.geometry.findKey? name with
  | none => simp [hi] at h
  | some i =>
    simp only [hi] at h
    obtain ⟨read, hread, h⟩ := bind_eq_ok.1 h
    split at h
    · simp at h
    next hpos =>
      cases h
      have hgroups :
          ((a.get? "groups").bind fun value => Number.word64? (Text.trimChars value.toList)) =
            read :=
        (read?_eq_ok.1 hread).1
      refine ⟨name, i, read.getD 1, hi, Nat.pos_of_ne_zero hpos, ?_, rfl⟩
      rw [blockOf, required_eq_ok.1 hname, hgroups]

/-- The `key` elements of a document bind their blocks one behind the other. -/
theorem steps_symbols (hc : c.Plain) (hd : d.Idle)
    (h : deliver (.ofExcept step) d (c.events ["symbols"]) = (d', none)) :
    d'.bound = c.blocks.foldl Geometry.attach d.bound ∧
      ∀ b ∈ c.blocks,
        0 < b.groups ∧ ∃ name i, b.key = some name ∧ d.geometry.findKey? name = some i := by
  induction c generalizing d with
  | nil =>
    cases h
    simp [Content.blocks]
  | text t beside ih =>
    obtain ⟨next, hnext, h⟩ := deliver_cons_taken.1 h
    cases hnext
    exact ih hc hd ((addText_of_symbol hd.symbol t).symm ▸ h)
  | element name a below beside _ ih =>
    obtain ⟨started, held, stopped, hstart, hheld, hstop, h⟩ := deliver_element h
    cases hstop
    obtain ⟨hplace, hstart⟩ := start_of_step hstart hc.1 plain_symbols
    have hname : name = "include" ∨ name = "key" := by simpa using mem_places hplace
    rcases hname with rfl | rfl
    · obtain rfl : d = started := by simpa [start] using hstart
      have hnone : ∀ inner, inner :: ["include", "symbols"] ∉ Kind.symbols.places := by
        intro inner hinner
        simpa using mem_places hinner
      obtain rfl := steps_texts hc.2.1 (by simp [Plain]) hnone hheld
      rw [addText_of_symbol hd.symbol] at h
      simpa [Content.blocks] using ih hc.2.2 hd h
    · obtain ⟨name, i, groups, hi, hpos, hb, rfl⟩ := startKey_eq_ok hstart below
      obtain rfl :=
        steps_key (d := { d with block := some { key := i, groups } }) hc.2.1 hd.symbol hheld
      obtain ⟨ended, hstop, hended, hgeometry, hbound⟩ := hd.stopKey hi groups below.slots
      have hstopped :
          (addSlots { d with block := some { key := i, groups } } below.slots).stop "key" = ended :=
            hstop
      rw [hstopped] at h
      obtain ⟨hmore, hblocks⟩ := ih hc.2.2 hended h
      rw [hgeometry] at hblocks
      refine ⟨?_, ?_⟩
      · simp only [Content.blocks, if_true, List.foldl_cons, hmore, hbound, hb]
      · simp only [Content.blocks, if_true, List.forall_mem_cons]
        exact ⟨⟨hb ▸ hpos, name, i, hb ▸ rfl, hi⟩, hblocks⟩

end SymbolsDraft

/-- A tree whose events are taken has its blocks bound in order. -/
theorem SymbolsDraft.bound_of_tree {g : Geometry} {d : SymbolsDraft} {tree : Tree}
    (hname : Plain tree.name) (hcontent : tree.content.Plain)
    (h : deliver (.ofExcept step) { geometry := g } tree.events = (d, none)) :
    tree.name = "symbols" ∧ d.bound = tree.content.blocks.foldl Geometry.attach g ∧
      ∀ b ∈ tree.content.blocks, 0 < b.groups ∧
      ∃ name i, b.key = some name ∧ g.findKey? name = some i := by
  obtain ⟨started, held, stopped, hstart, hheld, hstop, hend⟩ := deliver_element h
  cases hstop
  obtain ⟨hplace, hstart⟩ := start_of_step hstart hname (by simp)
  have hsymbols : tree.name = "symbols" := by simpa using mem_places hplace
  rw [hsymbols] at hstart hheld hend
  obtain rfl : ({ geometry := g } : SymbolsDraft) = started := by simpa [start] using hstart
  obtain ⟨hbound, hblocks⟩ := steps_symbols hcontent (idle_start g) hheld
  cases hend
  exact ⟨hsymbols, hbound, hblocks⟩

/-- A symbols document that is accepted is a tree of which the blocks are bound in order. -/
theorem attached_of_bindSymbols {g bound : Geometry} {source : Source}
    (h : bindSymbols g source = .ok bound) :
    ∃ tree : Tree, source.events = tree.events ∧ tree.name = "symbols" ∧ tree.content.Plain ∧
      bound = tree.content.blocks.foldl Geometry.attach g ∧
      ∀ b ∈ tree.content.blocks, 0 < b.groups ∧
      ∃ name i, b.key = some name ∧ g.findKey? name = some i := by
  unfold bindSymbols at h
  split at h
  next d hconsume =>
    cases h
    obtain ⟨tree, hevents, hplain⟩ := tree_of_consume hconsume
    have hd := deliver_of_consume hconsume
    rw [hevents] at hd
    obtain ⟨hname, hbound, hblocks⟩ := SymbolsDraft.bound_of_tree hplain.1 hplain.2.1 hd
    exact ⟨tree, hevents, hname, hplain.2.1, hbound, hblocks⟩
  next => simp at h

/-- Each block is bound to the one key of its name. -/
theorem blocks_of_bindSymbols {g bound : Geometry} {source : Source} (hg : g.Indexed)
    (h : bindSymbols g source = .ok bound) :
    ∃ tree : Tree, source.events = tree.events ∧ tree.name = "symbols" ∧
      bound = tree.content.blocks.foldl Geometry.extend g ∧
      ∀ b ∈ tree.content.blocks, 0 < b.groups ∧
      ∃ name ∈ g.keys.map (·.name), b.key = some name := by
  obtain ⟨tree, hevents, hname, -, hbound, hblocks⟩ := attached_of_bindSymbols h
  have hnamed : ∀ b ∈ tree.content.blocks, ∃ name ∈ g.keys.map (·.name), b.key = some name := by
    intro b hb
    obtain ⟨-, name, i, hkey, hi⟩ := hblocks b hb
    exact ⟨name, List.mem_of_getElem? (hg.findKey?_eq_some.1 hi), hkey⟩
  refine ⟨tree, hevents, hname, hbound.trans (Geometry.foldl_attach_eq_extend hg hnamed),
    fun b hb => ?_⟩
  exact ⟨(hblocks b hb).1, hnamed b hb⟩

end KeyLayout.Document
