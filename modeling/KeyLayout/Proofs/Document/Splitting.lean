import KeyLayout.Proofs.Document.Recut
import KeyLayout.Proofs.Document.SymbolsReading

/-! Bindings in one document or in two: the blocks of the second document come behind those of the
first either way. -/
namespace KeyLayout.Markup

theorem Content.blocks_append (c more : Content) :
    (c.append more).blocks = c.blocks ++ more.blocks := by
  induction c with
  | nil => rfl
  | text t beside ih => exact ih
  | element name a below beside _ ih =>
    simp only [append, blocks, ih]
    split <;> rfl

theorem Content.Plain.append {c more : Content} (hc : c.Plain) (hmore : more.Plain) :
    (c.append more).Plain := by
  induction c with
  | nil => exact hmore
  | text t beside ih => exact ih hc
  | element name a below beside _ ih => exact ⟨hc.1, hc.2.1, ih hc.2.2⟩

end KeyLayout.Markup

namespace KeyLayout.Document
open Markup Model

namespace SymbolsDraft
variable {d d' : SymbolsDraft}

theorem joinsText : (Consumer.ofExcept step).JoinsText where
  empty := fun d path => Consumer.ofExcept_eq_none.2 (congrArg Except.ok d.addText_empty)
  append := fun d front back path => by
    have htexts := d.addText_addText front back
    simp [deliver, Consumer.ofExcept, step, htexts]

/-- Whether an event is refused depends on the names of the keys alone. -/
theorem refused_congr (hnames : ∀ name, d.geometry.findKey? name = d'.geometry.findKey? name)
    (event : Event) :
    (Consumer.ofExcept step d event).2 = none ↔ (Consumer.ofExcept step d' event).2 = none := by
  simp only [Option.eq_none_iff_forall_ne_some, ne_eq, Consumer.refusal_ofExcept]
  refine forall_congr' fun e =>
    not_congr ⟨refusal_of_findKey? hnames, refusal_of_findKey? fun name => (hnames name).symm⟩

/-- Events are taken one behind the other if each of them would be taken as the first. -/
theorem taken_iff (events : List Event) : (deliver (.ofExcept step) d events).2 = none ↔
    ∀ event ∈ events, (Consumer.ofExcept step d event).2 = none := by
  refine deliver_taken_iff (P := fun later => later.geometry = d.geometry) (fun hlater hstep => ?_)
    (fun hlater => ?_) rfl events
  · exact (geometry_step (Consumer.ofExcept_eq_none.1 hstep)).trans hlater
  · exact refused_congr (fun name => by rw [hlater]) _

end SymbolsDraft

variable {g bound : Geometry} {source : Source}

theorem bindSymbols_of_deliver {d : SymbolsDraft} (hsource : (readSource {} source).2 = none)
    (h : deliver (.ofExcept SymbolsDraft.step) { geometry := g } source.events = (d, none)) :
    bindSymbols g source = .ok d.bound := by
  have hhear : consume (.ofExcept SymbolsDraft.step) { geometry := g } source = (d, none) := by
    rw [consume, Session.read_eq_hear, hear, ← Source.events, h, hsource]
  rw [bindSymbols_eq_outcome, hhear, outcome]

theorem taken_of_bindSymbols (h : bindSymbols g source = .ok bound) :
    ∀ event ∈ source.events,
      (Consumer.ofExcept SymbolsDraft.step { geometry := g } event).2 = none := by
  rw [bindSymbols_eq_outcome] at h
  obtain ⟨hnone, -⟩ := outcome_eq_ok.1 h
  have hdelivered := deliver_of_consume (Prod.ext rfl hnone)
  exact (SymbolsDraft.taken_iff _).1 (congrArg Prod.snd hdelivered)

/-- Two documents that a geometry takes can be bound one behind the other, and one document with the
content of both does the same to the geometry, whatever the attributes of its root are and however
its texts are cut. -/
theorem bindings_joined {g first' second' : Geometry} {first second : Source}
    (hfirst : bindSymbols g first = .ok first') (hsecond : bindSymbols g second = .ok second') :
    ∃ one two : Tree, first.events = one.events ∧ second.events = two.events ∧
      one.name = "symbols" ∧ two.name = "symbols" ∧
      ∃ both, bindSymbols first' second = .ok both ∧
        ∀ joined a, (readSource {} joined).2 = none →
          Recut joined.events (Tree.mk "symbols" a (one.content.append two.content)).events →
          bindSymbols g joined = .ok both := by
  obtain ⟨one, hone, honeName, honePlain, rfl, -⟩ := attached_of_bindSymbols hfirst
  obtain ⟨two, htwo, htwoName, htwoPlain, -, -⟩ := attached_of_bindSymbols hsecond
  obtain ⟨both, hboth⟩ : ∃ both,
    bindSymbols (one.content.blocks.foldl Geometry.attach g) second = .ok both := by
    cases hb : bindSymbols (one.content.blocks.foldl Geometry.attach g) second with
    | ok both => exact ⟨both, rfl⟩
    | error e =>
      have herror := bindSymbols_error_of_bare (bare_bindSymbols hfirst) hb
      simp [hsecond] at herror
  refine ⟨one, two, hone, htwo, honeName, htwoName, both, hboth, fun joined a hjoined hcut => ?_⟩
  -- Each event of the joined tree is one of either document, or starts or ends the root.
  have htaken : ∀ event ∈ (Tree.mk "symbols" a (one.content.append two.content)).events,
      (Consumer.ofExcept SymbolsDraft.step { geometry := g } event).2 = none := by
    have hroot : (Consumer.ofExcept SymbolsDraft.step { geometry := g } (.start "symbols" a [])).2 =
        none := rfl
    have hfirst := taken_of_bindSymbols hfirst
    have hsecond := taken_of_bindSymbols hsecond
    rw [hone, Tree.events_eq, honeName] at hfirst
    rw [htwo, Tree.events_eq, htwoName] at hsecond
    simp only [List.forall_mem_cons, List.forall_mem_append] at hfirst hsecond
    simp only [Tree.events_eq, Content.events_append, List.forall_mem_cons, List.forall_mem_append]
    exact ⟨hroot, ⟨hfirst.2.1, hsecond.2.1⟩, hfirst.2.2⟩
  obtain ⟨d, hd⟩ : ∃ d, deliver (.ofExcept SymbolsDraft.step) { geometry := g } _ = (d, none) :=
    ⟨_, Prod.ext rfl ((SymbolsDraft.taken_iff _).2 htaken)⟩
  obtain ⟨-, hbound, -⟩ :=
    SymbolsDraft.bound_of_tree (by simp [Plain]) (honePlain.append htwoPlain) hd
  have hall : d.bound = both := by
    obtain ⟨tree, htree, -, -, hbehind, -⟩ := attached_of_bindSymbols hboth
    obtain rfl : tree = two := Tree.events_inj (htree.symm.trans htwo)
    rw [hbound, hbehind, Content.blocks_append, List.foldl_append]
  rw [← hall]
  exact bindSymbols_of_deliver hjoined ((SymbolsDraft.joinsText.deliver_eq hcut _).trans hd)

def symbolsWith (content : String) : Source :=
  .ofBytes (ascii ("<symbols>" ++ content ++ "</symbols>"))

def firstLine : String := "\n<key name='a'><text>x</text><invalid/></key>\n"

def secondLine : String := "\n<key name='a'><symbol>y</symbol></key>"

def firstContent : Content :=
  .text "\n" (.element "key" ⟨[("name", "a")]⟩
    (.element "text" {} (.text "x" .nil) (.element "invalid" {} .nil .nil)) (.text "\n" .nil))

def secondContent : Content :=
  .text "\n" (.element "key" ⟨[("name", "a")]⟩ (.element "symbol" {} (.text "y" .nil) .nil) .nil)

/-- A key that both documents bind. Where the lines meet, two texts become one. -/
theorem lines_joined :
    let g : Geometry := { keys := [{ name := "a", keycode := 8 }], names := [("a", 0)] }
    ∃ first' both, bindSymbols g (symbolsWith firstLine) = .ok first' ∧
      bindSymbols first' (symbolsWith secondLine) = .ok both ∧
      bindSymbols g (symbolsWith (firstLine ++ secondLine)) = .ok both ∧
      both.keys = [{ name := "a", keycode := 8, levels :=
        [⟨0, 0, [⟨.text "x", {}⟩]⟩, ⟨0, 1, []⟩, ⟨1, 0, [⟨.keysym "y", {}⟩]⟩] }] := by
  intro g
  have hone : readSource {} (symbolsWith firstLine) =
      ((Tree.mk "symbols" {} firstContent).events, none) := by
    decide +kernel
  have htwo : readSource {} (symbolsWith secondLine) =
      ((Tree.mk "symbols" {} secondContent).events, none) := by
    decide +kernel
  have hbinds {content : Content} {source : Source}
      (hread : readSource {} source = ((Tree.mk "symbols" {} content).events, none))
      (htaken : (deliver (.ofExcept SymbolsDraft.step) { geometry := g }
        (Tree.mk "symbols" {} content).events).2 = none) :
      ∃ bound, bindSymbols g source = .ok bound :=
    ⟨_, bindSymbols_of_deliver (by rw [hread])
      (Prod.ext rfl (by rw [Source.events, hread, htaken]))⟩
  obtain ⟨first', hfirst⟩ := hbinds hone (by decide +kernel)
  obtain ⟨second', hsecond⟩ := hbinds htwo (by decide +kernel)
  obtain ⟨one, two, honeTree, htwoTree, -, -, both, hboth, hjoined⟩ :=
    bindings_joined hfirst hsecond
  obtain rfl := Tree.events_inj (honeTree.symm.trans (congrArg Prod.fst hone))
  obtain rfl := Tree.events_inj (htwoTree.symm.trans (congrArg Prod.fst htwo))
  let cut := (Tree.mk "symbols" {} (firstContent.append secondContent)).events
  have hread : readSource {} (symbolsWith (firstLine ++ secondLine)) =
      (cut.take 9 ++ .text ("\n" ++ "\n") ["symbols"] :: cut.drop 11, none) := by decide +kernel
  have hcuts :
      cut = cut.take 9 ++ .text "\n" ["symbols"] :: .text "\n" ["symbols"] :: cut.drop 11 := by
    decide +kernel
  have hcut : Recut (symbolsWith (firstLine ++ secondLine)).events cut := by
    rw [Source.events, hread]
    exact Eq.mpr (congrArg _ hcuts) (.rel _ _ (.split _ _ _ _ _))
  have hall := hjoined (symbolsWith (firstLine ++ secondLine)) {} (by rw [hread]) hcut
  have hkeys : (bindSymbols g (symbolsWith (firstLine ++ secondLine))).map (·.keys) =
      .ok [{ name := "a", keycode := 8, levels :=
        [⟨0, 0, [⟨.text "x", {}⟩]⟩, ⟨0, 1, []⟩, ⟨1, 0, [⟨.keysym "y", {}⟩]⟩] }] := by decide +kernel
  exact ⟨first', both, hfirst, hboth, hall, by simpa [hall, Except.map] using hkeys⟩

end KeyLayout.Document
