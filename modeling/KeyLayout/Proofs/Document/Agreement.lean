import KeyLayout.Document.Symbols
import KeyLayout.Proofs.Document.Binding

/-! Looking for the includes of a symbols document and binding its symbols are two readings of the
same document. They agree on which documents are well formed. -/
namespace KeyLayout.Markup.Attributes
open Document

variable {a : Attributes} {element name : String} {e : Error}

theorem required_eq_error :
    a.required element name = .error e → e = .missingAttribute element name := by
  unfold required
  cases a.get? name with
  | none => simp [eq_comm]
  | some value => simp

theorem read?_eq_error {α : Type} {read : List Char → Option α}
    (h : a.read? read element name = .error e) :
    ∃ value, e = .invalidAttribute element name value := by
  unfold read? readValue at h
  cases hv : a.get? name with
  | none => simp [hv] at h
  | some value =>
    cases hr : read (Text.trimChars value.toList) with
    | none => exact ⟨value, by simpa [hv, hr, Except.map, eq_comm] using h⟩
    | some x => simp [hv, hr, Except.map] at h

theorem prefixed?_eq_error (h : a.prefixed? element name = .error e) :
    ∃ value, e = .invalidAttribute element name value := by
  unfold prefixed? at h
  cases hv : a.get? name with
  | none => simp [hv] at h
  | some value =>
    cases hr : Number.prefixed? value with
    | none => exact ⟨value, by simpa [hv, hr, eq_comm] using h⟩
    | some x => simp [hv, hr] at h

end KeyLayout.Markup.Attributes

namespace KeyLayout.Document
open Markup Model

/-- What only the binding of symbols finds: an attribute that is missing or wrong, or a
key that the geometry lacks. -/
def Error.OfBinding (e : Error) : Prop :=
  e.code ∈ [.missingAttribute, .invalidAttribute, .unknownKey]

namespace SymbolsDraft
variable {d : SymbolsDraft} {a : Attributes} {e : Error}

theorem ofBinding_startKey (h : d.startKey a = .error e) : e.OfBinding := by
  rcases bind_eq_error.1 h with hname | ⟨name, -, h⟩
  · rw [Attributes.required_eq_error hname]
    simp [Error.OfBinding, Error.code]
  · split at h
    next =>
      cases h
      simp [Error.OfBinding, Error.code]
    next =>
      rcases bind_eq_error.1 h with hgroups | ⟨groups, -, h⟩
      · obtain ⟨value, rfl⟩ := Attributes.read?_eq_error hgroups
        simp [Error.OfBinding, Error.code]
      · simp only at h
        split at h
        · cases h
          simp [Error.OfBinding, Error.code]
        · simp at h

theorem ofBinding_startSymbol {name : String} (h : d.startSymbol name a = .error e) :
    e.OfBinding := by
  rcases bind_eq_error.1 h with h | ⟨keyval, -, h⟩
  · unfold symbolKeyval at h
    split at h
    · rcases bind_eq_error.1 h with hkeyval | ⟨keyval, -, h⟩
      · obtain ⟨value, rfl⟩ := Attributes.prefixed?_eq_error hkeyval
        simp [Error.OfBinding, Error.code]
      · cases keyval with
        | none =>
          cases h
          simp [Error.OfBinding, Error.code]
        | some value => simp at h
    · simp at h
  · simp at h

theorem ofBinding_start {name : String} (h : d.start name a = .error e) : e.OfBinding := by
  unfold start at h
  split at h
  · exact ofBinding_startKey h
  · exact ofBinding_startSymbol h
  · exact ofBinding_startSymbol h
  · exact ofBinding_startSymbol h
  · simp at h

/-- At an event both readings go on, or both refuse the place of an element with the same error;
else only binding stops, at the start of an element, or only the search for includes does, at the
end of an empty one. -/
theorem steps_part (d : SymbolsDraft) (i : IncludesDraft) (event : Event) :
    (∃ d' i', d.step event = .ok d' ∧ i.step event = .ok i') ∨
      (∃ e, d.step event = .error e ∧ i.step event = .error e) ∨
      (∃ name a path e i', event = .start name a path ∧ d.step event = .error e ∧ e.OfBinding ∧
        i.step event = .ok i') ∨
      (∃ d', d.step event = .ok d' ∧ i.step event = .error .emptyInclude) := by
  cases event with
  | start name a path =>
    have hkinds : Kind.prerequisites.check name path = Kind.symbols.check name path := rfl
    simp only [step, IncludesDraft.step, hkinds]
    cases Kind.symbols.check name path with
    | error e => exact .inr (.inl ⟨e, rfl, rfl⟩)
    | ok _ =>
      simp only [ok_bind]
      have hscan : ∃ i', (if name = "include" then pure { i with content := some "" } else pure i :
          Except Error IncludesDraft) = .ok i' := by
        split
        · exact ⟨_, rfl⟩
        · exact ⟨_, rfl⟩
      obtain ⟨i', hi⟩ := hscan
      cases hd : d.start name a with
      | ok d' => exact .inl ⟨d', i', rfl, hi⟩
      | error e => exact .inr (.inr (.inl ⟨name, a, path, e, i', rfl, rfl, ofBinding_start hd, hi⟩))
  | stop name path =>
    simp only [step, IncludesDraft.step]
    split
    · split
      · exact .inr (.inr (.inr ⟨_, rfl, rfl⟩))
      · exact .inl ⟨_, _, rfl, rfl⟩
    · exact .inl ⟨_, _, rfl, rfl⟩
  | text t path => exact .inl ⟨_, _, rfl, rfl⟩

end SymbolsDraft

/-- Binding stops with this error at the start of an element behind which the
search for includes goes on. -/
def StopsAhead (g : Geometry) (source : Source) (e : Error) : Prop :=
  ∃ before name a path after d i, source.events = before ++ .start name a path :: after ∧
    deliver (.ofExcept SymbolsDraft.step) { geometry := g } before = (d, none) ∧
    d.step (.start name a path) = .error e ∧
    deliver (.ofExcept IncludesDraft.step) {} (before ++ [.start name a path]) = (i, none)

theorem readIncludes_eq_outcome (source : Source) : readIncludes source =
    outcome IncludesDraft.includes (consume (.ofExcept IncludesDraft.step) {} source) := by
  unfold readIncludes
  cases consume (.ofExcept IncludesDraft.step) {} source with
  | mk i refusal => cases refusal <;> rfl

/-- The two readings end alike, unless an include is empty, or binding stops ahead. -/
theorem readings_part (g : Geometry) (source : Source) :
    (consume (.ofExcept SymbolsDraft.step) { geometry := g } source).2 =
        (consume (.ofExcept IncludesDraft.step) {} source).2 ∨
      (consume (.ofExcept IncludesDraft.step) {} source).2 = some .emptyInclude ∨
      ∃ e, (consume (.ofExcept SymbolsDraft.step) { geometry := g } source).2 =
        some e ∧ e.OfBinding ∧
        StopsAhead g source e := by
  simp only [consume_eq]
  rcases deliver_both (.ofExcept SymbolsDraft.step) (.ofExcept IncludesDraft.step) { geometry := g }
    {} source.events with
    ⟨d, i, hd, hi⟩ | ⟨before, event, after, d, i, hevents, hd, hi, hrefused⟩
  · exact .inl (by rw [hd, hi])
  · rcases d.steps_part i event with ⟨d', i', hdstep, histep⟩ | ⟨e, hdstep, histep⟩ |
      ⟨name, a, path, e, i', rfl, hdstep, hbinding, histep⟩ | ⟨d', hdstep, histep⟩
    · simp [Consumer.ofExcept, hdstep, histep] at hrefused
    · left
      rw [hevents, deliver_refused hd (Consumer.refusal_ofExcept.2 hdstep),
        deliver_refused hi (Consumer.refusal_ofExcept.2 histep)]
    · refine .inr
        (.inr ⟨e, ?_, hbinding, before, name, a, path, after, d, i', hevents, hd, hdstep, ?_⟩)
      · rw [hevents, deliver_refused hd (Consumer.refusal_ofExcept.2 hdstep), Option.some_or]
      · rw [deliver_append, hi]
        simp [deliver, Consumer.ofExcept, histep]
    · right
      left
      rw [hevents, deliver_refused hi (Consumer.refusal_ofExcept.2 histep), Option.some_or]

/-- Whatever the source and the geometry: where the search for includes succeeds, binding succeeds
or finds fault with an attribute or a key. Where binding succeeds, the search does too, unless an
include is empty. Where the search fails for another reason than that, as it does for malformed
markup or misplaced elements, binding fails with the same error, or with one of its own at the start
of an earlier element. -/
theorem readings_agree (g : Geometry) (source : Source) :
    (∀ includes, readIncludes source = .ok includes →
      (∃ bound, bindSymbols g source = .ok bound) ∨
        ∃ e, bindSymbols g source = .error e ∧ e.OfBinding) ∧
    (∀ bound, bindSymbols g source = .ok bound →
      (∃ includes, readIncludes source = .ok includes) ∨
        readIncludes source = .error .emptyInclude) ∧
    (∀ e, readIncludes source = .error e → e ≠ .emptyInclude →
      bindSymbols g source = .error e ∨
        ∃ earlier, bindSymbols g source = .error earlier ∧ earlier.OfBinding ∧
          StopsAhead g source earlier) := by
  have hparts := readings_part g source
  rw [bindSymbols_eq_outcome, readIncludes_eq_outcome]
  refine ⟨fun includes h => ?_, fun bound h => ?_, fun e h hne => ?_⟩
  · have hscan := exists_outcome.1 ⟨includes, h⟩
    rcases hparts with hsame | hempty | ⟨e, hbind, hbinding, -⟩
    · exact .inl (exists_outcome.2 (hsame.trans hscan))
    · simp [hscan] at hempty
    · exact .inr ⟨e, outcome_eq_error.2 hbind, hbinding⟩
  · have hbind := exists_outcome.1 ⟨bound, h⟩
    rcases hparts with hsame | hempty | ⟨e, herror, -, -⟩
    · exact .inl (exists_outcome.2 (hsame.symm.trans hbind))
    · exact .inr (outcome_eq_error.2 hempty)
    · simp [hbind] at herror
  · have hscan := outcome_eq_error.1 h
    rcases hparts with hsame | hempty | ⟨earlier, hbind, hbinding, hstops⟩
    · exact .inl (outcome_eq_error.2 (hsame.trans hscan))
    · exact absurd (Option.some.inj (hscan.symm.trans hempty)) hne
    · exact .inr ⟨earlier, outcome_eq_error.2 hbind, hbinding, hstops⟩

/-- Without any key: a document whose includes can be read, one with an empty include, and one that
binding leaves before it comes to the misplaced element. -/
theorem withoutKeys_agree :
    let scanned := Source.ofBytes (ascii "<symbols><include>c</include><key name='x'/></symbols>")
    let bound := Source.ofBytes (ascii "<symbols><include> </include></symbols>")
    let misplaced := Source.ofBytes (ascii "<symbols><key name='x'/><section/></symbols>")
    readIncludes scanned = .ok ["c"] ∧ (∃ e, bindSymbols {} scanned = .error e ∧ e.OfBinding) ∧
      (∃ g, bindSymbols {} bound = .ok g) ∧ readIncludes bound = .error .emptyInclude ∧
      readIncludes misplaced = .error (.misplaced "section" "section/symbols") ∧
      ∃ e, bindSymbols {} misplaced = .error e ∧ e.OfBinding ∧ StopsAhead {} misplaced e := by
  intro scanned bound misplaced
  have hscanned : readIncludes scanned = .ok ["c"] := by decide +kernel
  have hunknown : (bindSymbols {} scanned).map (fun _ => ()) = .error (.unknownKey "x") := by
    decide +kernel
  have hbound : (bindSymbols {} bound).map (fun _ => ()) = .ok () := by decide +kernel
  have hempty : ∀ includes, readIncludes bound ≠ .ok includes := by
    have : readIncludes bound = .error .emptyInclude := by decide +kernel
    simp [this]
  have hmisplaced : readIncludes misplaced = .error (.misplaced "section" "section/symbols") := by
    decide +kernel
  have hahead : (bindSymbols {} misplaced).map (fun _ => ()) = .error (.unknownKey "x") := by
    decide +kernel
  obtain ⟨g, hg, -⟩ := map_eq_ok.1 hbound
  refine ⟨hscanned, ?_, ⟨g, hg⟩, ?_, hmisplaced, ?_⟩
  · rcases (readings_agree {} scanned).1 _ hscanned with ⟨g, hg⟩ | herror
    · simp [hg, Except.map] at hunknown
    · exact herror
  · rcases (readings_agree {} bound).2.1 g hg with ⟨includes, hincludes⟩ | herror
    · exact absurd hincludes (hempty includes)
    · exact herror
  · rcases (readings_agree {} misplaced).2.2 _ hmisplaced (by simp) with hsame | herror
    · simp [hsame, Except.map] at hahead
    · exact herror

end KeyLayout.Document
