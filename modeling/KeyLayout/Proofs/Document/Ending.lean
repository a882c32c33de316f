import KeyLayout.Proofs.Document.WellNested
import KeyLayout.Proofs.Markup.LastBytes

/-! What can still go wrong at the end of a document of which all pieces have been taken. -/
namespace KeyLayout.Document
open Markup

variable {σ : Type}

/-- The error of text at the end of a document, with the elements that are open there:
its own, or the consumer's. -/
def trailingError (consumer : Consumer σ) (state : σ) (path : List String) (offset : Nat)
    (raw : Bytes) : Option Error :=
  if raw = [] then none
  else
    match Utf8.decode raw with
    | .error valid => some (.markup ⟨offset + valid, .illFormedText⟩)
    | .ok text =>
      if path = [] then
        if Text.isBlankText text then none else some (.markup ⟨offset, .textOutsideRoot⟩)
      else
        match expand text with
        | .error fault => some (.markup ⟨offset, .reference fault⟩)
        | .ok text => (consumer state (.text text path)).2

/-- The error of a document of some length that ends behind these events. -/
def closingError (calls : List Event) (length : Nat) : Option Error :=
  match openElements calls with
  | name :: _ => some (.markup ⟨length, .unclosed name⟩)
  | [] => if calls = [] then some (.markup ⟨length, .noRoot⟩) else none

/-- The session is usable and waits; the bytes pending are the last ones, from its offset on. -/
structure Session.Fed (s : Session σ) (bytes : Bytes) : Prop where
  usable : s.failed = false
  waits : s.reader.Waits
  tiles : ∃ front, bytes = front ++ s.reader.pending ∧ s.reader.offset = front.length

namespace Session
variable {consume : Consumer σ} {s : Session σ} {bytes : Bytes}

theorem fed_start (state : σ) : Fed { state } [] :=
  ⟨rfl, Reader.waits_start, [], rfl, rfl⟩

/-- A usable session is its reader and its state. -/
theorem Fed.eq_mk (h : s.Fed bytes) : s = { reader := s.reader, state := s.state } := by
  obtain ⟨reader, failed, state⟩ := s
  obtain rfl : failed = false := h.usable
  rfl

theorem Fed.feed (h : s.Fed bytes) {piece : Bytes} (hok : (s.feed consume piece).2 = none) :
    (s.feed consume piece).1.Fed (bytes ++ piece) := by
  obtain ⟨front, hbytes, hoffset⟩ := h.tiles
  rw [h.eq_mk, feed_eq] at hok ⊢
  cases hd : deliver consume s.state (s.reader.feed piece).events with
  | mk state refusal =>
    cases refusal with
    | some e => simp [hd] at hok
    | none =>
      cases ho : (s.reader.feed piece).outcome with
      | error failure => simp [hd, ho] at hok
      | ok reader =>
        obtain ⟨read, hread, hplace⟩ := Reader.tiles_drainAs ho
        have hread : s.reader.pending ++ piece = read ++ reader.pending := hread
        refine ⟨rfl, Reader.waits_of_drain ho, front ++ read, ?_, ?_⟩
        · rw [hbytes, List.append_assoc, List.append_assoc, ← hread]
        · simp only [hplace, List.length_append, ← hoffset]

theorem Fed.feedAll (h : s.Fed bytes) {pieces : List Bytes}
    (hok : ∀ error? ∈ (s.feedAll consume pieces).2, error? = none) :
    (s.feedAll consume pieces).1.Fed (bytes ++ pieces.flatten) := by
  induction pieces generalizing s bytes with
  | nil => simpa [Session.feedAll] using h
  | cons piece more ih =>
    obtain ⟨hfirst, hmore⟩ := List.forall_mem_cons.1 hok
    have := ih (h.feed hfirst) hmore
    rwa [List.append_assoc] at this

end Session

section finish
variable {r last : Reader} {events calls : List Event} {failure : Failure}

theorem telling_of_failed (h : r.drainLast = ⟨events, .error failure⟩) :
    telling r.finish = (events, some (.markup failure)) := by
  simp [Reader.finish, h, telling]

/-- Behind the last bytes the elements must be closed, and there must have been one. -/
theorem telling_of_drained (h : r.drainLast = ⟨events, .ok last⟩) (hb : last.nesting.Behind calls) :
    telling r.finish = (events, closingError calls last.offset) := by
  have hroot := hb.rootSeen
  simp only [Reader.finish, h, closingError, ← hb.path]
  cases last.nesting.path with
  | cons name path => rfl
  | nil =>
    cases hseen : last.nesting.rootSeen with
    | true => simp [telling, hroot.1 hseen]
    | false =>
      have hnone : calls = [] := by
        by_contra hne
        simp [hroot.2 hne] at hseen
      simp [telling, hnone]

theorem interpret_text (n : Nesting) (offset : Nat) (raw : Bytes) :
    n.interpret offset (.text raw) =
      match Utf8.decode raw with
      | .error valid => .error ⟨offset + valid, .illFormedText⟩
      | .ok text =>
        if n.path = [] then
          if Text.isBlankText text then .ok ([], n) else .error ⟨offset, .textOutsideRoot⟩
        else
          match expand text with
          | .error fault => .error ⟨offset, .reference fault⟩
          | .ok text => .ok ([.text text n.path], n) := by
  simp only [Nesting.interpret, decodeText, expandText]
  cases Utf8.decode raw with
  | error valid => rfl
  | ok text =>
    cases n.path with
    | nil => rfl
    | cons name path =>
      cases hexpand : expand text <;> simp [hexpand, bind, Except.bind, pure, Except.pure]

end finish

namespace Session
variable {consumer : Consumer σ} {s : Session (σ × List Event)} {document : Bytes}

theorem Fed.finish_eq (h : s.Fed document) :
    (s.finish consumer.recording).2 =
      ((deliver consumer.recording s.state (telling s.reader.finish).1).2).or
        (telling s.reader.finish).2 := by
  rw [h.eq_mk, finish_eq_hear, hear_snd]

/-- Text at the end is read, and then the document ends. -/
theorem Fed.finish_text (h : s.Fed document) (hb : s.reader.nesting.Behind s.state.2)
    (ht : 0x3C ∉ s.reader.pending) :
    (s.finish consumer.recording).2 =
      (trailingError consumer s.state.1 (openElements s.state.2) s.reader.offset
        s.reader.pending).or
        (closingError s.state.2 document.length) := by
  obtain ⟨front, hdocument, hoffset⟩ := h.tiles
  have hlength : document.length = s.reader.offset + s.reader.pending.length := by
    rw [hdocument, List.length_append, hoffset]
  rw [h.finish_eq]
  by_cases hp : s.reader.pending = []
  · have htold := telling_of_drained (Reader.drainAs_nil hp) hb
    simp [htold, trailingError, hp, deliver, hlength]
  have hread := Reader.drainLast_text hp ht
  have hplace : (s.reader.behind [] s.reader.nesting).offset = document.length := by
    simp [Reader.behind, hlength]
  rw [interpret_text] at hread
  simp only [trailingError, if_neg hp, ← hb.path]
  cases hdecode : Utf8.decode s.reader.pending with
  | error valid =>
    rw [hdecode] at hread
    simp [telling_of_failed hread, deliver]
  | ok text =>
    rw [hdecode] at hread
    simp only at hread ⊢
    split_ifs at hread ⊢ with hpath hblank
    · have htold := telling_of_drained hread hb
      simp [htold, hplace, deliver]
    · simp [telling_of_failed hread, deliver]
    · cases hexpand : expand text with
      | error fault =>
        rw [hexpand] at hread
        simp [telling_of_failed hread, deliver]
      | ok expanded =>
        rw [hexpand] at hread
        have htold := telling_of_drained hread hb
        rw [htold, hplace, deliver_singleton]
        rfl

end Session

/-- What is pending behind all pieces of a document, and what its end then comes to. -/
structure Ending (consumer : Consumer σ) (document : Bytes)
    (s : Session (σ × List Event)) : Prop where
  /-- What is pending are the last bytes of the document. -/
  tiles : ∃ front, document = front ++ s.reader.pending ∧ s.reader.offset = front.length
  /-- They are none, or a text, or a proper beginning of a token that begins with `<`. -/
  pending : s.reader.pending = [] ∨ 0x3C ∉ s.reader.pending ∨
    (∃ rest, s.reader.pending = 0x3C :: rest) ∧
      ∃ more token, more ≠ [] ∧ scan (s.reader.pending ++ more) = .token token []
  unterminated : 0x3C ∈ s.reader.pending →
    (s.finish consumer.recording).2 = some (.markup ⟨s.reader.offset, .unterminated⟩)
  otherwise : 0x3C ∉ s.reader.pending →
    (s.finish consumer.recording).2 =
      (trailingError consumer s.state.1 (openElements s.state.2) s.reader.offset
        s.reader.pending).or
        (closingError s.state.2 document.length)
  succeeds : (s.finish consumer.recording).2 = none ↔
    0x3C ∉ s.reader.pending ∧
      trailingError consumer s.state.1 (openElements s.state.2) s.reader.offset s.reader.pending =
        none ∧
      closingError s.state.2 document.length = none

/-- Whatever is cut off where a document ends is unterminated, and told at its first byte; else the
text there is read, and then all elements must be closed and there must have been one. -/
theorem end_of_input (consumer : Consumer σ) (state : σ) (pieces : List Bytes)
    (hfed : ∀ error? ∈ (Session.feedAll consumer.recording { state := (state, []) } pieces).2,
      error? = none) :
    Ending consumer pieces.flatten
      (Session.feedAll consumer.recording { state := (state, []) } pieces).1 := by
  have hs := (Session.fed_start (state, [])).feedAll hfed
  have hnested : (Session.feedAll consumer.recording { state := (state, []) } pieces).1.Nested :=
    (Session.nested_start state).feedAll pieces
  have hb := hnested.behind hs.usable
  rw [List.nil_append] at hs
  generalize (Session.feedAll consumer.recording { state := (state, []) } pieces).1 =
    s at hs hb hnested ⊢
  have htext : 0x3C ∉ s.reader.pending → (s.finish consumer.recording).2 = _ := hs.finish_text hb
  -- All that can wait for more bytes is nothing, a text, or the beginning of markup.
  rcases cutOff_cases hs.waits with hp | ⟨-, hp⟩ | ⟨rest, hp⟩
  · have hnot : 0x3C ∉ s.reader.pending := by simp [hp]
    exact ⟨hs.tiles, .inl hp, fun h => absurd h hnot, htext,
      by simp [htext hnot, hnot, Option.or_eq_none_iff]⟩
  · exact ⟨hs.tiles, .inr (.inl hp), fun h => absurd h hp, htext,
      by simp [htext hp, hp, Option.or_eq_none_iff]⟩
  · have hmem : 0x3C ∈ s.reader.pending := by simp [hp]
    have hwaits : scan (0x3C :: rest) = .cutOff := hp ▸ hs.waits
    have hfails :
        (s.finish consumer.recording).2 = some (.markup ⟨s.reader.offset, .unterminated⟩) := by
      rw [hs.finish_eq, telling_of_failed (hs.waits.drainLast_markup hp)]
      rfl
    refine ⟨hs.tiles, .inr (.inr ⟨⟨rest, hp⟩, ?_⟩), fun _ => hfails, fun h => absurd hmem h,
      by simp [hfails, hmem]⟩
    rw [hp]
    exact exists_completion hwaits

/-- A comment of which only the opening has arrived, cut in two pieces. -/
theorem cutComment_ends :
    (∀ error? ∈ (Session.feedAll (refusingEnd "c").recording { state := ((), []) }
      [ascii "<a/> <!", ascii "-- "]).2, error? = none) ∧
    Ending (refusingEnd "c") (ascii "<a/> <!-- ")
      (Session.feedAll (refusingEnd "c").recording { state := ((), []) }
        [ascii "<a/> <!", ascii "-- "]).1 := by
  have hfed : ∀ error? ∈ (Session.feedAll (refusingEnd "c").recording { state := ((), []) }
      [ascii "<a/> <!", ascii "-- "]).2, error? = none := by decide +kernel
  exact ⟨hfed, end_of_input (refusingEnd "c") () [ascii "<a/> <!", ascii "-- "] hfed⟩

end KeyLayout.Document
