import KeyLayout.Proofs.Document.Delivery
import KeyLayout.Proofs.Markup.Decisions

/-! Where bytes are reported that are no text. The offset counts from the beginning of the token,
and the valid front from the beginning of the part that is rejected, so the first ill-formed byte is
met only if the part begins the token. -/
namespace KeyLayout.Markup
open Utf8

/-- The first of some parts that is no text: a front that is one, and bytes behind it with which no
character begins. -/
structure Stray (parts : List Bytes) where
  earlier : List Bytes
  good : Bytes
  bad : Bytes
  later : List Bytes
  parts_eq : parts = earlier ++ (good ++ bad) :: later
  earlier_text : ∀ part ∈ earlier, IsText part
  good_text : IsText good
  bad_ne_nil : bad ≠ []
  decodeChar?_bad : decodeChar? bad = none

namespace Stray

def behind {part : Bytes} {parts : List Bytes} (stray : Stray parts) (h : IsText part) :
    Stray (part :: parts) :=
  { stray with
    earlier := part :: stray.earlier
    parts_eq := congrArg (part :: ·) stray.parts_eq
    earlier_text := List.forall_mem_cons.2 ⟨h, stray.earlier_text⟩ }

end Stray

section interpret
variable {offset place : Nat}

theorem stray_of_decodeText {raw : Bytes}
    (h : decodeText offset raw = .error ⟨place, .illFormedText⟩) (others : List Bytes) :
    ∃ stray : Stray (raw :: others), place = offset + stray.good.length := by
  unfold decodeText at h
  split at h
  next => simp at h
  next valid hdecode =>
    obtain ⟨good, bad, rfl, rfl, hgood, hne, hnone⟩ := exists_of_decode_error hdecode
    refine ⟨⟨[], good, bad, others, rfl, by simp, hgood, hne, hnone⟩, ?_⟩
    simpa [eq_comm] using h

theorem expandText_ne_illFormed {text : String} :
    expandText offset text ≠ .error ⟨place, .illFormedText⟩ := by
  unfold expandText
  split <;> simp

theorem stray_of_readAttributes {element : String} {known : Attributes} {raw : List (Bytes × Bytes)}
    (h : readAttributes offset element known raw = .error ⟨place, .illFormedText⟩) :
    ∃ stray : Stray (raw.flatMap fun entry => [entry.1, entry.2]),
      place = offset + stray.good.length := by
  induction raw generalizing known with
  | nil => simp [readAttributes] at h
  | cons first more ih =>
    rcases bind_eq_error.1 h with hname | ⟨name, hname, h⟩
    · exact stray_of_decodeText hname _
    · have hnametext := isText_of_decodeText hname
      rcases bind_eq_error.1 h with hvalue | ⟨decoded, hvalue, h⟩
      · obtain ⟨stray, hplace⟩ :=
          stray_of_decodeText hvalue (more.flatMap fun entry => [entry.1, entry.2])
        exact ⟨stray.behind hnametext, hplace⟩
      · rcases bind_eq_error.1 h with hexpand | ⟨value, -, h⟩
        · exact absurd hexpand expandText_ne_illFormed
        · split at h
          · obtain ⟨stray, hplace⟩ := ih h
            exact ⟨(stray.behind (isText_of_decodeText hvalue)).behind hnametext, hplace⟩
          · simp at h

/-- A token that is rejected for bytes that are no text has a first part with such bytes. -/
theorem Nesting.stray_of_interpret {n : Nesting} {token : Token}
    (h : n.interpret offset token = .error ⟨place, .illFormedText⟩) :
    ∃ stray : Stray token.parts, place = offset + stray.good.length := by
  cases token with
  | startTag rawName rawAttributes empty =>
    rcases bind_eq_error.1 h with hname | ⟨name, hname, h⟩
    · exact stray_of_decodeText hname _
    · simp only at h
      split at h
      · simp at h
      · rcases bind_eq_error.1 h with hattributes | ⟨a, -, h⟩
        · obtain ⟨stray, hplace⟩ := stray_of_readAttributes hattributes
          exact ⟨stray.behind (isText_of_decodeText hname), hplace⟩
        · split at h <;> simp at h
  | endTag rawName =>
    rcases bind_eq_error.1 h with hname | ⟨name, -, h⟩
    · exact stray_of_decodeText hname _
    · repeat' split at h
      all_goals simp at h
  | text raw =>
    rcases bind_eq_error.1 h with htext | ⟨text, -, h⟩
    · exact stray_of_decodeText htext _
    · split at h
      · split at h <;> simp at h
      · rcases bind_eq_error.1 h with hexpand | ⟨_, -, h⟩
        · exact absurd hexpand expandText_ne_illFormed
        · simp at h
  | verbatim raw =>
    rcases bind_eq_error.1 h with htext | ⟨text, -, h⟩
    · exact stray_of_decodeText htext _
    · split at h <;> simp at h
  | skipped => simp [Nesting.interpret] at h

end interpret

/-- The token that a reader of the document rejects, with a part of it that is no text
and the place of that part. -/
structure StrayToken (document : Bytes) where
  /-- The tokens in front are those that the reader takes, so that they are whole, and it has come
  to the rejected one. -/
  taken : List Lexeme
  reader : Reader
  takes : Reader.Takes .ended { pending := document } taken reader
  token : Token
  rest : Bytes
  scanned : Supply.ended.scan reader.pending = .token token rest
  stray : Stray token.parts
  rejected : reader.nesting.interpret reader.offset token =
    .error ⟨reader.offset + stray.good.length, .illFormedText⟩
  before : Bytes
  behind : Bytes
  pending_eq : reader.pending = before ++ (stray.good ++ stray.bad ++ behind)
  /-- In front of the part there are the opening of the token and the earlier parts. -/
  spans : Spans (before ++ (stray.good ++ stray.bad ++ behind)) stray.earlier
    (stray.good ++ stray.bad ++ behind)
  opening : token.opening <+: before
  first : stray.earlier = [] → before = token.opening

namespace StrayToken
variable {document : Bytes} (t : StrayToken document)

def front : Bytes := t.taken.flatMap Lexeme.bytes

theorem tiles : document = t.front ++ (t.before ++ (t.stray.good ++ t.stray.bad ++ t.behind)) := by
  have hbytes : document = t.front ++ t.reader.pending := t.takes.tiles.1
  rw [← t.pending_eq]
  exact hbytes

theorem offset_reader : t.reader.offset = t.front.length := by
  have hoffset : t.reader.offset = 0 + t.front.length := t.takes.tiles.2
  omega

/-- The place of the first ill-formed byte of the token. -/
def place : Nat := t.front.length + (t.before.length + t.stray.good.length)

/-- There stand the bytes with which no character begins. -/
theorem drop_place : document.drop t.place = t.stray.bad ++ t.behind := by
  have htiles : document = t.front ++ (t.before ++ t.stray.good) ++ (t.stray.bad ++ t.behind) := by
    simpa using t.tiles
  have hlength : (t.front ++ (t.before ++ t.stray.good)).length = t.place := by simp [place]
  exact (congrArg (List.drop t.place) htiles).trans (List.drop_left' hlength)

/-- All in front of that byte is text, from the beginning of the token. -/
theorem isText_front : IsText (t.before ++ t.stray.good) := by
  obtain ⟨front, hfront, htext⟩ := t.spans.exists_front
  obtain rfl : t.before = front := List.append_cancel_right hfront
  exact (htext t.stray.earlier_text).append t.stray.good_text

/-- The part begins the token just if that is a text. -/
theorem before_eq_nil_iff : t.before = [] ↔ ∃ raw, t.token = .text raw := by
  constructor
  · intro hnil
    have hopening : t.token.opening = [] := List.prefix_nil.1 (hnil ▸ t.opening)
    rcases Token.opening_eq_nil.1 hopening with htext | hskipped
    · exact htext
    · have hparts := t.stray.parts_eq
      simp [hskipped, Token.parts] at hparts
  · rintro ⟨raw, htext⟩
    have hone : t.token.parts = [raw] := by rw [htext]; rfl
    have hparts := hone.symm.trans t.stray.parts_eq
    have hearlier : t.stray.earlier = [] := by
      cases hearlier : t.stray.earlier with
      | nil => rfl
      | cons part parts => simp [hearlier] at hparts
    rw [t.first hearlier, htext]
    rfl

end StrayToken

theorem Supply.fault_ne_illFormed (s : Supply) (construct : Option Construct) (bytes : Bytes) :
    s.fault construct bytes ≠ .illFormedText := by
  unfold Supply.fault
  split
  · simp
  · split <;> simp

/-- A part of a token has its place behind the opening of the token and the parts in front of it. -/
theorem Token.Lies.exists_place {token : Token} {input rest : Bytes} (h : token.Lies input rest)
    {part : Bytes} {earlier later : List Bytes} (hp : token.parts = earlier ++ part :: later) :
    ∃ before behind, input = before ++ (part ++ behind) ∧ Spans input earlier (part ++ behind) ∧
      token.opening <+: before ∧ (earlier = [] → before = token.opening) := by
  obtain ⟨first, others, mid, hparts, rfl, hmid⟩ := h
  rw [hparts] at hp
  cases earlier with
  | nil =>
    obtain ⟨rfl, rfl⟩ : first = part ∧ others = later := by simpa using hp
    exact ⟨token.opening, mid, rfl, .gap token.allAscii_opening _, List.prefix_rfl, fun _ => rfl⟩
  | cons _ earlier =>
    obtain ⟨rfl, rfl⟩ := List.cons.inj hp
    obtain ⟨behind, hspans, -⟩ := hmid.split
    obtain ⟨front, rfl, -⟩ := hspans.exists_front
    refine ⟨token.opening ++ (first ++ front), behind, by simp, ?_, List.prefix_append _ _, by simp⟩
    exact .part token.allAscii_opening first hspans

theorem Supply.ended_scan_of_token {s : Supply} {input rest : Bytes} {token : Token}
    (h : s.scan input = .token token rest) : Supply.ended.scan input = .token token rest := by
  cases s with
  | ended => exact h
  | arriving =>
    have hdecided : Scan.token token rest ≠ .cutOff := by simp
    simpa [Scan.extend] using scan_append_of_decided .ended [] h hdecided

/-- Tokens that are taken while bytes arrive are taken also when there are no more. -/
theorem Reader.Takes.ended {s : Supply} {r last : Reader} {taken : List Lexeme}
    (h : r.Takes s taken last) : r.Takes .ended taken last := by
  cases s with
  | ended => exact h
  | arriving => simpa [Reader.extend] using h.extend .ended []

/-- The reader takes tokens up to one that it rejects with this failure. -/
def Reader.Rejects (r : Reader) (failure : Failure) : Prop :=
  ∃ taken last token rest, r.Takes .ended taken last ∧
    Supply.ended.scan last.pending = .token token rest ∧
    last.nesting.interpret last.offset token = .error failure

theorem Reader.Takes.rejects {r last : Reader} {taken : List Lexeme} {failure : Failure}
    (h : r.Takes .ended taken last) (hlast : last.Rejects failure) : r.Rejects failure := by
  obtain ⟨others, final, token, rest, hothers, hrejected⟩ := hlast
  exact ⟨taken ++ others, final, token, rest, h.trans hothers, hrejected⟩

theorem Reader.rejects_of_drainAs {s : Supply} {r : Reader} {failure : Failure}
    (hfault : failure.fault = .illFormedText) (h : (r.drainAs s).outcome = .error failure) :
    r.Rejects failure := by
  obtain ⟨taken, last, htakes, hlast⟩ := Reader.takes_drainAs s r
  rw [h] at hlast
  cases hlast with
  | malformed hscan => exact absurd hfault (s.fault_ne_illFormed _ _)
  | refused hscan htold =>
    exact ⟨taken, last, _, _, htakes.ended, Supply.ended_scan_of_token hscan, htold⟩

/-- The end of a document is never blamed for bytes that are no text, only its last token. -/
theorem Reader.rejects_of_finish {r : Reader} {failure : Failure}
    (hfault : failure.fault = .illFormedText) (h : r.finish.outcome = .error failure) :
    r.Rejects failure := by
  have hlast : r.drainLast.outcome = .error failure := by
    unfold Reader.finish at h
    cases hlast : r.drainLast.outcome with
    | error other => simpa [hlast] using h
    | ok last =>
      simp only [hlast] at h
      repeat' split at h
      all_goals cases failure; simp_all
  exact rejects_of_drainAs hfault hlast

theorem Reader.rejects_of_readPieces {pieces : List Bytes} {failure : Failure}
    (hfault : failure.fault = .illFormedText)
    (h : (({} : Reader).readPieces pieces).outcome = .error failure) :
    Reader.Rejects { pending := pieces.flatten } failure := by
  rw [Reader.waits_start.readPieces_flatten] at h
  cases ho : (({} : Reader).feed pieces.flatten).outcome with
  | error other =>
    have hother : other = failure := by simpa [Batch.andThen, ho] using h
    rw [hother] at ho
    exact rejects_of_drainAs hfault ho
  | ok r =>
    have hfinish : r.finish.outcome = .error failure := by simpa [Batch.andThen, ho] using h
    -- The pending bytes are read on, by the reader that has taken all the others.
    obtain ⟨taken, mid, htakes, hmid⟩ :=
      Reader.takes_drainAs .arriving { pending := pieces.flatten }
    have hwaits : mid.Stays .arriving (.ok r) := by
      rw [← ho]
      exact hmid
    cases hwaits
    exact htakes.ended.rejects (rejects_of_finish hfault hfinish)

/-- Bytes that are no text are reported from the place of their token, by the
valid front of their part. -/
theorem Reader.exists_strayToken {pieces : List Bytes} {offset : Nat}
    (h : (({} : Reader).readPieces pieces).outcome = .error ⟨offset, .illFormedText⟩) :
    ∃ t : StrayToken pieces.flatten, offset = t.front.length + t.stray.good.length := by
  obtain ⟨taken, reader, token, rest, htakes, hscan, htold⟩ := Reader.rejects_of_readPieces rfl h
  obtain ⟨stray, hplace⟩ := Nesting.stray_of_interpret htold
  have hlies : token.Lies reader.pending rest := by
    rcases token_cases hscan with hlies | ⟨hskipped, -⟩
    · exact hlies
    · have hparts := stray.parts_eq
      simp [hskipped, Token.parts] at hparts
  obtain ⟨before, behind, hpending, hspans, hopening, hfirst⟩ := hlies.exists_place stray.parts_eq
  have hrejected : reader.nesting.interpret reader.offset token =
      .error ⟨reader.offset + stray.good.length, .illFormedText⟩ := by
    rw [← hplace]
    exact htold
  let t : StrayToken pieces.flatten := {
    taken, reader, takes := htakes, token, rest, scanned := hscan, stray, rejected := hrejected
    before, behind, pending_eq := hpending, spans := hpending ▸ hspans, opening := hopening
    first := hfirst }
  refine ⟨t, ?_⟩
  rw [← t.offset_reader]
  exact hplace

end KeyLayout.Markup

namespace KeyLayout.Document
open Markup Utf8

variable {σ : Type}

/-- Bytes that are no text are reported too early by as many bytes as stand between the beginning of
their token and their part, so that the offset is that of the first ill-formed byte of the token
just if the token is a text. -/
theorem offset_of_illFormed (consumer : Consumer σ) (state : σ) (pieces : List Bytes) {offset : Nat}
    (h : (Session.readPieces consumer { state } pieces).2 =
      some (.markup ⟨offset, .illFormedText⟩)) :
    (∃ s event, (consumer s event).2 = some (.markup ⟨offset, .illFormedText⟩)) ∨
      ∃ t : StrayToken pieces.flatten, IsText (t.before ++ t.stray.good) ∧
        pieces.flatten.drop t.place = t.stray.bad ++ t.behind ∧
        offset + t.before.length = t.place ∧
        (offset = t.place ↔ ∃ raw, t.token = .text raw) := by
  rw [Session.readPieces_eq_hear, hear_snd] at h
  cases hd : (deliver consumer state (telling (({} : Reader).readPieces pieces)).1).2 with
  | some e =>
    obtain rfl : e = .markup ⟨offset, .illFormedText⟩ := by simpa [hd] using h
    obtain ⟨before, event, after, s, -, -, hevent⟩ := deliver_eq_refused.1 hd
    exact .inl ⟨s, event, hevent⟩
  | none =>
    have hfails : (({} : Reader).readPieces pieces).outcome = .error ⟨offset, .illFormedText⟩ := by
      cases ho : (({} : Reader).readPieces pieces).outcome <;> simp_all [telling]
    obtain ⟨t, ht⟩ := Reader.exists_strayToken hfails
    refine .inr ⟨t, t.isText_front, t.drop_place, by rw [ht, StrayToken.place]; omega, ?_⟩
    rw [← t.before_eq_nil_iff, ← List.length_eq_zero_iff, ht, StrayToken.place]
    omega

def listening : Consumer Unit := fun s _ => (s, none)

/-- The name of a start tag is reported one byte too early, also when
the tag is cut in its midst. -/
theorem strayName_offset :
    (Session.readPieces listening { state := () } [[0x3C, 0x61], [0xFF, 0x3E]]).2 =
      some (.markup ⟨1, .illFormedText⟩) ∧
    ∃ t : StrayToken [0x3C, 0x61, 0xFF, 0x3E], IsText (t.before ++ t.stray.good) ∧
      List.drop t.place [0x3C, 0x61, 0xFF, 0x3E] = t.stray.bad ++ t.behind ∧
      1 + t.before.length = t.place ∧ (1 = t.place ↔ ∃ raw, t.token = .text raw) := by
  have h : (Session.readPieces listening { state := () } [[0x3C, 0x61], [0xFF, 0x3E]]).2 =
      some (.markup ⟨1, .illFormedText⟩) := by decide +kernel
  refine ⟨h, (offset_of_illFormed listening () _ h).resolve_left ?_⟩
  rintro ⟨s, event, hrefused⟩
  simp [listening] at hrefused

end KeyLayout.Document
