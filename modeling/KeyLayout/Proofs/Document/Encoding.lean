import KeyLayout.Proofs.Document.Delivery
import KeyLayout.Proofs.Markup.LastBytes

/-! Documents with bytes that are no text. Such a document is accepted only if these bytes stand in
what is passed over. -/
namespace KeyLayout.Markup
open Utf8

section asides
variable {input aside : Bytes}

theorem encloses_of_mem_lexemes {l : Lexeme} (hl : l ∈ lexemes input)
    (hskipped : l.token = .skipped) :
    ∃ e ∈ asideKinds, e.Encloses l.bytes := by
  induction hn : input.length using Nat.strongRecOn generalizing input with
  | _ n ih =>
    subst hn
    cases hs : scan input with
    | cutOff => simp [lexemes_cutOff hs] at hl
    | malformed tag => simp [lexemes_malformed hs] at hl
    | token token rest =>
      have hlength := length_lt_of_scan hs
      obtain ⟨lexeme, rfl⟩ := exists_lexeme hs
      rw [lexemes_token hs] at hl
      rcases List.mem_cons.1 hl with rfl | hl
      · rcases token_cases hs with hlies | ⟨-, e, he, front, hfront, henclosed⟩
        · exact absurd hskipped hlies.ne_skipped
        · obtain rfl : lexeme = front := List.append_cancel_right hfront
          exact ⟨e, he, henclosed⟩
      · exact ih rest.length hlength hl rfl

theorem mem_asides :
    aside ∈ asides input ↔ ∃ l ∈ lexemes input, l.token = .skipped ∧ l.bytes = aside := by
  simp [asides, and_assoc]

/-- An aside begins and ends with ASCII, so that it is text if there is
text all around and in it. -/
theorem isText_of_encloses {e : Enclosure} (he : e ∈ asideKinds) (h : e.Encloses aside)
    {before behind : Bytes} (ht : IsText (before ++ (aside ++ behind))) : IsText aside := by
  have hends :
      ∀ e ∈ asideKinds, e.opening.head? = some 0x3C ∧ e.closing.getLast? = some 0x3E := by decide
  obtain ⟨content, rfl, -⟩ := h
  obtain ⟨opening, hopening⟩ := List.head?_eq_some_iff.1 (hends e he).1
  obtain ⟨closing, hclosing⟩ := List.getLast?_eq_some_iff.1 (hends e he).2
  rw [hopening, hclosing] at ht ⊢
  have hbehind : IsText ((opening ++ (content ++ closing)) ++ 0x3E :: behind) := by
    simpa using (ht.split (b := 0x3C) (by decide)).2
  have hinner : IsText (opening ++ (content ++ closing)) := (hbehind.split (by decide)).1
  simpa using ((isText_ascii (b := 0x3C) (by decide)).append hinner).append
    (isText_ascii (b := 0x3E) (by decide))

end asides

namespace Reader
variable {r last : Reader}

theorem isText_of_finish (hw : r.Waits) (h : r.finish.outcome = .ok last) : IsText r.pending := by
  have hfinish : r.finish = ⟨r.finish.events, .ok last⟩ := by rw [← h]
  obtain ⟨hread, -⟩ := finish_eq_ok.1 hfinish
  rcases cutOff_cases hw with hp | ⟨hne, ht⟩ | ⟨rest, hp⟩
  · exact hp ▸ isText_nil
  · rw [drainLast_text hne ht] at hread
    cases hi : r.nesting.interpret r.offset (.text r.pending) with
    | error failure => simp [hi] at hread
    | ok told => exact Nesting.isText_of_interpret hi r.pending (by simp [Token.parts])
  · simp [hw.drainLast_markup hp] at hread

/-- The bytes of a document that is accepted are text if, and only if, its asides are. -/
theorem isText_of_readPieces {pieces : List Bytes}
    (h : (({} : Reader).readPieces pieces).outcome = .ok last) :
    IsText pieces.flatten ↔ ∀ aside ∈ asides pieces.flatten, IsText aside := by
  rw [waits_start.readPieces_flatten] at h
  cases ho : (({} : Reader).feed pieces.flatten).outcome with
  | error failure => simp [Batch.andThen, ho] at h
  | ok mid =>
    have hfinish : mid.finish.outcome = .ok last := by simpa [Batch.andThen, ho] using h
    obtain ⟨htiles, htext⟩ := lexemes_of_drain ho
    simp only [List.nil_append] at htiles htext
    constructor
    · intro hall aside haside
      obtain ⟨l, hl, hskipped, rfl⟩ := mem_asides.1 haside
      obtain ⟨e, he, hencloses⟩ := encloses_of_mem_lexemes hl hskipped
      obtain ⟨before, behind, hsplit⟩ := List.append_of_mem hl
      rw [htiles, hsplit, List.flatMap_append, List.flatMap_cons, List.append_assoc,
        List.append_assoc] at hall
      exact isText_of_encloses he hencloses hall
    · intro hasides
      have hlexemes : ∀ l ∈ lexemes pieces.flatten, IsText l.bytes := by
        intro l hl
        by_cases hskipped : l.token = .skipped
        · exact hasides l.bytes (mem_asides.2 ⟨l, hl, hskipped, rfl⟩)
        · exact htext l hl hskipped
      rw [htiles]
      exact (IsText.flatMap hlexemes).append (isText_of_finish (waits_of_drain ho) hfinish)

end Reader
end KeyLayout.Markup

namespace KeyLayout.Document
open Markup Utf8

variable {σ : Type}

def Consumer.TakesAll (consumer : Consumer σ) : Prop := ∀ s event, (consumer s event).2 = none

/-- A document that is accepted is text but for bytes of its asides. If only other bytes are no text
it is refused, with an error of the markup unless the consumer refuses an event. -/
structure Decoded (consumer : Consumer σ) (document : Bytes) (error : Option Error) : Prop where
  accepted : error = none → (IsText document ↔ ∀ aside ∈ asides document, IsText aside)
  refused : (∀ aside ∈ asides document, IsText aside) → ¬IsText document →
    error ≠ none ∧ (consumer.TakesAll → ∃ failure, error = some (.markup failure))

theorem decoded_readPieces (consumer : Consumer σ) (state : σ) (pieces : List Bytes) :
    Decoded consumer pieces.flatten (Session.readPieces consumer { state } pieces).2 := by
  have htold : (Session.readPieces consumer { state } pieces).2 =
      ((deliver consumer state (({} : Reader).readPieces pieces).events).2).or
        (telling (({} : Reader).readPieces pieces)).2 := by
    rw [Session.readPieces_eq_hear, hear_snd, telling]
  have haccepted : (Session.readPieces consumer { state } pieces).2 = none →
      (IsText pieces.flatten ↔ ∀ aside ∈ asides pieces.flatten, IsText aside) := by
    intro hnone
    rw [htold, Option.or_eq_none_iff] at hnone
    cases ho : (({} : Reader).readPieces pieces).outcome with
    | error failure => simp [telling, ho] at hnone
    | ok last => exact Reader.isText_of_readPieces ho
  refine ⟨haccepted, fun hasides hdocument => ?_⟩
  have herror : (Session.readPieces consumer { state } pieces).2 ≠ none := fun hnone =>
    hdocument ((haccepted hnone).2 hasides)
  refine ⟨herror, fun hall => ?_⟩
  rw [htold, deliver_of_accepting hall, Option.none_or] at herror ⊢
  cases ho : (({} : Reader).readPieces pieces).outcome with
  | error failure => exact ⟨failure, by simp [telling, ho]⟩
  | ok last => simp [telling, ho] at herror

/-- The bytes of a document that is accepted are text but for what it holds in comments, processing
instructions and document type declarations: whatever takes its events, whether it is fed in pieces
or read from a source. Bytes that are no text and stand anywhere else make the reading fail. -/
theorem text_but_asides (consumer : Consumer σ) (state : σ) :
    (∀ pieces, Decoded consumer pieces.flatten (Session.readPieces consumer { state } pieces).2) ∧
    (∀ source, source.pieces.2 = none →
      Decoded consumer source.pieces.1.flatten (consume consumer state source).2) ∧
    (∀ source, (consume consumer state source).2 = none → source.pieces.2 = none) ∧
    (∀ document, ∀ aside ∈ asides document, ∃ e ∈ asideKinds, e.Encloses aside) := by
  refine ⟨decoded_readPieces consumer state, fun source hsource => ?_, fun source hnone => ?_, ?_⟩
  · rw [consume_of_pieces hsource]
    exact decoded_readPieces consumer state source.pieces.1
  · rw [consume_eq, Option.or_eq_none_iff] at hnone
    exact pieces_of_readSource hnone.2
  · intro document aside haside
    obtain ⟨l, hl, hskipped, rfl⟩ := mem_asides.1 haside
    exact encloses_of_mem_lexemes hl hskipped

def counting : Consumer Nat := fun n _ => (n + 1, none)

/-- A byte that no text has, in a comment and in a section of verbatim text. -/
def strayByte (opening closing : String) : Bytes :=
  ascii "<a>" ++ ascii opening ++ 0xFF :: ascii closing ++ ascii "</a>"

theorem strayByte_accepted :
    Session.readPieces counting { state := 0 } [strayByte "<!--" "-->"] = (2, none) ∧
      ¬IsText (strayByte "<!--" "-->") ∧
      ¬(∀ aside ∈ asides (strayByte "<!--" "-->"), IsText aside) ∧
      ∃ failure, (Session.readPieces counting { state := 0 } [strayByte "<![CDATA[" "]]>"]).2 =
        some (.markup failure) := by
  have hread : Session.readPieces counting { state := 0 } [strayByte "<!--" "-->"] = (2, none) := by
    decide +kernel
  have hcomment : ¬IsText (strayByte "<!--" "-->") := by decide +kernel
  have hverbatim : ¬IsText (strayByte "<![CDATA[" "]]>") := by decide +kernel
  have hasides : ∀ aside ∈ asides (strayByte "<![CDATA[" "]]>"), IsText aside := by decide +kernel
  obtain ⟨hdecoded, -⟩ := text_but_asides counting 0
  refine ⟨hread, hcomment, fun htext => hcomment ?_, ?_⟩
  · simpa using ((hdecoded [strayByte "<!--" "-->"]).accepted (by rw [hread])).2
      (by simpa using htext)
  · have hrefused :=
      (hdecoded [strayByte "<![CDATA[" "]]>"]).refused (by simpa using hasides)
        (by simpa using hverbatim)
    exact hrefused.2 fun _ _ => rfl

end KeyLayout.Document
