import KeyLayout.Proofs.Document.Delivery
import KeyLayout.Proofs.Markup.LastBytes
import KeyLayout.Proofs.Markup.ReadBack

/-! Every document in which a tree is written tells the events of that tree,
whatever way it is written. -/
namespace KeyLayout.Markup
open Utf8

def BeginsText : List Event → Prop
  | .text _ _ :: _ => True
  | _ => False

@[simp] theorem mergeText_start (name : String) (a : Attributes) (path : List String)
    (events : List Event) :
    mergeText (.start name a path :: events) = .start name a path :: mergeText events := rfl

@[simp] theorem mergeText_stop (name : String) (path : List String) (events : List Event) :
    mergeText (.stop name path :: events) = .stop name path :: mergeText events := rfl

theorem mergeText_text {t : String} {path : List String} {more : List Event}
    (h : ¬BeginsText (mergeText more)) :
    mergeText (.text t path :: more) = .text t path :: mergeText more := by
  rw [mergeText]
  split
  next hbegins =>
    rw [hbegins] at h
    exact absurd trivial h
  next => rfl

theorem beginsText_mergeText {events : List Event} :
    BeginsText (mergeText events) ↔ BeginsText events := by
  cases events with
  | nil => rfl
  | cons event more =>
    cases event with
    | start name a path => exact Iff.rfl
    | stop name path => exact Iff.rfl
    | text t path =>
      rw [mergeText]
      split <;> exact Iff.rfl

/-- Texts one behind the other are joined. -/
theorem mergeText_textEvents {path : List String} {texts : List String} {more : List Event}
    (hne : texts ≠ []) (hmore : ¬BeginsText more) :
    mergeText (textEvents path texts ++ more) =
      .text (String.ofList (texts.flatMap String.toList)) path :: mergeText more := by
  induction texts with
  | nil => exact absurd rfl hne
  | cons t texts ih =>
    by_cases hlast : texts = []
    · subst hlast
      simpa [textEvents] using mergeText_text (t := t) (mt beginsText_mergeText.1 hmore)
    · have hjoined : t ++ String.ofList (texts.flatMap String.toList) =
          String.ofList ((t :: texts).flatMap String.toList) := by
        apply String.toList_inj.1
        simp
      rw [← hjoined]
      change mergeText (.text t path :: (textEvents path texts ++ more)) = _
      rw [mergeText, ih hlast]

theorem Nesting.eq_of_rootSeen {n : Nesting} (h : n.rootSeen = true) :
    { path := n.path, rootSeen := true } = n := by
  obtain ⟨path, rootSeen⟩ := n
  exact congrArg (Nesting.mk path) h.symm

section content
variable {c : Content} {written : List Char} {rest : Bytes} {n : Nesting}

theorem stops_content (h : ContentOf c written) (hc : ¬c.IsText) (hr : Stops isNotOpening rest) :
    Stops isNotOpening (encodeChars written ++ rest) := by
  cases h with
  | nil => exact hr
  | aside hm _ =>
    rw [encodeChars_append, List.append_assoc]
    exact stops_aside hm _
  | text => exact absurd trivial hc
  | element htag _ _ _ =>
    rw [encodeChars_append, List.append_assoc]
    exact stops_startTag htag _
  | empty htag _ =>
    rw [encodeChars_append, List.append_assoc]
    exact stops_startTag htag _

theorem not_beginsText_events (hc : ¬c.IsText) (path : List String) {more : List Event}
    (hmore : ¬BeginsText more) :
    ¬BeginsText (c.events path ++ more) := by
  cases c with
  | nil => exact hmore
  | text t beside => exact absurd trivial hc
  | element name a below beside => exact id

/-- Content is read back inside open elements. -/
theorem readsAt_content (h : ContentOf c written) (hp : c.Proper) (hpath : n.path ≠ [])
    (hroot : n.rootSeen = true) (hr : Stops isNotOpening rest) :
    ∃ events, ReadsAt n (encodeChars written) rest events n ∧
      ∀ more, ¬BeginsText more →
        mergeText (events ++ more) = c.events n.path ++ mergeText more := by
  induction h generalizing n rest with
  | nil => exact ⟨[], readsAt_nil n rest, fun more _ => rfl⟩
  | @aside c m written hm _ ih =>
    obtain ⟨events, hreads, hmerge⟩ := ih hp hpath hroot hr
    refine ⟨events, ?_, hmerge⟩
    rw [encodeChars_append]
    exact (readsAt_aside hm n _).append hreads
  | @text t beside first more ht hbeside ih =>
    obtain ⟨hne, hnext, hproper⟩ := hp
    obtain ⟨events, hreads, hmerge⟩ := ih hproper hpath hroot hr
    obtain ⟨texts, htexts, hfirst⟩ := readsAt_text ht hpath (stops_content hbeside hnext hr)
    refine ⟨textEvents n.path texts ++ events, ?_, fun rest hrest => ?_⟩
    · rw [encodeChars_append]
      exact hfirst.append hreads
    · have htne : texts ≠ [] := by
        rintro rfl
        exact hne (String.toList_inj.1 htexts.symm)
      have hbegins : ¬BeginsText (events ++ rest) := by
        rw [← beginsText_mergeText, hmerge rest hrest]
        exact not_beginsText_events hnext n.path (mt beginsText_mergeText.1 hrest)
      rw [List.append_assoc, mergeText_textEvents htne hbegins, hmerge rest hrest, htexts,
        String.ofList_toList]
      rfl
  | @element name a below beside tag inner close more htag hbelow hclose hbeside ihbelow ihbeside =>
    obtain ⟨hproper, hpbelow, hpbeside⟩ := hp
    obtain ⟨later, hlater, hmergeLater⟩ := ihbeside hpbeside hpath hroot hr
    obtain ⟨events, hreads, hmerge⟩ :=
      ihbelow (n := { path := name :: n.path, rootSeen := true }) hpbelow (by simp) rfl
      (stops_endTag hclose (encodeChars more ++ rest))
    have hend := readsAt_endTag hclose hproper.name n.path true (encodeChars more ++ rest)
    have hn := Nesting.eq_of_rootSeen hroot
    rw [hn] at hend
    have hstart := readsAt_startTag (n := n) htag hproper (fun hnil => absurd hnil hpath)
      (encodeChars inner ++ (encodeChars close ++ (encodeChars more ++ rest)))
    refine ⟨.start name a n.path :: (events ++ .stop name n.path :: later), ?_,
      fun rest hrest => ?_⟩
    · simpa [encodeChars_append] using ((hstart.append hreads).append hend).append hlater
    · have hinner := hmerge (.stop name n.path :: (later ++ rest)) id
      rw [mergeText_stop, hmergeLater rest hrest] at hinner
      simp [hinner, Content.events]
  | @empty name a beside tag more htag hbeside ih =>
    obtain ⟨hproper, -, hpbeside⟩ := hp
    obtain ⟨later, hlater, hmergeLater⟩ := ih hpbeside hpath hroot hr
    have hn := Nesting.eq_of_rootSeen hroot
    have hstart :=
      readsAt_startTag (n := n) htag hproper (fun hnil => absurd hnil hpath)
        (encodeChars more ++ rest)
    simp only [if_true, hn] at hstart
    refine ⟨.start name a n.path :: .stop name n.path :: later, ?_, fun rest hrest => ?_⟩
    · simpa [encodeChars_append] using hstart.append hlater
    · simp [hmergeLater rest hrest, Content.events]

end content

section outside
variable {written : List Char} {rest : Bytes} {n : Nesting}

theorem not_mem_blank {w : List Char} (hw : ∀ c ∈ w, Text.isBlank c = true) : '<' ∉ w := fun hmem =>
  absurd (hw '<' hmem) (by decide)

theorem interpret_blank {w : List Char} (hw : ∀ c ∈ w, Text.isBlank c = true) (hpath : n.path = [])
    (offset : Nat) : n.interpret offset (.text (encodeChars w)) = .ok ([], n) := by
  have hblank : Text.isBlankText (String.ofList w) = true := by simpa [Text.isBlankText] using hw
  exact (Nesting.Means.blank hpath (decodeText_encodeChars offset w) hblank).interpret

theorem readsAt_blank {w : List Char} (hw : ∀ c ∈ w, Text.isBlank c = true) (hpath : n.path = [])
    (hr : Stops isNotOpening rest) : ReadsAt n (encodeChars w) rest [] n := by
  by_cases hne : w = []
  · subst hne
    exact readsAt_nil n rest
  · exact readsAt_token
      (scan_text (encodeChars_ne_nil hne) (forall_isNotOpening (not_mem_blank hw)) hr)
      (interpret_blank hw hpath)

/-- What stands before the root tells nothing. -/
theorem readsAt_outside (h : Outside written) (hpath : n.path = []) (hr : Stops isNotOpening rest) :
    ReadsAt n (encodeChars written) rest [] n := by
  induction h with
  | blank hw => exact readsAt_blank hw hpath hr
  | @aside w m more hw hm _ ih =>
    have hblank := readsAt_blank hw hpath (stops_aside hm (encodeChars more ++ rest))
    simpa [encodeChars_append] using (hblank.append (readsAt_aside hm n _)).append ih

/-- What stands behind the root tells nothing, and the document can end with it. -/
theorem finish_outside (h : Outside written) (hpath : n.path = []) (hroot : n.rootSeen = true)
    (offset : Nat) :
    ∃ last, ({ pending := encodeChars written, offset, nesting := n } : Reader).drain.andThen
      Reader.finish =
      ⟨[], .ok last⟩ := by
  induction h generalizing offset with
  | @blank w hw =>
    have hdrain : ({ pending := encodeChars w, offset, nesting := n } : Reader).drain =
        ⟨[], .ok { pending := encodeChars w, offset, nesting := n }⟩ := by
      by_cases hne : w = []
      · subst hne
        exact Reader.drain_cutOff scan_nil
      · exact Reader.drain_cutOff
          (scan_text_cutOff (encodeChars_ne_nil hne) (forall_isNotOpening (not_mem_blank hw)))
    have hlast :
        ∃ offset', ({ pending := encodeChars w, offset, nesting := n } : Reader).drainLast =
        ⟨[], .ok { pending := [], offset := offset', nesting := n }⟩ := by
      by_cases hne : w = []
      · subst hne
        exact ⟨offset, Reader.drainAs_nil rfl⟩
      · have hopening := forall_isNotOpening_iff.1 (forall_isNotOpening (not_mem_blank hw))
        refine ⟨offset + (encodeChars w).length, ?_⟩
        rw [Reader.drainLast_text (encodeChars_ne_nil hne) (by exact hopening)]
        simp only [interpret_blank hw hpath, Reader.behind, List.length_nil, Nat.sub_zero]
    obtain ⟨offset', hlast⟩ := hlast
    refine ⟨{ pending := [], offset := offset', nesting := n }, ?_⟩
    simp [hdrain, Reader.finish, hlast, hpath, hroot]
  | @aside w m more hw hm _ ih =>
    have hblank := readsAt_blank hw hpath (stops_aside hm (encodeChars more))
    have hfront := hblank.append (readsAt_aside hm n _)
    obtain ⟨last, hlast⟩ := ih (offset + (encodeChars w ++ encodeChars m).length)
    refine ⟨last, ?_⟩
    rw [encodeChars_append, encodeChars_append, ← List.append_assoc, hfront offset,
      Batch.andThen_assoc, Batch.ok_andThen, hlast]
    rfl

end outside

/-- A document in which a tree is written is read to its end, and tells the events of the tree. -/
theorem read_document {tree : Tree} (hp : tree.Proper) {written : List Char}
    (h : DocumentOf tree written) :
    ∃ events last,
      (({} : Reader).feed (encodeChars written)).andThen Reader.finish = ⟨events, .ok last⟩ ∧
      mergeText events = tree.events := by
  have hstart {front : List Char} {after : List Char} {events : List Event} {n : Nesting}
      (hpath : n.path = []) (hroot : n.rootSeen = true)
      (hreads : ReadsAt {} (encodeChars front) (encodeChars after) events n)
      (hafter : Outside after) :
      ∃ last,
        (({} : Reader).feed (encodeChars (front ++ after))).andThen Reader.finish =
          ⟨events, .ok last⟩ := by
    obtain ⟨last, hlast⟩ := finish_outside hafter hpath hroot (0 + (encodeChars front).length)
    refine ⟨last, ?_⟩
    rw [Reader.feed, encodeChars_append, List.nil_append, hreads 0, Batch.andThen_assoc,
      Batch.ok_andThen, hlast, List.append_nil]
  cases h with
  | @element before tag inner close after hbefore htag hcontent hclose hafter =>
    have hopen := readsAt_outside (n := {}) hbefore rfl
      (stops_startTag htag (encodeChars inner ++ (encodeChars close ++ encodeChars after)))
    have htagged := readsAt_startTag (n := {}) htag hp.element (fun _ => rfl)
      (encodeChars inner ++ (encodeChars close ++ encodeChars after))
    obtain ⟨events, hreads, hmerge⟩ :=
      readsAt_content (n := { path := [tree.name], rootSeen := true })
      hcontent hp.content (by simp) rfl (stops_endTag hclose (encodeChars after))
    have hend := readsAt_endTag hclose hp.element.name [] true (encodeChars after)
    have hall := ((hopen.append htagged).append hreads).append hend
    simp only [← encodeChars_append] at hall
    obtain ⟨last, hlast⟩ := hstart rfl rfl hall hafter
    refine ⟨_, last, by simpa only [List.append_assoc] using hlast, ?_⟩
    have hinner := hmerge [.stop tree.name []] id
    simp [hinner, Tree.events_eq, mergeText]
  | @empty before tag after hbefore hnil htag hafter =>
    have hopen := readsAt_outside (n := {}) hbefore rfl (stops_startTag htag (encodeChars after))
    have hall :=
      hopen.append (readsAt_startTag (n := {}) htag hp.element (fun _ => rfl) (encodeChars after))
    simp only [← encodeChars_append] at hall
    obtain ⟨last, hlast⟩ := hstart rfl rfl hall hafter
    refine ⟨_, last, by simpa only [List.append_assoc] using hlast, ?_⟩
    simp [mergeText, Tree.events_eq, hnil, Content.events]

end KeyLayout.Markup

namespace KeyLayout.Document
open Markup

/-- Whatever way a tree of proper elements is written, and however the text is cut, reading goes
well as far as the reader is concerned: every consumer is told the same events, which are those of
the tree once texts side by side are joined, and one that refuses nothing comes to the end of the
document without an error. -/
theorem document_read_back {tree : Tree} (hp : tree.Proper) {text : String}
    (h : DocumentOf tree text.toList) :
    ∃ events, mergeText events = tree.events ∧
      ∀ (σ : Type) (consume : Consumer σ) (state : σ)
      (pieces : List Bytes), pieces.flatten = Utf8.encode text →
        Session.readPieces consume { state } pieces = deliver consume state events ∧
        ((∀ s event, (consume s event).2 = none) → Session.readPieces consume { state } pieces =
          (events.foldl (fun s event => (consume s event).1) state, none)) := by
  obtain ⟨events, last, hread, hmerge⟩ := read_document hp h
  refine ⟨events, hmerge, fun σ consume state pieces hpieces => ?_⟩
  have hbytes : pieces.flatten = Utf8.encodeChars text.toList := hpieces
  have hdeliver : Session.readPieces consume { state } pieces = deliver consume state events := by
    rw [Session.readPieces_eq_hear, Reader.waits_start.readPieces_flatten, hbytes, hread,
      telling, hear]
    cases deliver consume state events with
    | mk s refusal => cases refusal <;> rfl
  exact ⟨hdeliver, fun haccepts => hdeliver.trans (deliver_of_accepting haccepts state events)⟩

def notes : Tree where
  name := "a"
  attributes := ⟨[("x", "1<"), ("y", "")]⟩
  content := .text "t&<" (.element "b" {} .nil .nil)

theorem notes_proper : notes.Proper where
  element := by
    refine ⟨?_, ?_, by decide⟩
    · simp [IsName, IsNameChar, notes]
    · simp [IsName, IsNameChar, notes]
  content := by
    refine ⟨by decide, id, ⟨?_, ?_, by decide⟩, trivial, trivial⟩
    · simp [IsName, IsNameChar]
    · simp

/-- Both kinds of quotes and of references, verbatim text, something of all that is passed over, and
blanks in the tags. -/
def notesText : String :=
  "<?xml?>\n<!DOCTYPE a><a x='1&#x3c;' y = \"\">t&amp;<![CDATA[<]]><!--c--><b /></a >\n"

theorem notes_written : DocumentOf notes notesText.toList := by
  have hnone : IsSpace [] := by simp [IsSpace]
  have hblank : IsSpace [' '] := by simp [IsSpace]
  have hnewline : ∀ c ∈ ['\n'], Text.isBlank c = true := List.forall_mem_singleton.2 (by decide)
  have hbefore :=
    Outside.aside (w := []) (by simp) (Aside.instruction (t := ['x', 'm', 'l']) (by decide))
    (Outside.aside hnewline (Aside.typeDeclaration (t := [' ', 'a']) (by decide))
      (.blank (w := []) (by simp)))
  have hless : Reference '<' ['#', 'x', '3', 'c'] :=
    .hexadecimal (.inl rfl)
      (.more (.one (d := 3) ⟨by decide, .inl rfl⟩) (d := 12) ⟨by decide, .inl rfl⟩)
  have hx : Escaped '\'' "1<".toList ('1' :: '&' :: (['#', 'x', '3', 'c'] ++ [';'])) :=
    .plain (by decide) (by decide) (.reference hless .nil)
  have hattributes : AttributesText notes.attributes.entries _ :=
    .cons hblank (by simp) hnone hnone (.inr rfl) hx
      (.cons hblank (by simp) hblank hblank (.inl rfl) .nil .nil)
  have htag : StartTag notes.name notes.attributes false _ := .mk hattributes hnone
  have htext : TextOf "t&<".toList _ :=
    .verbatim (t := ['t', '&']) (v := ['<'])
      (.plain (by decide) (by decide) (.reference .amp .nil)) (by decide)
      (.aside .nil (Aside.comment (t := ['c']) (by decide)) (.escaped .nil))
  have hcontent : ContentOf notes.content _ := .text htext (.empty (.mk .nil hblank) .nil)
  have hclose : EndTag notes.name _ := .mk hblank
  have hafter : Outside ['\n'] := .blank hnewline
  have hdocument := DocumentOf.element hbefore htag hcontent hclose hafter
  refine Eq.mp (congrArg (DocumentOf notes) ?_) hdocument
  decide +kernel

theorem notes_read_back :
    ∃ events, mergeText events = notes.events ∧
      Session.readPieces (fun seen event => (seen ++ [event], none)) { state := [] }
      [Utf8.encode notesText] =
        (events, none) := by
  obtain ⟨events, hmerge, hread⟩ := document_read_back notes_proper notes_written
  have haccepts :=
    (hread (List Event) (fun seen event => (seen ++ [event], none)) [] [Utf8.encode notesText]
    (by simp)).2 fun _ _ => rfl
  exact ⟨events, hmerge, by simpa [← List.flatMap_def] using haccepts⟩

end KeyLayout.Document
