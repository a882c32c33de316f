import KeyLayout.Document.Catalog
import KeyLayout.Proofs.Document.Splitting
import KeyLayout.Proofs.Markup.Interruptions

/-! Where texts are cut makes no difference to what a document says, nor does
what text is interrupted by. -/
namespace KeyLayout.Document
open Markup Utf8

theorem CatalogDraft.joinsText : (Consumer.ofExcept CatalogDraft.step).JoinsText where
  empty := fun _ _ => rfl
  append := fun _ _ _ _ => rfl

theorem GeometryDraft.joinsText : Consumer.JoinsText GeometryDraft.step where
  empty := fun d path => by simp [GeometryDraft.step, GeometryDraft.addText]
  append := fun d front back path => by
    simp only [deliver, GeometryDraft.step, GeometryDraft.addText]
    split <;> simp [Function.comp_def, String.append_assoc]

theorem IncludesDraft.joinsText : (Consumer.ofExcept IncludesDraft.step).JoinsText where
  empty := fun d path => by simp [Consumer.ofExcept, IncludesDraft.step]
  append := fun d front back path => by
    simp [deliver, Consumer.ofExcept, IncludesDraft.step, Function.comp_def, String.append_assoc]

/-- From any state, the consumer of each kind of document comes to the same state and
error with either events. -/
structure HeardAlike (events events' : List Event) : Prop where
  catalog : ∀ known, deliver (.ofExcept CatalogDraft.step) known events =
    deliver (.ofExcept CatalogDraft.step) known events'
  geometry : ∀ d, deliver GeometryDraft.step d events = deliver GeometryDraft.step d events'
  symbols : ∀ d,
    deliver (.ofExcept SymbolsDraft.step) d events = deliver (.ofExcept SymbolsDraft.step) d events'
  includes : ∀ d, deliver (.ofExcept IncludesDraft.step) d events =
    deliver (.ofExcept IncludesDraft.step) d events'

structure ReadAlike (source other : Source) : Prop where
  catalog : readCatalog source = readCatalog other
  geometry : readGeometry source = readGeometry other
  symbols : ∀ g, bindSymbols g source = bindSymbols g other
  includes : readIncludes source = readIncludes other

variable {σ : Type} {source other : Source} {events events' : List Event}

theorem heardAlike (h : Recut events events') : HeardAlike events events' :=
  ⟨CatalogDraft.joinsText.deliver_eq h, GeometryDraft.joinsText.deliver_eq h,
    SymbolsDraft.joinsText.deliver_eq h,
    IncludesDraft.joinsText.deliver_eq h⟩

theorem consume_congr {consumer : Consumer σ} {s : σ}
    (h : deliver consumer s source.events = deliver consumer s other.events)
    (herror : (readSource {} source).2 = (readSource {} other).2) :
    consume consumer s source = consume consumer s other := by
  simp only [Source.events] at h
  simp only [consume, Session.read_eq_hear, hear, h, herror]

theorem HeardAlike.readAlike (h : HeardAlike source.events other.events)
    (herror : (readSource {} source).2 = (readSource {} other).2) : ReadAlike source other := by
  refine ⟨?_, ?_, fun g => ?_, ?_⟩
  · rw [readCatalog, readCatalog, consume_congr (h.catalog {}) herror]
  · rw [readGeometry, readGeometry, consume_congr (h.geometry {}) herror]
  · rw [bindSymbols, bindSymbols, consume_congr (h.symbols { geometry := g }) herror]
  · rw [readIncludes, readIncludes, consume_congr (h.includes {}) herror]

theorem telling_eq_none {b : Batch} :
    telling b = (events, none) ↔ ∃ last, b = ⟨events, .ok last⟩ := by
  obtain ⟨told, outcome⟩ := b
  cases outcome <;> simp [telling]

/-- A source is read to its end if its bytes are, and tells what they tell. -/
theorem readSource_eq_none : readSource {} source = (events, none) ↔
    source.pieces.2 = none ∧ Accepts {} source.pieces.1.flatten events := by
  have htold : source.pieces.2 = none →
      readSource {} source = telling ({ pending := source.pieces.1.flatten } : Reader).close := by
    intro hend
    rw [readSource_of_pieces hend, Reader.waits_start.readPieces_flatten]
    rfl
  constructor
  · intro h
    have hend := pieces_of_readSource (congrArg Prod.snd h)
    obtain ⟨last, hlast⟩ := telling_eq_none.1 ((htold hend).symm.trans h)
    exact ⟨hend, accepts_of_close hlast⟩
  · rintro ⟨hend, haccepts⟩
    exact (htold hend).trans (telling_eq_none.2 (haccepts 0))

/-- Texts one behind the other are one text that is cut. -/
theorem recut_textEvents (before after : List Event) (path : List String) (texts : List String) :
    Recut (before ++ (textEvents path texts ++ after))
      (before ++ .text (String.ofList (texts.flatMap String.toList)) path :: after) := by
  induction texts generalizing before with
  | nil => exact .rel _ _ (.empty before path after)
  | cons t texts ih =>
    have hmore := ih (before ++ [.text t path])
    have hjoin : Recut _ _ :=
      .rel _ _ (.split before t (String.ofList (texts.flatMap String.toList)) path after)
    have hfirst : String.ofList ((t :: texts).flatMap String.toList) =
        t ++ String.ofList (texts.flatMap String.toList) := by
      rw [← String.toList_inj]
      simp
    rw [hfirst]
    simp only [List.append_assoc, List.singleton_append] at hmore
    exact .trans _ _ _ hmore (.symm _ _ hjoin)

theorem recut_of_flatMap {path : List String} {whole parts : List String}
    (h : whole.flatMap String.toList = parts.flatMap String.toList) (before after : List Event) :
    Recut (before ++ (textEvents path whole ++ after))
      (before ++ (textEvents path parts ++ after)) := by
  have hwhole := recut_textEvents before after path whole
  rw [h] at hwhole
  exact .trans _ _ _ hwhole (.symm _ _ (recut_textEvents before after path parts))

theorem accepts_of_interruptions {document altered : Bytes}
    (h : Relation.ReflTransGen Interrupts document altered)
    (hdocument : Accepts {} document events) :
    ∃ events', Accepts {} altered events' ∧ Recut events events' := by
  induction h with
  | refl => exact ⟨events, hdocument, .refl _⟩
  | tail _ hlast ih =>
    obtain ⟨mid, hmid, hcut⟩ := ih
    obtain ⟨first, path, whole, parts, last, rfl, hflat, haltered⟩ := accepts_interrupted hlast hmid
    exact ⟨_, haltered, .trans _ _ _ hcut (recut_of_flatMap hflat first last)⟩

/-- Where texts are cut makes no difference, to no consumer and to no document. So a document that
is read to its end may be interrupted in its content, by what is passed over or by sections of
verbatim text, as often as one likes: it is read to its end as before, and says the same. -/
theorem text_cuts_invisible :
    (∀ events events', Recut events events' → HeardAlike events events') ∧
    (∀ source other, Recut source.events other.events →
      (readSource {} source).2 = (readSource {} other).2 →
      ReadAlike source other) ∧
    ∀ source altered, (readSource {} source).2 = none → altered.pieces.2 = none →
      Relation.ReflTransGen Interrupts source.pieces.1.flatten altered.pieces.1.flatten →
      (readSource {} altered).2 = none ∧ Recut source.events altered.events ∧
        ReadAlike source altered := by
  refine ⟨fun events events' => heardAlike,
    fun source other hcut => (heardAlike hcut).readAlike, ?_⟩
  intro source altered hsource haltered hcuts
  obtain ⟨-, haccepts⟩ := readSource_eq_none.1 (Prod.ext rfl hsource)
  obtain ⟨events', hevents, hcut⟩ := accepts_of_interruptions hcuts haccepts
  have hread := readSource_eq_none.2 ⟨haltered, hevents⟩
  have hevents' : altered.events = events' := congrArg Prod.fst hread
  rw [← hevents'] at hcut
  have hnone : (readSource {} altered).2 = none := congrArg Prod.snd hread
  exact ⟨hnone, hcut, (heardAlike hcut).readAlike (hsource.trans hnone.symm)⟩

def includeOf (name : String) : Bytes :=
  ascii ("<symbols><include>" ++ name ++ "</include></symbols>")

/-- A name that is cut by a comment, with some of it in a section of verbatim text. -/
theorem cutName_read_alike :
    readIncludes (.ofBytes (includeOf "us")) = .ok ["us"] ∧
      readIncludes (.ofBytes (includeOf "u<!-- < --><![CDATA[s]]>")) = .ok ["us"] := by
  have hname : EndsInContent (ascii "<symbols><include>u") :=
    ⟨⟨ascii "u", 18, ⟨["include", "symbols"], true⟩⟩, ['u'], ['u'], by decide +kernel, by decide,
      by decide, by decide,
      by decide +kernel⟩
  have hcomment : EndsInContent (ascii "<symbols><include>u<!-- < -->") :=
    ⟨⟨[], 29, ⟨["include", "symbols"], true⟩⟩, [], [], by decide +kernel, by decide,
      by decide, by decide,
      by decide +kernel⟩
  have hfirst : Interrupts (includeOf "us") (includeOf "u<!-- < -->s") :=
    @Interrupts.aside _ (ascii "<!-- < -->") (ascii "s</include></symbols>") comment hname
      List.mem_cons_self
      ⟨ascii " < ", by decide, by decide⟩
  have hsecond : Interrupts (includeOf "u<!-- < -->s") (includeOf "u<!-- < --><![CDATA[s]]>") :=
    @Interrupts.verbatim _ (ascii "</include></symbols>") ['s'] hcomment (by decide) (by decide)
  have hread : readIncludes (.ofBytes (includeOf "us")) = .ok ["us"] := by decide +kernel
  obtain ⟨-, -, halike⟩ := text_cuts_invisible.2.2 (.ofBytes (includeOf "us"))
    (.ofBytes (includeOf "u<!-- < --><![CDATA[s]]>")) (by decide +kernel) (by decide)
      (.tail (.single hfirst) hsecond)
  exact ⟨hread, halike.includes ▸ hread⟩

end KeyLayout.Document
