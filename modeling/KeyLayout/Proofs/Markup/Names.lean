import KeyLayout.Proofs.Markup.Cuts
import KeyLayout.Proofs.Markup.Meaning
import KeyLayout.Proofs.Markup.Tree
import KeyLayout.Proofs.Text.Validity

/-! The names of elements hold no slash, so a path tells the elements that it is made of. -/
namespace KeyLayout.Markup

section scanners
variable {s : Supply} {input rest : Bytes} {token : Token}

theorem forall_run {p : UInt8 → Bool} {value : Bytes} (h : run s p input = .found value rest) :
    ∀ b ∈ value, p b = true := by
  induction input generalizing value with
  | nil =>
    obtain ⟨-, h⟩ := Supply.atEnd_eq_found.1 h
    obtain rfl : [] = value := (Piece.found.inj h).1
    simp
  | cons b input ih =>
    simp only [run] at h
    split at h
    next hb =>
      obtain ⟨tail, htail, rfl⟩ := Piece.map_eq_found.1 h
      exact List.forall_mem_cons.2 ⟨hb, ih htail⟩
    next =>
      obtain ⟨rfl, -⟩ : [] = value ∧ b :: input = rest := by simpa using h
      simp

theorem forall_run1 {p : UInt8 → Bool} {value : Bytes} (h : run1 s p input = .found value rest) :
    ∀ b ∈ value, p b = true := by
  cases input with
  | nil => simp [run1, Supply.atEnd_eq_found] at h
  | cons b input =>
    simp only [run1] at h
    split at h
    next hb =>
      obtain ⟨tail, htail, rfl⟩ := Piece.map_eq_found.1 h
      exact List.forall_mem_cons.2 ⟨hb, forall_run htail⟩
    next => simp at h

theorem ne_nil_of_run1 {p : UInt8 → Bool} {value : Bytes} (h : run1 s p input = .found value rest) :
    value ≠ [] := by
  cases input with
  | nil => simp [run1, Supply.atEnd_eq_found] at h
  | cons b input =>
    simp only [run1] at h
    split at h
    · obtain ⟨tail, -, rfl⟩ := Piece.map_eq_found.1 h
      exact List.cons_ne_nil b tail
    · simp at h

def Token.Begins (token : Token) (name : Bytes) : Prop :=
  ∃ attributes empty, token = .startTag name attributes empty

theorem not_begins_of_enclosure {e : Enclosure} (he : ∀ raw name, ¬(e.token raw).Begins name)
    (h : e.scan s input = .found token rest) (name : Bytes) : ¬token.Begins name := by
  obtain ⟨_, _, -, h⟩ := Piece.andThen_eq_found.1 h
  obtain ⟨raw, -, rfl⟩ := Piece.map_eq_found.1 (Piece.orBroken_eq_found.1 h)
  exact he raw name

theorem not_begins_of_enclosed (h : enclosed s input = .found token rest) (name : Bytes) :
    ¬token.Begins name := by
  rcases Piece.orElse_eq_found h with h | h
  · rcases Piece.orElse_eq_found h with h | h
    · rcases Piece.orElse_eq_found h with h | h
      · exact not_begins_of_enclosure (fun _ name => by simp [comment, Token.Begins]) h name
      · exact not_begins_of_enclosure (fun _ name => by simp [verbatimSection, Token.Begins]) h name
    · exact not_begins_of_enclosure (fun _ name => by simp [typeDeclaration, Token.Begins]) h name
  · exact not_begins_of_enclosure (fun _ name => by simp [instruction, Token.Begins]) h name

theorem name_of_startTagRest {name : Bytes} (h : startTagRest s name input = .found token rest) :
    token.Begins name := by
  obtain ⟨attributes, _, -, h⟩ := Piece.andThen_eq_found.1 h
  obtain ⟨_, _, -, h⟩ := Piece.andThen_eq_found.1 h
  rcases Piece.orElse_eq_found h with h | h
  · obtain ⟨_, -, rfl⟩ := Piece.map_eq_found.1 h
    exact ⟨_, _, rfl⟩
  · obtain ⟨_, -, rfl⟩ := Piece.map_eq_found.1 h
    exact ⟨_, _, rfl⟩

theorem not_begins_of_endTag (h : endTag s input = .found token rest) (name : Bytes) :
    ¬token.Begins name := by
  obtain ⟨_, _, -, h⟩ := Piece.andThen_eq_found.1 h
  obtain ⟨_, _, -, h⟩ := Piece.andThen_eq_found.1 (Piece.orBroken_eq_found.1 h)
  obtain ⟨_, _, -, h⟩ := Piece.andThen_eq_found.1 h
  obtain ⟨_, -, rfl⟩ := Piece.map_eq_found.1 h
  simp [Token.Begins]

/-- A token is found as one of these. -/
theorem Supply.token_found (h : s.scan input = .token token rest) :
    enclosed s input = .found token rest ∨ endTag s input = .found token rest ∨
      startTag s input = .found token rest ∨ plainText s input = .found token rest := by
  rcases Piece.orElse_eq_found (Piece.toScan_eq_token.1 h) with h | h
  · rcases Piece.orElse_eq_found h with h | h
    · rcases Piece.orElse_eq_found h with h | h
      · exact .inl h
      · exact .inr (.inl h)
    · exact .inr (.inr (.inl h))
  · exact .inr (.inr (.inr h))

/-- The name in a start tag is a run of name bytes. -/
theorem run1_of_scan {name : Bytes} (h : s.scan input = .token token rest)
    (hb : token.Begins name) :
    ∃ front behind, run1 s isNameByte front = .found name behind := by
  rcases Supply.token_found h with h | h | h | h
  · exact absurd hb (not_begins_of_enclosed h name)
  · exact absurd hb (not_begins_of_endTag h name)
  · obtain ⟨found, _, hname, h⟩ := Piece.andThen_eq_found.1 h
    obtain ⟨_, _, -, hrun⟩ := Piece.andThen_eq_found.1 hname
    obtain ⟨_, _, rfl⟩ := hb
    obtain ⟨_, _, hsame⟩ := name_of_startTagRest (Piece.orBroken_eq_found.1 h)
    obtain ⟨rfl, -, -⟩ := Token.startTag.inj hsame
    exact ⟨_, _, hrun⟩
  · obtain ⟨_, -, rfl⟩ := Piece.map_eq_found.1 h
    simp [Token.Begins] at hb

/-- A start tag names its element by name bytes. -/
theorem isNameByte_of_scan {name : Bytes} (h : s.scan input = .token token rest)
    (hb : token.Begins name) :
    ∀ b ∈ name, isNameByte b = true := by
  obtain ⟨_, _, hrun⟩ := run1_of_scan h hb
  exact forall_run1 hrun

end scanners

def Plain (name : String) : Prop := '/' ∉ name.toList

def Event.Plain : Event → Prop
  | .start name _ _ => Markup.Plain name
  | _ => True

theorem plain_of_decodeText {offset : Nat} {raw : Bytes} {name : String}
    (h : decodeText offset raw = .ok name)
    (hraw : ∀ b ∈ raw, isNameByte b = true) : Plain name := by
  intro hslash
  have hbyte : 0x2F ∈ raw := by
    rw [← Utf8.decode_eq_ok.1 (decodeText_eq_ok.1 h)]
    exact List.mem_flatMap.2 ⟨'/', hslash, by decide⟩
  exact absurd (hraw _ hbyte) (by decide)

namespace Nesting
variable {n n' : Nesting} {offset : Nat} {events : List Event}

/-- An element is started by a start tag, whose name is decoded. -/
theorem start_of_interpret {token : Token} (h : n.interpret offset token = .ok (events, n'))
    {name : String} {a : Attributes} {path : List String} (hstart : .start name a path ∈ events) :
    ∃ raw, token.Begins raw ∧ decodeText offset raw = .ok name := by
  cases means_of_interpret h with
  | startTag _ hname _ =>
    obtain ⟨rfl, -, -⟩ : name = _ ∧ a = _ ∧ path = _ := by simpa using hstart
    exact ⟨_, ⟨_, _, rfl⟩, hname⟩
  | emptyTag _ hname _ =>
    obtain ⟨rfl, -, -⟩ : name = _ ∧ a = _ ∧ path = _ := by simpa using hstart
    exact ⟨_, ⟨_, _, rfl⟩, hname⟩
  | endTag _ _ => simp at hstart
  | blank _ _ _ => cases hstart
  | text _ _ _ => simp at hstart
  | verbatim _ _ => simp at hstart
  | skipped => cases hstart

theorem plain_of_interpret {s : Supply} {input rest : Bytes} {token : Token}
    (hs : s.scan input = .token token rest)
    (h : n.interpret offset token = .ok (events, n')) : ∀ event ∈ events, event.Plain := by
  intro event hevent
  cases event with
  | start name a path =>
    obtain ⟨raw, hbegins, hdecoded⟩ := start_of_interpret h hevent
    exact plain_of_decodeText hdecoded (isNameByte_of_scan hs hbegins)
  | stop name path => trivial
  | text text path => trivial

end Nesting

namespace Reader

/-- What holds of the events of every token holds of all events that are told. -/
theorem forall_drainAs {P : Event → Prop} {s : Supply}
    (h : ∀ {input rest token n n' offset events}, s.scan input = .token token rest →
      Nesting.interpret n offset token = .ok (events, n') → ∀ event ∈ events, P event)
      (r : Reader) :
    ∀ event ∈ (r.drainAs s).events, P event := by
  induction r using drainAs_induction s with
  | stays r _ => simp
  | malformed r construct _ => simp
  | refused r token rest failure _ _ => simp
  | token r token rest events nesting hs hi ih =>
    rw [Batch.ok_andThen, List.forall_mem_append]
    exact ⟨h hs hi, ih⟩

theorem events_finish (r : Reader) : r.finish.events = r.drainLast.events := by
  unfold finish
  simp only
  repeat' split
  all_goals rfl

theorem plain_drainAs (s : Supply) (r : Reader) : ∀ event ∈ (r.drainAs s).events, event.Plain :=
  forall_drainAs Nesting.plain_of_interpret r

theorem plain_feed (r : Reader) (bytes : Bytes) : ∀ event ∈ (r.feed bytes).events, event.Plain :=
  plain_drainAs .arriving { r with pending := r.pending ++ bytes }

theorem plain_finish (r : Reader) : ∀ event ∈ r.finish.events, event.Plain := by
  rw [events_finish]
  exact r.plain_drainAs .ended

end Reader

def Content.Plain : Content → Prop
  | nil => True
  | text _ beside => beside.Plain
  | element name _ below beside => Markup.Plain name ∧ below.Plain ∧ beside.Plain

theorem Content.plain_of_events {c : Content} {path : List String}
    (h : ∀ event ∈ c.events path, event.Plain) : c.Plain := by
  induction c generalizing path with
  | nil => trivial
  | text t beside ih => exact ih fun event hevent => h event (List.mem_cons_of_mem _ hevent)
  | element name a below beside ihbelow ihbeside =>
    simp only [events, List.mem_cons, List.mem_append, forall_eq_or_imp] at h
    exact ⟨h.1, ihbelow fun event hevent => h.2 event (.inl hevent),
      ihbeside fun event hevent => h.2 event (.inr (.inr hevent))⟩

end KeyLayout.Markup
