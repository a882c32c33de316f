import KeyLayout.Proofs.Markup.Names

/-! The bytes of a document, token by token. What tokens say is decoded and all else
in them is ASCII, apart from what stands in comments, processing instructions and
document type declarations. -/
namespace KeyLayout.Markup
open Utf8

section scanners
variable {s : Supply} {input value rest : Bytes}

theorem eq_of_literal {bs : Bytes} (h : literal s bs input = .found () rest) :
    input = bs ++ rest := by
  induction bs generalizing input with
  | nil => simpa [literal] using h
  | cons b bs ih =>
    cases input with
    | nil => simp [literal, Supply.atEnd_eq_found] at h
    | cons c input =>
      simp only [literal] at h
      split at h
      next hbc => rw [ih h, hbc, List.cons_append]
      next => simp at h

theorem eq_of_run {p : UInt8 → Bool} (h : run s p input = .found value rest) :
    input = value ++ rest := by
  induction input generalizing value with
  | nil =>
    obtain ⟨-, h⟩ := Supply.atEnd_eq_found.1 h
    obtain ⟨rfl, rfl⟩ : [] = value ∧ [] = rest := by simpa using h
    rfl
  | cons b input ih =>
    simp only [run] at h
    split at h
    · obtain ⟨tail, htail, rfl⟩ := Piece.map_eq_found.1 h
      rw [ih htail, List.cons_append]
    · obtain ⟨rfl, rfl⟩ : [] = value ∧ b :: input = rest := by simpa using h
      rfl

theorem eq_of_run1 {p : UInt8 → Bool} (h : run1 s p input = .found value rest) :
    input = value ++ rest := by
  cases input with
  | nil => simp [run1, Supply.atEnd_eq_found] at h
  | cons b input =>
    simp only [run1] at h
    split at h
    · obtain ⟨tail, htail, rfl⟩ := Piece.map_eq_found.1 h
      rw [eq_of_run htail, List.cons_append]
    · simp at h

theorem eq_of_upTo {closing : Bytes} (h : upTo s closing input = .found value rest) :
    input = value ++ (closing ++ rest) := by
  induction input generalizing value with
  | nil => simp [upTo, Supply.atEnd_eq_found] at h
  | cons b input ih =>
    simp only [upTo] at h
    split at h
    next hp =>
      obtain ⟨more, hmore⟩ := List.isPrefixOf_iff_prefix.1 hp
      rw [← hmore, List.drop_left] at h
      obtain ⟨rfl, rfl⟩ : [] = value ∧ more = rest := by simpa using h
      exact hmore.symm
    next =>
      obtain ⟨tail, htail, rfl⟩ := Piece.map_eq_found.1 h
      rw [ih htail, List.cons_append]

theorem not_infix_of_upTo {closing : Bytes} (hc : closing ≠ [])
    (h : upTo s closing input = .found value rest) : ¬closing <:+: value := by
  induction input generalizing value with
  | nil => simp [upTo, Supply.atEnd_eq_found] at h
  | cons b input ih =>
    have hinput := eq_of_upTo h
    simp only [upTo] at h
    split at h
    · obtain rfl : [] = value := (Piece.found.inj h).1
      simpa using hc
    next hp =>
      obtain ⟨tail, htail, rfl⟩ := Piece.map_eq_found.1 h
      intro hinfix
      rcases List.infix_cons_iff.1 hinfix with hprefix | hinfix
      · exact hp (List.isPrefixOf_iff_prefix.2 (hinput ▸ hprefix.trans (List.prefix_append _ _)))
      · exact ih htail hinfix

end scanners

/-- The bytes in front of the rest are these parts, in this order, with ASCII around them. -/
inductive Spans : Bytes → List Bytes → Bytes → Prop where
  | gap {front : Bytes} (hf : AllAscii front) (rest : Bytes) : Spans (front ++ rest) [] rest
  | part {front mid rest : Bytes} {parts : List Bytes} (hf : AllAscii front) (value : Bytes)
      (h : Spans mid parts rest) :
    Spans (front ++ (value ++ mid)) (value :: parts) rest

section spans
variable {s : Supply} {input mid rest value : Bytes} {parts more : List Bytes}

theorem allAscii_nil : AllAscii [] := by simp [AllAscii]

theorem spans_nil (input : Bytes) : Spans input [] input := .gap allAscii_nil input

theorem Spans.behind {front : Bytes} (hf : AllAscii front) (h : Spans input parts rest) :
    Spans (front ++ input) parts rest := by
  have happend {back : Bytes} (hb : AllAscii back) : AllAscii (front ++ back) :=
    List.forall_mem_append.2 ⟨hf, hb⟩
  cases h with
  | gap hg rest => exact List.append_assoc front _ rest ▸ .gap (happend hg) rest
  | part hg value h => exact List.append_assoc front _ _ ▸ .part (happend hg) value h

theorem Spans.trans (h : Spans input parts mid) (hm : Spans mid more rest) :
    Spans input (parts ++ more) rest := by
  induction h with
  | gap hf mid => exact hm.behind hf
  | part hf value _ ih => exact .part hf value (ih hm)

/-- If the parts are text, all in front of the rest is. -/
theorem Spans.exists_front (h : Spans input parts rest) :
    ∃ front, input = front ++ rest ∧ ((∀ part ∈ parts, IsText part) → IsText front) := by
  induction h with
  | @gap front hf rest => exact ⟨front, rfl, fun _ => .of_allAscii hf⟩
  | @part gap mid rest parts hf value _ ih =>
    obtain ⟨front, rfl, hfront⟩ := ih
    refine ⟨gap ++ (value ++ front), by simp, fun htext => ?_⟩
    obtain ⟨hvalue, htext⟩ := List.forall_mem_cons.1 htext
    exact (IsText.of_allAscii hf).append (hvalue.append (hfront htext))

/-- Every part has its place behind the parts in front of it. -/
theorem Spans.split {part : Bytes} (h : Spans input (parts ++ part :: more) rest) :
    ∃ behind, Spans input parts (part ++ behind) ∧ Spans behind more rest := by
  induction parts generalizing input with
  | nil =>
    cases h with
    | @part gap mid _ _ hf _ h => exact ⟨mid, .gap hf _, h⟩
  | cons first parts ih =>
    cases h with
    | part hf _ h =>
      obtain ⟨behind, hfront, hbehind⟩ := ih h
      exact ⟨behind, .part hf first hfront, hbehind⟩

theorem spans_ascii {front : Bytes} (hf : AllAscii front) (rest : Bytes) :
    Spans (front ++ rest) [] rest := .gap hf rest

theorem spans_part (value rest : Bytes) : Spans (value ++ rest) [value] rest :=
  .part allAscii_nil value (spans_nil rest)

theorem spans_literal {bs : Bytes} (hbs : AllAscii bs) (h : literal s bs input = .found () rest) :
    Spans input [] rest :=
  eq_of_literal h ▸ spans_ascii hbs rest

theorem ascii_of_isSpaceByte {b : UInt8} (h : isSpaceByte b = true) : b.toNat < 128 := by
  simp only [isSpaceByte, Bool.or_eq_true, beq_iff_eq] at h
  rcases h with ((rfl | rfl) | rfl) | rfl <;> decide

theorem spans_space (h : run s isSpaceByte input = .found value rest) : Spans input [] rest :=
  eq_of_run h ▸ spans_ascii (fun b hb => ascii_of_isSpaceByte (forall_run h b hb)) rest

theorem spans_space1 (h : run1 s isSpaceByte input = .found value rest) : Spans input [] rest :=
  eq_of_run1 h ▸ spans_ascii (fun b hb => ascii_of_isSpaceByte (forall_run1 h b hb)) rest

theorem spans_run1 {p : UInt8 → Bool} (h : run1 s p input = .found value rest) :
    Spans input [value] rest :=
  eq_of_run1 h ▸ spans_part value rest

theorem spans_upTo {closing : Bytes} (hc : AllAscii closing)
    (h : upTo s closing input = .found value rest) : Spans input [value] rest :=
  eq_of_upTo h ▸ (spans_part value _).trans (spans_ascii hc rest)

theorem spans_quoted (h : quoted s input = .found value rest) : Spans input [value] rest := by
  rcases Piece.orElse_eq_found h with h | h
  · obtain ⟨_, _, hopen, h⟩ := Piece.andThen_eq_found.1 h
    exact (spans_literal (by decide) hopen).trans (spans_upTo (by decide) h)
  · obtain ⟨_, _, hopen, h⟩ := Piece.andThen_eq_found.1 h
    exact (spans_literal (by decide) hopen).trans (spans_upTo (by decide) h)

theorem spans_oneAttribute {entry : Bytes × Bytes} (h : oneAttribute s input = .found entry rest) :
    Spans input [entry.1, entry.2] rest := by
  obtain ⟨_, _, hbefore, h⟩ := Piece.andThen_eq_found.1 h
  obtain ⟨name, _, hname, h⟩ := Piece.andThen_eq_found.1 h
  obtain ⟨_, _, hleft, h⟩ := Piece.andThen_eq_found.1 h
  obtain ⟨_, _, hequals, h⟩ := Piece.andThen_eq_found.1 h
  obtain ⟨_, _, hright, h⟩ := Piece.andThen_eq_found.1 h
  obtain ⟨value, hvalue, rfl⟩ := Piece.map_eq_found.1 h
  exact (spans_space1 hbefore).trans <| (spans_run1 hname).trans <| (spans_space hleft).trans <|
    (spans_literal (by decide) hequals).trans <| (spans_space hright).trans (spans_quoted hvalue)

theorem spans_attributes {entries : List (Bytes × Bytes)}
    (h : attributes s input = .found entries rest) :
    Spans input (entries.flatMap fun entry => [entry.1, entry.2]) rest := by
  induction hn : input.length using Nat.strongRecOn generalizing input entries with
  | _ n ih =>
    subst hn
    rw [attributes_eq] at h
    split at h
    next entry mid hone =>
      obtain ⟨more, hmore, rfl⟩ := Piece.map_eq_found.1 h
      exact (spans_oneAttribute hone).trans (ih mid.length (advances_oneAttribute s hone) hmore rfl)
    next =>
      obtain ⟨rfl, rfl⟩ : [] = entries ∧ input = rest := by simpa using h
      exact spans_nil input
    next => simp at h
    next => simp at h

end spans

/-- The bytes of a token that stand for text. -/
def Token.parts : Token → List Bytes
  | .startTag name attributes _ => name :: attributes.flatMap fun entry => [entry.1, entry.2]
  | .endTag name => [name]
  | .text raw => [raw]
  | .verbatim raw => [raw]
  | .skipped => []

def Token.opening : Token → Bytes
  | .startTag _ _ _ => ascii "<"
  | .endTag _ => ascii "</"
  | .text _ => []
  | .verbatim _ => verbatimSection.opening
  | .skipped => []

theorem Token.allAscii_opening (token : Token) : AllAscii token.opening := by
  cases token <;> simp only [opening] <;> decide

theorem Token.opening_eq_nil {token : Token} :
    token.opening = [] ↔ (∃ raw, token = .text raw) ∨ token = .skipped := by
  have htag : ascii "<" ≠ [] ∧ ascii "</" ≠ [] ∧ verbatimSection.opening ≠ [] := by decide
  cases token <;> simp [opening, htag]

/-- The token is its opening, its first part and the others with ASCII around them. -/
def Token.Lies (token : Token) (input rest : Bytes) : Prop :=
  ∃ first others mid, token.parts = first :: others ∧ input = token.opening ++ (first ++ mid) ∧
    Spans mid others rest

theorem Token.Lies.spans {token : Token} {input rest : Bytes} (h : token.Lies input rest) :
    Spans input token.parts rest := by
  obtain ⟨first, others, mid, hparts, rfl, hmid⟩ := h
  rw [hparts]
  exact .part token.allAscii_opening first hmid

theorem Token.Lies.ne_skipped {token : Token} {input rest : Bytes} (h : token.Lies input rest) :
    token ≠ .skipped := by
  obtain ⟨_, _, _, hparts, -⟩ := h
  rintro rfl
  simp [parts] at hparts

def asideKinds : List Enclosure := [comment, typeDeclaration, instruction]

def Enclosure.Encloses (e : Enclosure) (lexeme : Bytes) : Prop :=
  ∃ content, lexeme = e.opening ++ (content ++ e.closing) ∧ ¬e.closing <:+: content

section tokens
variable {s : Supply} {input rest : Bytes} {token : Token}

theorem enclosure_of_scan {e : Enclosure} (hc : e.closing ≠ [])
    (h : e.scan s input = .found token rest) :
    ∃ content, input = e.opening ++ (content ++ (e.closing ++ rest)) ∧ ¬e.closing <:+: content ∧
      token = e.token content := by
  obtain ⟨_, _, hopening, h⟩ := Piece.andThen_eq_found.1 h
  obtain ⟨content, hcontent, rfl⟩ := Piece.map_eq_found.1 (Piece.orBroken_eq_found.1 h)
  exact ⟨content, by rw [eq_of_literal hopening, eq_of_upTo hcontent],
    not_infix_of_upTo hc hcontent, rfl⟩

/-- A token between angle brackets that is no tag is verbatim text, or it is passed over. -/
theorem enclosed_cases (h : enclosed s input = .found token rest) :
    token.Lies input rest ∨
      token = .skipped ∧
        ∃ e ∈ asideKinds, ∃ lexeme, input = lexeme ++ rest ∧ e.Encloses lexeme := by
  have haside : ∀ e ∈ asideKinds, e.closing ≠ [] ∧ ∀ content, e.token content = .skipped := by
    simp only [asideKinds, List.forall_mem_cons, List.not_mem_nil, false_implies,
      implies_true, and_true]
    exact ⟨⟨by decide, fun _ => rfl⟩, ⟨by decide, fun _ => rfl⟩, ⟨by decide, fun _ => rfl⟩⟩
  have hskipped : ∀ e ∈ asideKinds, e.scan s input = .found token rest →
      token = .skipped ∧
        ∃ e ∈ asideKinds, ∃ lexeme, input = lexeme ++ rest ∧ e.Encloses lexeme := by
    intro e he hscan
    obtain ⟨hclosing, htoken⟩ := haside e he
    obtain ⟨content, hinput, hcontent, rfl⟩ := enclosure_of_scan hclosing hscan
    exact ⟨htoken content, e, he, _, by simpa using hinput, content, rfl, hcontent⟩
  rcases Piece.orElse_eq_found h with h | h
  · rcases Piece.orElse_eq_found h with h | h
    · rcases Piece.orElse_eq_found h with h | h
      · exact .inr (hskipped comment (by simp [asideKinds]) h)
      · obtain ⟨content, rfl, -, rfl⟩ := enclosure_of_scan (by decide) h
        exact .inl ⟨content, [], _, rfl, rfl, spans_ascii (by decide) rest⟩
    · exact .inr (hskipped typeDeclaration (by simp [asideKinds]) h)
  · exact .inr (hskipped instruction (by simp [asideKinds]) h)

theorem endTag_lies (h : endTag s input = .found token rest) : token.Lies input rest := by
  obtain ⟨_, _, hopen, h⟩ := Piece.andThen_eq_found.1 h
  obtain ⟨name, _, hname, h⟩ := Piece.andThen_eq_found.1 (Piece.orBroken_eq_found.1 h)
  obtain ⟨_, mid, hspace, h⟩ := Piece.andThen_eq_found.1 h
  obtain ⟨_, hclose, rfl⟩ := Piece.map_eq_found.1 h
  refine ⟨name, [], _, rfl, ?_, (spans_space hspace).trans (spans_literal (by decide) hclose)⟩
  rw [eq_of_literal hopen, eq_of_run1 hname]
  rfl

theorem spans_startTagRest {name : Bytes} (h : startTagRest s name input = .found token rest) :
    ∃ attributes empty, token = .startTag name attributes empty ∧
      Spans input (attributes.flatMap fun entry => [entry.1, entry.2]) rest := by
  obtain ⟨entries, _, hentries, h⟩ := Piece.andThen_eq_found.1 h
  obtain ⟨_, _, hspace, h⟩ := Piece.andThen_eq_found.1 h
  have hfront := (spans_attributes hentries).trans (spans_space hspace)
  rcases Piece.orElse_eq_found h with h | h
  · obtain ⟨_, hclose, rfl⟩ := Piece.map_eq_found.1 h
    exact ⟨entries, true, rfl, by simpa using hfront.trans (spans_literal (by decide) hclose)⟩
  · obtain ⟨_, hclose, rfl⟩ := Piece.map_eq_found.1 h
    exact ⟨entries, false, rfl, by simpa using hfront.trans (spans_literal (by decide) hclose)⟩

theorem startTag_lies (h : startTag s input = .found token rest) : token.Lies input rest := by
  obtain ⟨name, mid, hname, h⟩ := Piece.andThen_eq_found.1 h
  obtain ⟨_, _, hopen, hrun⟩ := Piece.andThen_eq_found.1 hname
  obtain ⟨attributes, empty, rfl, hspans⟩ := spans_startTagRest (Piece.orBroken_eq_found.1 h)
  refine ⟨name, _, mid, rfl, ?_, hspans⟩
  rw [eq_of_literal hopen, eq_of_run1 hrun]
  rfl

/-- A token is its parts with ASCII around them, unless it is one that is passed over. -/
theorem token_cases (h : s.scan input = .token token rest) :
    token.Lies input rest ∨
      token = .skipped ∧
        ∃ e ∈ asideKinds, ∃ lexeme, input = lexeme ++ rest ∧ e.Encloses lexeme := by
  rcases Supply.token_found h with h | h | h | h
  · exact enclosed_cases h
  · exact .inl (endTag_lies h)
  · exact .inl (startTag_lies h)
  · obtain ⟨raw, hrun, rfl⟩ := Piece.map_eq_found.1 h
    have hinput : input = raw ++ rest := eq_of_run1 hrun
    exact .inl ⟨raw, [], rest, rfl, hinput, spans_nil rest⟩

end tokens

section decoded
variable {offset : Nat}

theorem isText_of_decodeText {raw : Bytes} {text : String}
    (h : decodeText offset raw = .ok text) : IsText raw :=
  ⟨_, decode_eq_ok.1 (decodeText_eq_ok.1 h)⟩

theorem isText_of_readAttributes {element : String} {known a : Attributes}
    {raw : List (Bytes × Bytes)} (h : readAttributes offset element known raw = .ok a) :
    ∀ part ∈ raw.flatMap fun entry => [entry.1, entry.2], IsText part := by
  induction raw generalizing known with
  | nil => simp
  | cons first more ih =>
    obtain ⟨name, hname, h⟩ := bind_eq_ok.1 h
    obtain ⟨decoded, hdecoded, h⟩ := bind_eq_ok.1 h
    obtain ⟨value, -, h⟩ := bind_eq_ok.1 h
    split at h
    next =>
      rw [List.flatMap_cons, List.forall_mem_append]
      exact ⟨by simpa using ⟨isText_of_decodeText hname, isText_of_decodeText hdecoded⟩, ih h⟩
    next => simp at h

/-- Every part of a token that is accepted has been decoded. -/
theorem Nesting.isText_of_interpret {n : Nesting} {token : Token} {told : List Event × Nesting}
    (h : n.interpret offset token = .ok told) : ∀ part ∈ token.parts, IsText part := by
  obtain ⟨events, n'⟩ := told
  cases means_of_interpret h with
  | startTag _ hname ha =>
    exact List.forall_mem_cons.2 ⟨isText_of_decodeText hname, isText_of_readAttributes ha⟩
  | emptyTag _ hname ha =>
    exact List.forall_mem_cons.2 ⟨isText_of_decodeText hname, isText_of_readAttributes ha⟩
  | endTag _ hname => exact List.forall_mem_singleton.2 (isText_of_decodeText hname)
  | blank _ htext _ => exact List.forall_mem_singleton.2 (isText_of_decodeText htext)
  | text _ hwritten _ => exact List.forall_mem_singleton.2 (isText_of_decodeText hwritten)
  | verbatim _ htext => exact List.forall_mem_singleton.2 (isText_of_decodeText htext)
  | skipped => simp [Token.parts]

end decoded

structure Lexeme where
  bytes : Bytes
  token : Token

/-- The complete tokens at the front of the bytes. -/
def lexemes (input : Bytes) : List Lexeme :=
  match h : scan input with
  | .token token rest =>
    have := length_lt_of_scan h
    ⟨input.take (input.length - rest.length), token⟩ :: lexemes rest
  | .cutOff => []
  | .malformed _ => []
termination_by input.length

/-- The comments, processing instructions and document type declarations among them. -/
def asides (input : Bytes) : List Bytes :=
  ((lexemes input).filter (·.token = .skipped)).map Lexeme.bytes

section lexemes
variable {input lexeme rest : Bytes} {token : Token}

theorem lexemes_cutOff (h : scan input = .cutOff) : lexemes input = [] := by
  rw [lexemes]
  split <;> simp_all

theorem lexemes_malformed {construct : Option Construct} (h : scan input = .malformed construct) :
    lexemes input = [] := by
  rw [lexemes]
  split <;> simp_all

theorem lexemes_token (h : scan (lexeme ++ rest) = .token token rest) :
    lexemes (lexeme ++ rest) = ⟨lexeme, token⟩ :: lexemes rest := by
  rw [lexemes]
  split
  next token' rest' h' =>
    obtain ⟨rfl, rfl⟩ : token = token' ∧ rest = rest' := by simpa [h] using h'
    simp
  next => simp_all
  next => simp_all

theorem exists_lexeme {s : Supply} (h : s.scan input = .token token rest) :
    ∃ lexeme, input = lexeme ++ rest := by
  rcases token_cases h with hlies | ⟨-, -, -, front, hfront, -⟩
  · obtain ⟨front, hfront, -⟩ := hlies.spans.exists_front
    exact ⟨front, hfront⟩
  · exact ⟨front, hfront⟩

end lexemes

/-- What is read and what stays pending are all the bytes, and the offset is
that behind what is read. -/
theorem Reader.tiles_drainAs {s : Supply} {r last : Reader} (h : (r.drainAs s).outcome = .ok last) :
    ∃ front, r.pending = front ++ last.pending ∧ last.offset = r.offset + front.length := by
  induction r using Reader.drainAs_induction s with
  | stays r _ =>
    obtain rfl : r = last := Except.ok.inj h
    exact ⟨[], rfl, rfl⟩
  | malformed r construct _ => simp at h
  | refused r token rest failure _ _ => simp at h
  | token r token rest events nesting hs _ ih =>
    obtain ⟨front, hfront, hoffset⟩ := ih h
    obtain ⟨lexeme, hlexeme⟩ := exists_lexeme hs
    have hrest : rest = front ++ last.pending := hfront
    refine ⟨lexeme ++ front, by rw [hlexeme, hrest, List.append_assoc], ?_⟩
    rw [hoffset, Reader.offset_behind hlexeme nesting, List.length_append, Nat.add_assoc]

/-- Tokens that are accepted take up all bytes that are read, and those
that say something are text. -/
theorem Reader.lexemes_of_drain {r last : Reader} (h : r.drain.outcome = .ok last) :
    r.pending = (lexemes r.pending).flatMap Lexeme.bytes ++ last.pending ∧
      ∀ l ∈ lexemes r.pending, l.token ≠ .skipped → IsText l.bytes := by
  unfold Reader.drain at h
  induction r using Reader.drainAs_induction .arriving with
  | stays r hr =>
    obtain rfl : r = last := Except.ok.inj h
    have hs : scan r.pending = .cutOff := by
      rcases hr with hp | hs
      · rw [hp, scan_nil]
      · exact hs
    simp [lexemes_cutOff hs]
  | malformed r construct _ => simp at h
  | refused r token rest failure _ _ => simp at h
  | token r token rest events nesting hs hi ih =>
    obtain ⟨htiles, htext⟩ : rest = (lexemes rest).flatMap Lexeme.bytes ++ last.pending ∧ _ := ih h
    obtain ⟨lexeme, hlexeme⟩ := exists_lexeme hs
    rw [hlexeme] at hs ⊢
    rw [lexemes_token hs]
    refine ⟨?_, List.forall_mem_cons.2 ⟨fun hne => ?_, htext⟩⟩
    · rw [List.flatMap_cons, List.append_assoc, ← htiles]
    · rcases token_cases hs with hlies | ⟨hskipped, -⟩
      · obtain ⟨front, hfront, hspans⟩ := hlies.spans.exists_front
        obtain rfl : lexeme = front := List.append_cancel_right hfront
        exact hspans (Nesting.isText_of_interpret hi)
      · exact absurd hskipped hne

end KeyLayout.Markup
