import KeyLayout.Markup.Token
import Mathlib.Data.List.Infix
import Mathlib.Tactic.SplitIfs

/-! Every token is found where it is written, whatever bytes stand behind it. -/
namespace KeyLayout.Markup

/-- The bytes go on with one at which a run stops. -/
def Stops (p : UInt8 → Bool) (rest : Bytes) : Prop := ∃ b more, rest = b :: more ∧ p b = false

theorem stops_cons {p : UInt8 → Bool} {b : UInt8} (hb : p b = false) (more : Bytes) :
    Stops p (b :: more) :=
  ⟨b, more, rfl, hb⟩

theorem Stops.append {p : UInt8 → Bool} {front rest : Bytes} (hf : ∀ b ∈ front, p b = false)
    (hr : Stops p rest) : Stops p (front ++ rest) := by
  cases front with
  | nil => exact hr
  | cons b front => exact stops_cons (hf b List.mem_cons_self) _

theorem literal_append (bs rest : Bytes) : literal .arriving bs (bs ++ rest) = .found () rest := by
  induction bs with
  | nil => rfl
  | cons b bs ih => simpa [literal] using ih

theorem run_append {p : UInt8 → Bool} {value rest : Bytes} (hv : ∀ b ∈ value, p b = true)
    (hr : Stops p rest) : run .arriving p (value ++ rest) = .found value rest := by
  induction value with
  | nil =>
    obtain ⟨b, more, rfl, hb⟩ := hr
    simp [run, hb]
  | cons b value ih =>
    obtain ⟨hb, hv⟩ := List.forall_mem_cons.1 hv
    simp [run, hb, ih hv, Piece.map, Piece.andThen]

theorem run1_append {p : UInt8 → Bool} {value rest : Bytes} (hne : value ≠ [])
    (hv : ∀ b ∈ value, p b = true)
    (hr : Stops p rest) : run1 .arriving p (value ++ rest) = .found value rest := by
  cases value with
  | nil => exact absurd rfl hne
  | cons b value =>
    obtain ⟨hb, hv⟩ := List.forall_mem_cons.1 hv
    simp [run1, hb, run_append hv hr, Piece.map, Piece.andThen]

theorem run1_absent {p : UInt8 → Bool} {rest : Bytes} (hr : Stops p rest) :
    run1 .arriving p rest = .absent := by
  obtain ⟨b, more, rfl, hb⟩ := hr
  simp [run1, hb]

/-- A closing whose last byte comes only once in it cannot begin in the value and end behind it. -/
theorem not_prefix_closing {k value rest : Bytes} {z : UInt8} (hz : z ∉ k)
    (hv : ¬k ++ [z] <:+: value) (hne : value ≠ []) : ¬k ++ [z] <+: value ++ (k ++ [z] ++ rest) := by
  intro hp
  by_cases hl : (k ++ [z]).length ≤ value.length
  · exact hv (List.prefix_of_prefix_length_le hp (List.prefix_append _ _) hl).isInfix
  · obtain ⟨tail, htail⟩ :=
      List.prefix_of_prefix_length_le (List.prefix_append value _) hp (by omega)
    have htail' : tail <+: k ++ [z] ++ rest := by
      refine (List.prefix_append_right_inj value).1 ?_
      rw [htail]
      exact hp
    have hshort : tail.length ≤ k.length := by
      have := congrArg List.length htail
      have := List.length_pos_iff.2 hne
      simp only [List.length_append, List.length_singleton] at *
      omega
    have hk : tail <+: k :=
      List.prefix_of_prefix_length_le htail' (by simp) hshort
    have hlast : z ∈ tail := by
      have htne : tail ≠ [] := by
        rintro rfl
        simp only [List.append_nil] at htail
        simp [htail] at hl
      have := congrArg (fun l => l.getLast?) htail
      rw [List.getLast?_append_of_ne_nil _ htne] at this
      exact List.mem_of_getLast? (by simpa using this)
    exact hz (hk.subset hlast)

theorem upTo_append {k value : Bytes} {z : UInt8} (hz : z ∉ k) (hv : ¬k ++ [z] <:+: value)
    (rest : Bytes) :
    upTo .arriving (k ++ [z]) (value ++ (k ++ [z] ++ rest)) = .found value rest := by
  induction value with
  | nil =>
    have hp : (k ++ [z]).isPrefixOf (k ++ [z] ++ rest) = true :=
      List.isPrefixOf_iff_prefix.2 (List.prefix_append _ _)
    obtain ⟨b, more, hb⟩ := List.exists_cons_of_ne_nil (l := k ++ [z] ++ rest) (by simp)
    rw [List.nil_append, hb, upTo, ← hb, if_pos hp, List.drop_left]
  | cons b value ih =>
    have hp : ¬(k ++ [z]).isPrefixOf (b :: (value ++ (k ++ [z] ++ rest))) = true := fun hp =>
      not_prefix_closing hz hv (by simp) (List.isPrefixOf_iff_prefix.1 hp)
    have hmore : ¬k ++ [z] <:+: value := fun hi => hv (List.infix_cons hi)
    rw [List.cons_append, upTo, if_neg hp, ih hmore]
    rfl

theorem upTo_byte {b : UInt8} {value : Bytes} (hv : b ∉ value) (rest : Bytes) :
    upTo .arriving [b] (value ++ b :: rest) = .found value rest :=
  upTo_append (k := []) (by simp) (by simpa [List.singleton_infix_iff] using hv) rest

theorem scan_of_enclosed {input rest : Bytes} {token : Token}
    (h : enclosed .arriving input = .found token rest) : scan input = .token token rest := by
  simp only [scan, Supply.scan, angled, h, Piece.orElse, Piece.toScan]

theorem Enclosure.scan_append {e : Enclosure} {k value : Bytes} {z : UInt8}
    (hc : e.closing = k ++ [z]) (hz : z ∉ k) (hv : ¬e.closing <:+: value) (rest : Bytes) :
    e.scan .arriving (e.opening ++ (value ++ (e.closing ++ rest))) =
      .found (e.token value) rest := by
  rw [hc] at hv
  simp only [Enclosure.scan, literal_append, Piece.andThen, hc, upTo_append hz hv rest, Piece.map,
    Piece.orBroken]

theorem Enclosure.scan_absent {s : Supply} {e : Enclosure} {input : Bytes}
    (h : literal s e.opening input = .absent) : e.scan s input = .absent := by
  simp [Enclosure.scan, h, Piece.andThen]

section enclosures
variable {value : Bytes}

theorem opening_comment : comment.opening = [0x3C, 0x21, 0x2D, 0x2D] := by decide

theorem opening_verbatimSection :
    verbatimSection.opening = [0x3C, 0x21, 0x5B, 0x43, 0x44, 0x41, 0x54, 0x41, 0x5B] := by decide

theorem opening_typeDeclaration :
    typeDeclaration.opening = [0x3C, 0x21, 0x44, 0x4F, 0x43, 0x54, 0x59, 0x50, 0x45] := by decide

theorem opening_instruction : instruction.opening = [0x3C, 0x3F] := by decide

theorem scan_comment (hv : ¬comment.closing <:+: value) (rest : Bytes) :
    scan (comment.opening ++ (value ++ (comment.closing ++ rest))) = .token .skipped rest := by
  have hfound :=
    Enclosure.scan_append (e := comment) (k := [0x2D, 0x2D]) (z := 0x3E) (by decide)
      (by decide) hv rest
  apply scan_of_enclosed
  simp only [enclosed, hfound, Piece.orElse]
  rfl

theorem scan_verbatim (hv : ¬verbatimSection.closing <:+: value) (rest : Bytes) :
    scan (verbatimSection.opening ++ (value ++ (verbatimSection.closing ++ rest))) =
      .token (.verbatim value) rest := by
  have hfound :=
    Enclosure.scan_append (e := verbatimSection) (k := [0x5D, 0x5D]) (z := 0x3E)
      (by decide) (by decide)
    hv rest
  have hcomment :
      comment.scan .arriving
        (verbatimSection.opening ++ (value ++ (verbatimSection.closing ++ rest))) = .absent :=
    Enclosure.scan_absent (by simp [opening_comment, opening_verbatimSection, literal])
  apply scan_of_enclosed
  simp only [enclosed, hcomment, hfound, Piece.orElse]
  rfl

theorem scan_typeDeclaration (hv : ¬typeDeclaration.closing <:+: value) (rest : Bytes) :
    scan (typeDeclaration.opening ++ (value ++ (typeDeclaration.closing ++ rest))) =
      .token .skipped rest := by
  have hfound :=
    Enclosure.scan_append (e := typeDeclaration) (k := []) (z := 0x3E) (by decide)
      (by decide) hv rest
  have hcomment :
      comment.scan .arriving
        (typeDeclaration.opening ++ (value ++ (typeDeclaration.closing ++ rest))) = .absent :=
    Enclosure.scan_absent (by simp [opening_comment, opening_typeDeclaration, literal])
  have hverbatim :
      verbatimSection.scan .arriving
        (typeDeclaration.opening ++ (value ++ (typeDeclaration.closing ++ rest))) = .absent :=
    Enclosure.scan_absent (by simp [opening_verbatimSection, opening_typeDeclaration, literal])
  apply scan_of_enclosed
  simp only [enclosed, hcomment, hverbatim, hfound, Piece.orElse]
  rfl

theorem scan_instruction (hv : ¬instruction.closing <:+: value) (rest : Bytes) :
    scan (instruction.opening ++ (value ++ (instruction.closing ++ rest))) =
      .token .skipped rest := by
  have hfound :=
    Enclosure.scan_append (e := instruction) (k := [0x3F]) (z := 0x3E) (by decide)
      (by decide) hv rest
  have habsent {e : Enclosure} {more : Bytes} (he : e.opening = 0x3C :: 0x21 :: more) :
      e.scan .arriving (instruction.opening ++ (value ++ (instruction.closing ++ rest))) =
        .absent :=
    Enclosure.scan_absent (by simp [he, opening_instruction, literal])
  apply scan_of_enclosed
  simp only [enclosed, habsent opening_comment, habsent opening_verbatimSection,
    habsent opening_typeDeclaration, hfound, Piece.orElse]
  rfl

/-- Neither tags nor text begin like what is enclosed. -/
theorem enclosed_absent {s : Supply} {input : Bytes}
    (h : (∃ b more, input = b :: more ∧ b ≠ 0x3C) ∨
      ∃ b more, input = 0x3C :: b :: more ∧ b ≠ 0x21 ∧ b ≠ 0x3F) : enclosed s input = .absent := by
  have habsent {e : Enclosure} {c : UInt8} {more : Bytes} (he : e.opening = 0x3C :: c :: more)
      (hc : c = 0x21 ∨ c = 0x3F) : e.scan s input = .absent := by
    apply Enclosure.scan_absent
    rcases h with ⟨b, more, rfl, hb⟩ | ⟨b, more, rfl, hb₁, hb₂⟩
    · simp [he, literal, Ne.symm hb]
    · rcases hc with rfl | rfl
      · simp [he, literal, Ne.symm hb₁]
      · simp [he, literal, Ne.symm hb₂]
  simp only [enclosed, habsent opening_comment (.inl rfl),
    habsent opening_verbatimSection (.inl rfl),
    habsent opening_typeDeclaration (.inl rfl),
    habsent opening_instruction (.inr rfl), Piece.orElse]

end enclosures

section tags
variable {name space value rest : Bytes} {q : UInt8}

theorem quoted_append (hq : q = 0x22 ∨ q = 0x27) (hv : q ∉ value) (rest : Bytes) :
    quoted .arriving (q :: (value ++ q :: rest)) = .found value rest := by
  have hdouble : ascii "\"" = [0x22] := by decide
  have hsingle : ascii "'" = [0x27] := by decide
  rcases hq with rfl | rfl
  · simp [quoted, hdouble, literal, Piece.andThen, Piece.orElse, upTo_byte hv]
  · simp [quoted, hdouble, hsingle, literal, Piece.andThen, Piece.orElse, upTo_byte hv]

/-- Bytes of names are not blanks. -/
theorem not_isSpaceByte {b : UInt8} (h : isNameByte b = true) : isSpaceByte b = false := by
  by_contra hs
  have hspace : isSpaceByte b = true := by simpa using hs
  simp only [isSpaceByte, Bool.or_eq_true, beq_iff_eq] at hspace
  rcases hspace with ((rfl | rfl) | rfl) | rfl <;> exact absurd h (by decide)

theorem not_isNameByte {b : UInt8} (h : isSpaceByte b = true) : isNameByte b = false := by
  by_contra hn
  have hname : isNameByte b = true := by simpa using hn
  rw [not_isSpaceByte hname] at h
  exact absurd h (by decide)

/-- A run of name bytes behind blanks. -/
theorem stops_name (hne : name ≠ []) (hname : ∀ b ∈ name, isNameByte b = true) (rest : Bytes) :
    Stops isSpaceByte (name ++ rest) := by
  obtain ⟨b, more, rfl⟩ := List.exists_cons_of_ne_nil hne
  exact stops_cons (not_isSpaceByte (hname b List.mem_cons_self)) _

theorem stops_space (hspace : ∀ b ∈ space, isSpaceByte b = true) (hr : Stops isNameByte rest) :
    Stops isNameByte (space ++ rest) :=
  hr.append fun b hb => not_isNameByte (hspace b hb)

theorem oneAttribute_append {before left right : Bytes}
    (hbefore : ∀ b ∈ before, isSpaceByte b = true)
    (hne : before ≠ []) (hname : ∀ b ∈ name, isNameByte b = true) (hnamed : name ≠ [])
    (hleft : ∀ b ∈ left, isSpaceByte b = true) (hright : ∀ b ∈ right, isSpaceByte b = true)
    (hq : q = 0x22 ∨ q = 0x27) (hv : q ∉ value) (rest : Bytes) :
    oneAttribute .arriving
      (before ++ (name ++ (left ++ 0x3D :: (right ++ q :: (value ++ q :: rest))))) =
      .found (name, value) rest := by
  have hequals : ascii "=" = [0x3D] := by decide
  have hqspace : isSpaceByte q = false := by rcases hq with rfl | rfl <;> decide
  have h₁ :=
    run1_append hne hbefore
      (stops_name hnamed hname (left ++ 0x3D :: (right ++ q :: (value ++ q :: rest))))
  have h₂ := run1_append hnamed hname
    (stops_space hleft (stops_cons (b := 0x3D) (by decide) (right ++ q :: (value ++ q :: rest))))
  have h₃ :=
    run_append hleft (stops_cons (b := 0x3D) (by decide) (right ++ q :: (value ++ q :: rest)))
  have h₄ : literal .arriving (ascii "=") (0x3D :: (right ++ q :: (value ++ q :: rest))) =
      .found () (right ++ q :: (value ++ q :: rest)) := by simp [hequals, literal]
  have h₅ := run_append hright (stops_cons hqspace (value ++ q :: rest))
  simp only [oneAttribute, h₁, h₂, h₃, h₄, h₅, quoted_append hq hv, Piece.andThen, Piece.map]

theorem oneAttribute_absent (hspace : ∀ b ∈ space, isSpaceByte b = true)
    (hs : Stops isSpaceByte rest)
    (hn : Stops isNameByte rest) : oneAttribute .arriving (space ++ rest) = .absent := by
  by_cases hne : space = []
  · subst hne
    simp [oneAttribute, run1_absent hs, Piece.andThen]
  · simp [oneAttribute, run1_append hne hspace hs, run1_absent hn, Piece.andThen]

def tagEnd (empty : Bool) : Bytes := if empty then [0x2F, 0x3E] else [0x3E]

theorem stops_tagEnd {p : UInt8 → Bool} (hslash : p 0x2F = false) (hangle : p 0x3E = false)
    (empty : Bool) (rest : Bytes) : Stops p (tagEnd empty ++ rest) := by
  cases empty
  · exact stops_cons hangle _
  · exact stops_cons hslash _

theorem startTagRest_append {raw : List (Bytes × Bytes)} {input : Bytes} {empty : Bool}
    (ha : attributes .arriving input = .found raw (space ++ (tagEnd empty ++ rest)))
    (hspace : ∀ b ∈ space, isSpaceByte b = true) :
    startTagRest .arriving name input = .found (.startTag name raw empty) rest := by
  have hrun :=
    run_append hspace (stops_tagEnd (p := isSpaceByte) (by decide) (by decide) empty rest)
  have hslash : ascii "/>" = [0x2F, 0x3E] := by decide
  have hangle : ascii ">" = [0x3E] := by decide
  simp only [startTagRest, ha, hrun, Piece.andThen]
  cases empty <;> simp [tagEnd, hslash, hangle, literal, Piece.map, Piece.andThen, Piece.orElse]

theorem scan_startTag {raw : List (Bytes × Bytes)} {input : Bytes} {empty : Bool}
    (hnamed : name ≠ []) (hname : ∀ b ∈ name, isNameByte b = true) (hstop : Stops isNameByte input)
    (ha : attributes .arriving input = .found raw (space ++ (tagEnd empty ++ rest)))
    (hspace : ∀ b ∈ space, isSpaceByte b = true) :
    scan (0x3C :: (name ++ input)) = .token (.startTag name raw empty) rest := by
  have hangle : ascii "<" = [0x3C] := by decide
  have hslash : ascii "</" = [0x3C, 0x2F] := by decide
  have hfound : startTagName .arriving (0x3C :: (name ++ input)) = .found name input := by
    simp [startTagName, hangle, literal, Piece.andThen, run1_append hnamed hname hstop]
  obtain ⟨b, more, rfl⟩ := List.exists_cons_of_ne_nil hnamed
  have hb : isNameByte b = true := hname b List.mem_cons_self
  have hne : b ≠ 0x21 ∧ b ≠ 0x3F ∧ b ≠ 0x2F := by
    refine ⟨?_, ?_, ?_⟩ <;> rintro rfl <;> exact absurd hb (by decide)
  have habsent : enclosed .arriving (0x3C :: (b :: more ++ input)) = .absent :=
    enclosed_absent (.inr ⟨b, more ++ input, rfl, hne.1, hne.2.1⟩)
  have hend : endTag .arriving (0x3C :: (b :: more ++ input)) = .absent := by
    simp [endTag, hslash, literal, Ne.symm hne.2.2, Piece.andThen]
  simp only [scan, Supply.scan, angled, startTag, habsent, hend, hfound,
    startTagRest_append ha hspace, Piece.andThen, Piece.orElse, Piece.orBroken, Piece.toScan]

theorem scan_endTag (hnamed : name ≠ []) (hname : ∀ b ∈ name, isNameByte b = true)
    (hspace : ∀ b ∈ space, isSpaceByte b = true) (rest : Bytes) :
    scan (0x3C :: 0x2F :: (name ++ (space ++ 0x3E :: rest))) = .token (.endTag name) rest := by
  have hslash : ascii "</" = [0x3C, 0x2F] := by decide
  have hangle : ascii ">" = [0x3E] := by decide
  have habsent : enclosed .arriving (0x3C :: 0x2F :: (name ++ (space ++ 0x3E :: rest))) = .absent :=
    enclosed_absent (.inr ⟨0x2F, _, rfl, by decide, by decide⟩)
  have hopen : literal .arriving (ascii "</") (0x3C :: 0x2F :: (name ++ (space ++ 0x3E :: rest))) =
      .found () (name ++ (space ++ 0x3E :: rest)) := by simp [hslash, literal]
  have hrun :=
    run1_append hnamed hname (stops_space hspace (stops_cons (b := 0x3E) (by decide) rest))
  have hblank := run_append hspace (stops_cons (b := 0x3E) (by decide) rest)
  have hclose : literal .arriving (ascii ">") (0x3E :: rest) = .found () rest := by
    simp [hangle, literal]
  simp only [scan, Supply.scan, angled, endTag, habsent, hopen, endTagRest, hrun, hblank,
    hclose, Piece.map, Piece.andThen, Piece.orElse, Piece.orBroken, Piece.toScan]

end tags

section text
variable {value : Bytes}

theorem forall_isNotOpening_iff : (∀ b ∈ value, isNotOpening b = true) ↔ 0x3C ∉ value := by
  constructor
  · intro h hmem
    exact absurd (h 0x3C hmem) (by decide)
  · intro h b hb
    have hne : b ≠ 0x3C := fun heq => h (heq ▸ hb)
    simpa [isNotOpening] using hne

/-- What does not begin with `<` is no tag and nothing enclosed. -/
theorem angled_absent (s : Supply) {b : UInt8} (hb : isNotOpening b = true) (more : Bytes) :
    angled s (b :: more) = .absent := by
  have hslash : ascii "</" = [0x3C, 0x2F] := by decide
  have hangle : ascii "<" = [0x3C] := by decide
  have hne : b ≠ 0x3C := by simpa [isNotOpening] using hb
  have habsent : enclosed s (b :: more) = .absent := enclosed_absent (.inl ⟨b, more, rfl, hne⟩)
  have hend : endTag s (b :: more) = .absent := by
    simp [endTag, hslash, literal, Ne.symm hne, Piece.andThen]
  have hstart : startTag s (b :: more) = .absent := by
    simp [startTag, startTagName, hangle, literal, Ne.symm hne, Piece.andThen]
  simp only [angled, habsent, hend, hstart, Piece.orElse]

theorem angled_text (s : Supply) (hne : value ≠ []) (hv : ∀ b ∈ value, isNotOpening b = true)
    (rest : Bytes) : angled s (value ++ rest) = .absent := by
  obtain ⟨b, more, rfl⟩ := List.exists_cons_of_ne_nil hne
  exact angled_absent s (hv b List.mem_cons_self) (more ++ rest)

/-- What begins with `<` is no text. -/
theorem plainText_absent (s : Supply) (rest : Bytes) : plainText s (0x3C :: rest) = .absent := by
  simp [plainText, run1, isNotOpening, Piece.map, Piece.andThen]

/-- Where bytes that begin with `<` do not tell yet whether there is a token, a tag or something
enclosed is cut off. -/
theorem angled_cutOff {rest : Bytes} (h : scan (0x3C :: rest) = .cutOff) :
    angled .arriving (0x3C :: rest) = .cutOff := by
  cases ha : angled .arriving (0x3C :: rest) <;>
    simp_all [scan, Supply.scan, plainText_absent, Piece.orElse, Piece.toScan]

/-- Text goes on to the next tag. -/
theorem scan_text (hne : value ≠ []) (hv : ∀ b ∈ value, isNotOpening b = true) {rest : Bytes}
    (hr : Stops isNotOpening rest) : scan (value ++ rest) = .token (.text value) rest := by
  simp only [scan, Supply.scan, angled_text _ hne hv rest, plainText, run1_append hne hv hr,
    Piece.map, Piece.andThen, Piece.orElse, Piece.toScan]

/-- A run that reaches the end of the bytes ends there if no more of them follow. -/
theorem run_atEnd {p : UInt8 → Bool} (hv : ∀ b ∈ value, p b = true) (s : Supply) :
    run s p value = s.atEnd (.found value []) := by
  induction value with
  | nil => rfl
  | cons b more ih =>
    obtain ⟨hb, hmore⟩ := List.forall_mem_cons.1 hv
    cases s <;> simp [run, hb, ih hmore, Piece.map, Piece.andThen]

theorem plainText_atEnd (hne : value ≠ []) (hv : ∀ b ∈ value, isNotOpening b = true) (s : Supply) :
    plainText s value = s.atEnd (.found (.text value) []) := by
  obtain ⟨b, more, rfl⟩ := List.exists_cons_of_ne_nil hne
  obtain ⟨hb, hmore⟩ := List.forall_mem_cons.1 hv
  cases s <;> simp [plainText, run1, hb, run_atEnd hmore, Piece.map, Piece.andThen]

/-- Text at the end of what has arrived may go on. -/
theorem scan_text_cutOff (hne : value ≠ []) (hv : ∀ b ∈ value, isNotOpening b = true) :
    scan value = .cutOff := by
  have hangled := angled_text .arriving hne hv []
  rw [List.append_nil] at hangled
  simp only [scan, Supply.scan, hangled, plainText_atEnd hne hv, Supply.atEnd_arriving,
    Piece.orElse, Piece.toScan]

/-- Text at the end of the document is complete. -/
theorem scan_text_ended (hne : value ≠ []) (hv : ∀ b ∈ value, isNotOpening b = true) :
    Supply.ended.scan value = .token (.text value) [] := by
  have hangled := angled_text .ended hne hv []
  rw [List.append_nil] at hangled
  simp only [Supply.scan, hangled, plainText_atEnd hne hv, Supply.atEnd_ended,
    Piece.orElse, Piece.toScan]

end text

end KeyLayout.Markup
