import KeyLayout.Proofs.Markup.Cuts
import KeyLayout.Proofs.Markup.Meaning
import KeyLayout.Proofs.Markup.References
import KeyLayout.Proofs.Markup.Scanning

/-! What is written of a tree is read back. -/
namespace KeyLayout.Markup
open Utf8

section bytes
variable {c : Char} {cs : List Char} {b : UInt8}

theorem exists_mem_of_mem_encodeChars (h : b ∈ encodeChars cs) :
    ∃ c ∈ cs, b ∈ String.utf8EncodeChar c :=
  List.mem_flatMap.1 h

theorem not_mem_encodeChars (hc : c.toNat < 128) (h : c ∉ cs) :
    c.toNat.toUInt8 ∉ encodeChars cs := by
  intro hmem
  obtain ⟨d, hd, hb⟩ := exists_mem_of_mem_encodeChars hmem
  have hnat : c.toNat.toUInt8.toNat = c.toNat := toNat_toUInt8 (by omega)
  rcases mem_utf8EncodeChar hb with ⟨-, hsame⟩ | ⟨-, hhigh⟩
  · have hcd : c = d := Char.toNat_inj.1 (hnat.symm.trans hsame)
    exact h (hcd ▸ hd)
  · omega

theorem isNameByte_of_isNameChar (hc : IsNameChar c) (hb : b ∈ String.utf8EncodeChar c) :
    isNameByte b = true := by
  have hbyte : isNameByte b = true ↔ (48 ≤ b.toNat ∧ b.toNat ≤ 57) ∨ (65 ≤ b.toNat ∧ b.toNat ≤ 90) ∨
      (97 ≤ b.toNat ∧ b.toNat ≤ 122) ∨ b.toNat ∈ [45, 95, 58, 46] ∨ 128 ≤ b.toNat := by
    simp only [isNameByte, Bool.or_eq_true, Bool.and_eq_true, decide_eq_true_eq, beq_iff_eq,
      UInt8.le_iff_toNat_le, ← UInt8.toNat_inj, List.mem_cons, List.not_mem_nil, or_false]
    simp only [UInt8.reduceToNat]
    omega
  rw [hbyte]
  rcases mem_utf8EncodeChar hb with ⟨hlow, hsame⟩ | ⟨-, hhigh⟩
  · rw [hsame]
    rcases hc with halnum | hmark | hhigh
    · have hrange := Number.toNat_of_isAlphanum halnum
      omega
    · simp only [List.mem_cons, List.not_mem_nil, or_false] at hmark
      rcases hmark with rfl | rfl | rfl | rfl <;> decide
    · omega
  · omega

theorem forall_isNameByte {name : String} (h : IsName name) :
    ∀ b ∈ encodeChars name.toList, isNameByte b = true := by
  intro b hb
  obtain ⟨c, hc, hb⟩ := exists_mem_of_mem_encodeChars hb
  exact isNameByte_of_isNameChar (h.2 c hc) hb

theorem encodeChars_ne_nil (h : cs ≠ []) : encodeChars cs ≠ [] := by
  obtain ⟨c, more, rfl⟩ := List.exists_cons_of_ne_nil h
  simp

theorem forall_isSpaceByte (h : IsSpace cs) : ∀ b ∈ encodeChars cs, isSpaceByte b = true := by
  intro b hb
  obtain ⟨c, hc, hb⟩ := exists_mem_of_mem_encodeChars hb
  have hspace : c.toNat < 128 ∧ isSpaceByte c.toNat.toUInt8 = true := by
    have hmem := h c hc
    simp only [List.mem_cons, List.not_mem_nil, or_false] at hmem
    rcases hmem with rfl | rfl | rfl | rfl <;> decide
  rw [utf8EncodeChar_ascii hspace.1, List.mem_singleton] at hb
  exact hb ▸ hspace.2

theorem forall_isNotOpening (h : '<' ∉ cs) : ∀ b ∈ encodeChars cs, isNotOpening b = true := by
  intro b hb
  have hne : b ≠ 0x3C := by
    rintro rfl
    exact not_mem_encodeChars (by decide) h hb
  simp [isNotOpening, hne]

theorem not_infix_encodeChars {k : List Char} (hk : ∀ c ∈ k, c.toNat < 128) (h : ¬k <:+: cs) :
    ¬encodeChars k <:+: encodeChars cs := fun hi => h (infix_of_encodeChars hk hi)

end bytes

theorem decodeText_encodeChars (offset : Nat) (cs : List Char) :
    decodeText offset (encodeChars cs) = .ok (String.ofList cs) := by
  rw [decodeText_eq_ok, decode_encodeChars]

theorem expandText_of_expandChars {t written : List Char} (h : expandChars written = .ok t)
    (offset : Nat) : expandText offset (String.ofList written) = .ok (String.ofList t) := by
  simp [expandText_eq_ok, expand, h, Except.map]

theorem expandText_escaped {special : Char} {t written : List Char} (h : Escaped special t written)
    (offset : Nat) : expandText offset (String.ofList written) = .ok (String.ofList t) :=
  expandText_of_expandChars (expandChars_escaped h) offset

/-- With `rest` behind it, `front` is read to its end, and tells these events. -/
def ReadsAt (n : Nesting) (front rest : Bytes) (events : List Event) (n' : Nesting) : Prop :=
  ∀ offset, ({ pending := front ++ rest, offset, nesting := n } : Reader).drain =
    Batch.andThen ⟨events, .ok { pending := rest, offset := offset + front.length, nesting := n' }⟩
      Reader.drain

section reads
variable {n n' last : Nesting} {front back rest : Bytes} {events more : List Event}

theorem readsAt_nil (n : Nesting) (rest : Bytes) : ReadsAt n [] rest [] n := by
  intro offset
  simp

theorem ReadsAt.append (h : ReadsAt n front (back ++ rest) events n') (hb : ReadsAt
    n' back rest more last) :
    ReadsAt n (front ++ back) rest (events ++ more) last := by
  intro offset
  rw [List.append_assoc, h offset, Batch.ok_andThen, hb]
  simp [Nat.add_assoc]

theorem readsAt_token {token : Token} (hs : scan (front ++ rest) = .token token rest)
    (hi : ∀ offset, n.interpret offset token = .ok (events, n')) : ReadsAt n
      front rest events n' := by
  intro offset
  rw [Reader.drain_token (r := { pending := front ++ rest, offset, nesting := n }) hs (hi offset)]
  simp [Reader.behind]

end reads

section asides
variable {m : List Char}

/-- The bytes of an enclosed text are those of its enclosure. -/
theorem scan_enclosure {e : Enclosure} {opening closing t : List Char}
    (hopening : encodeChars opening = e.opening)
    (hclosing : encodeChars closing = e.closing) (hascii : ∀ c ∈ closing, c.toNat < 128)
    (ht : ¬closing <:+: t) (hscan : ∀ {value}, ¬e.closing <:+: value →
      ∀ rest, scan (e.opening ++ (value ++ (e.closing ++ rest))) = .token (e.token value) rest)
      (rest : Bytes) :
    scan (encodeChars (opening ++ (t ++ closing)) ++ rest) =
      .token (e.token (encodeChars t)) rest := by
  have hv : ¬e.closing <:+: encodeChars t := hclosing ▸ not_infix_encodeChars hascii ht
  simpa only [encodeChars_append, hopening, hclosing, List.append_assoc] using hscan hv rest

/-- The bytes of something passed over are one token. -/
theorem scan_aside (h : Aside m) (rest : Bytes) :
    scan (encodeChars m ++ rest) = .token .skipped rest := by
  cases h with
  | comment ht =>
    exact scan_enclosure (e := comment) (by decide) (by decide) (by simp) ht scan_comment rest
  | instruction ht =>
    exact scan_enclosure (e := instruction) (by decide) (by decide) (by simp) ht
      scan_instruction rest
  | @typeDeclaration t ht =>
    have hinfix : ¬['>'] <:+: t := by simpa [List.singleton_infix_iff] using ht
    exact scan_enclosure (e := typeDeclaration) (by decide) (by decide) (by simp) hinfix
      scan_typeDeclaration rest

theorem readsAt_aside (h : Aside m) (n : Nesting) (rest : Bytes) :
    ReadsAt n (encodeChars m) rest [] n :=
  readsAt_token (scan_aside h rest) fun _ => rfl

/-- Whatever is passed over begins like a tag, where text stops. -/
theorem stops_aside (h : Aside m) (rest : Bytes) : Stops isNotOpening (encodeChars m ++ rest) := by
  have hbyte : isNotOpening 0x3C = false := by decide
  cases h with
  | comment => exact stops_cons hbyte _
  | instruction => exact stops_cons hbyte _
  | typeDeclaration => exact stops_cons hbyte _

end asides

section tags
variable {name : String} {a : Attributes} {empty : Bool} {tag : List Char} {n : Nesting}

theorem Attributes.insert?_of_not_mem {known : Attributes} {key value : String}
    (h : key ∉ known.entries.map (·.1)) :
    known.insert? key value = some ⟨known.entries ++ [(key, value)]⟩ := by
  have hnone : known.get? key = none := by
    refine List.lookup_eq_none_iff.2 fun entry hentry => ?_
    have hne : key ≠ entry.1 := fun heq => h (heq ▸ List.mem_map_of_mem hentry)
    simpa using hne
  rw [insert?, hnone]

/-- The attributes of a tag are read back behind those that are known, and what is
written of them begins no name. -/
theorem AttributesText.read {entries : List (String × String)} {written : List Char}
    (h : AttributesText entries written) (hnames : ∀ entry ∈ entries, IsName entry.1) {tail : Bytes}
    (htail : oneAttribute .arriving tail = .absent) (hstop : Stops isNameByte tail) :
    Stops isNameByte (encodeChars written ++ tail) ∧
      ∃ raw, attributes .arriving (encodeChars written ++ tail) = .found raw tail ∧
        ∀ offset element (known : Attributes), ((known.entries ++ entries).map (·.1)).Nodup →
          readAttributes offset element known raw = .ok ⟨known.entries ++ entries⟩ := by
  induction h with
  | nil =>
    refine ⟨hstop, [], ?_, fun _ _ known _ => by simp [readAttributes]⟩
    rw [encodeChars_nil, List.nil_append, attributes_eq, htail]
  | @cons key value more before left right written rest quote hbefore hne hleft hright hquote
      hvalue _ ih =>
    obtain ⟨hkey, hnames⟩ := List.forall_mem_cons.1 hnames
    obtain ⟨-, raw, hraw, hread⟩ := ih hnames
    have hq : quote.toNat < 128 ∧ (quote.toNat.toUInt8 = 0x22 ∨ quote.toNat.toUInt8 = 0x27) ∧
        quote ∉ written := by
      rcases hquote with rfl | rfl
      · exact ⟨by decide, by decide, hvalue.not_mem (by decide) (by decide)⟩
      · exact ⟨by decide, by decide, hvalue.not_mem (by decide) (by decide)⟩
    have hone :=
      oneAttribute_append (forall_isSpaceByte hbefore) (encodeChars_ne_nil hne)
        (forall_isNameByte hkey)
      (encodeChars_ne_nil hkey.1) (forall_isSpaceByte hleft) (forall_isSpaceByte hright) hq.2.1
      (not_mem_encodeChars hq.1 hq.2.2) (encodeChars rest ++ tail)
    have hquoteByte := encodeChars_cons_byte (c := quote) ⟨hq.1, rfl⟩
    have hequals := encodeChars_cons_byte (c := '=') (b := 0x3D) (by decide)
    have hbytes :
        encodeChars
          (before ++
            (key.toList ++ (left ++ '=' :: (right ++ quote :: (written ++ quote :: rest))))) ++
        tail = encodeChars before ++
        (encodeChars key.toList ++ (encodeChars left ++ 0x3D :: (encodeChars right ++
          quote.toNat.toUInt8 ::
            (encodeChars written ++ quote.toNat.toUInt8 :: (encodeChars rest ++ tail))))) := by
      simp only [encodeChars_append, hquoteByte, hequals, List.append_assoc, List.cons_append]
    rw [hbytes]
    refine ⟨?_, (encodeChars key.toList, encodeChars written) :: raw, ?_,
      fun offset element known hdistinct => ?_⟩
    · obtain ⟨b, front, hb⟩ := List.exists_cons_of_ne_nil (encodeChars_ne_nil hne)
      have hspace := forall_isSpaceByte hbefore b (by simp [hb])
      rw [hb]
      exact stops_cons (not_isNameByte hspace) _
    · rw [attributes_eq, hone]
      simp only [hraw]
      rfl
    · have hnew : key ∉ known.entries.map (·.1) := by
        simp only [List.map_append, List.map_cons, List.nodup_append] at hdistinct
        intro hmem
        exact hdistinct.2.2 key hmem key List.mem_cons_self rfl
      simp only [readAttributes, decodeText_encodeChars, ok_bind, expandText_escaped hvalue,
        String.ofList_toList, Attributes.insert?_of_not_mem hnew]
      rw [hread _ _ _ (by simpa using hdistinct)]
      simp

/-- A start tag is read back, with the events of its element if it is empty. -/
theorem readsAt_startTag (h : StartTag name a empty tag) (hp : ProperElement name a)
    (hroot : n.path = [] → n.rootSeen = false) (rest : Bytes) :
    ReadsAt n (encodeChars tag) rest
      (.start name a n.path :: if empty then [.stop name n.path] else [])
      { path := if empty then n.path else name :: n.path, rootSeen := true } := by
  obtain ⟨ha, hs⟩ := h
  next attributes space =>
  have hend : encodeChars (if empty then ['/', '>'] else ['>']) = tagEnd empty := by
    cases empty <;> decide
  have hstop := stops_space (forall_isSpaceByte hs)
    (stops_tagEnd (p := isNameByte) (by decide) (by decide) empty rest)
  have htail := oneAttribute_absent (forall_isSpaceByte hs)
    (stops_tagEnd (p := isSpaceByte) (by decide) (by decide) empty rest)
    (stops_tagEnd (p := isNameByte) (by decide) (by decide) empty rest)
  obtain ⟨hnext, raw, hraw, hread⟩ := ha.read hp.attributes htail hstop
  have hscan := scan_startTag (encodeChars_ne_nil hp.name.1) (forall_isNameByte hp.name) hnext hraw
    (forall_isSpaceByte hs)
  have hopen := encodeChars_cons_byte (c := '<') (b := 0x3C) (by decide)
  have htoken :
      scan (encodeChars
        ('<' :: (name.toList ++ (attributes ++ (space ++ if empty then ['/', '>'] else ['>'])))) ++
      rest) = .token (.startTag (encodeChars name.toList) raw empty) rest := by
    simpa only [encodeChars_append, hopen, hend, List.cons_append, List.append_assoc] using hscan
  refine readsAt_token htoken fun offset => ?_
  have hname : decodeText offset (encodeChars name.toList) = .ok name := by
    simp [decodeText_encodeChars]
  have hattributes : readAttributes offset name {} raw = .ok a :=
    hread offset name {} (by simpa using hp.distinct)
  cases empty with
  | false => exact (Nesting.Means.startTag hroot hname hattributes).interpret
  | true => exact (Nesting.Means.emptyTag hroot hname hattributes).interpret

theorem readsAt_endTag {close : List Char} (h : EndTag name close) (hname : IsName name)
    (path : List String) (rootSeen : Bool) (rest : Bytes) :
    ReadsAt { path := name :: path, rootSeen } (encodeChars close) rest [.stop name path]
      { path, rootSeen } := by
  obtain ⟨hs⟩ := h
  next space =>
  have hscan :=
    scan_endTag (encodeChars_ne_nil hname.1) (forall_isNameByte hname) (forall_isSpaceByte hs) rest
  have hopen := encodeChars_cons_byte (c := '<') (b := 0x3C) (by decide)
  have hslash := encodeChars_cons_byte (c := '/') (b := 0x2F) (by decide)
  have hangle := encodeChars_cons_byte (c := '>') (b := 0x3E) (by decide)
  have htoken : scan (encodeChars ('<' :: '/' :: (name.toList ++ (space ++ ['>']))) ++ rest) =
      .token (.endTag (encodeChars name.toList)) rest := by
    simpa only [encodeChars_append, encodeChars_nil, hopen, hslash, hangle, List.cons_append,
      List.nil_append, List.append_assoc] using hscan
  exact readsAt_token htoken fun offset =>
    (Nesting.Means.endTag rfl (by simp [decodeText_encodeChars])).interpret

theorem stops_startTag (h : StartTag name a empty tag) (rest : Bytes) :
    Stops isNotOpening (encodeChars tag ++ rest) := by
  obtain ⟨-, -⟩ := h
  exact stops_cons (b := 0x3C) (by decide) _

theorem stops_endTag {close : List Char} (h : EndTag name close) (rest : Bytes) :
    Stops isNotOpening (encodeChars close ++ rest) := by
  obtain ⟨-⟩ := h
  exact stops_cons (b := 0x3C) (by decide) _

end tags

section text
variable {n : Nesting} {t written : List Char} {rest : Bytes}

def textEvents (path : List String) (texts : List String) : List Event := texts.map (.text · path)

/-- Text goes on to the next tag, and says that for which it stands. -/
theorem readsAt_expanded (ht : expandChars written = .ok t) (hw : '<' ∉ written)
    (hpath : n.path ≠ [])
    (hr : Stops isNotOpening rest) : ∃ texts : List String, texts.flatMap String.toList = t ∧
      ReadsAt n (encodeChars written) rest (textEvents n.path texts) n := by
  by_cases hne : written = []
  · subst hne
    obtain rfl : [] = t := by simpa [expandChars] using ht
    exact ⟨[], rfl, readsAt_nil n rest⟩
  · have hscan := scan_text (encodeChars_ne_nil hne) (forall_isNotOpening hw) hr
    refine ⟨[String.ofList t], by simp, readsAt_token hscan fun offset => ?_⟩
    exact (Nesting.Means.text hpath (decodeText_encodeChars _ _)
      (expandText_of_expandChars ht offset)).interpret

theorem readsAt_escaped (h : Escaped '<' t written) (hpath : n.path ≠ [])
    (hr : Stops isNotOpening rest) :
    ∃ texts : List String, texts.flatMap String.toList = t ∧
      ReadsAt n (encodeChars written) rest (textEvents n.path texts) n :=
  readsAt_expanded (expandChars_escaped h) (h.not_mem (by decide) (by decide)) hpath hr

theorem readsAt_verbatim {v : List Char} (hv : ¬[']', ']', '>'] <:+: v) (hpath : n.path ≠ [])
    (rest : Bytes) :
    ReadsAt n (encodeChars ("<![CDATA[".toList ++ (v ++ [']', ']', '>']))) rest
      (textEvents n.path [String.ofList v]) n := by
  have hopening : encodeChars "<![CDATA[".toList = verbatimSection.opening := by decide
  exact readsAt_token
    (scan_enclosure hopening (by decide) (by simp) hv scan_verbatim rest) fun offset =>
    (Nesting.Means.verbatim hpath (decodeText_encodeChars offset v)).interpret

/-- Text is read back in parts. -/
theorem readsAt_text (h : TextOf t written) (hpath : n.path ≠ []) (hr : Stops isNotOpening rest) :
    ∃ texts : List String, texts.flatMap String.toList = t ∧
      ReadsAt n (encodeChars written) rest (textEvents n.path texts) n := by
  induction h with
  | escaped h => exact readsAt_escaped h hpath hr
  | @verbatim t v t' written written' h hv _ ih =>
    obtain ⟨later, hlater, hmore⟩ := ih
    have hstop : Stops isNotOpening
        (encodeChars ("<![CDATA[".toList ++ (v ++ [']', ']', '>']) ++ written') ++ rest) :=
      stops_cons (b := 0x3C) (by decide) _
    obtain ⟨texts, htexts, hfirst⟩ := readsAt_escaped h hpath hstop
    refine ⟨texts ++ String.ofList v :: later, by simp [htexts, hlater], ?_⟩
    rw [encodeChars_append] at hfirst ⊢
    simpa [textEvents] using hfirst.append ((readsAt_verbatim hv hpath _).append hmore)
  | @aside t t' written m written' h hm _ ih =>
    obtain ⟨later, hlater, hmore⟩ := ih
    have hstop : Stops isNotOpening (encodeChars (m ++ written') ++ rest) := by
      rw [encodeChars_append, List.append_assoc]
      exact stops_aside hm _
    obtain ⟨texts, htexts, hfirst⟩ := readsAt_escaped h hpath hstop
    refine ⟨texts ++ later, by simp [htexts, hlater], ?_⟩
    rw [encodeChars_append] at hfirst ⊢
    simpa [textEvents] using hfirst.append ((readsAt_aside hm n _).append hmore)

end text

end KeyLayout.Markup
