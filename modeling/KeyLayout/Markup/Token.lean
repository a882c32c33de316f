import KeyLayout.Markup.Piece

/-! The tokens of a markup document, recognised at the front of the bytes that have arrived. Until
the last of them have, a token is said to be cut off where they do not tell whether there is one. -/
namespace KeyLayout.Markup

inductive Token where
  | startTag (name : Bytes) (attributes : List (Bytes × Bytes)) (empty : Bool)
  | endTag (name : Bytes)
  /-- Text in which references are still to be expanded. -/
  | text (raw : Bytes)
  /-- Text that stands for itself. -/
  | verbatim (raw : Bytes)
  /-- A comment, a processing instruction or a document type declaration. -/
  | skipped
  deriving DecidableEq, Repr

def isNameByte (b : UInt8) : Bool :=
  (0x30 ≤ b && b ≤ 0x39) || (0x41 ≤ b && b ≤ 0x5A) || (0x61 ≤ b && b ≤ 0x7A) ||
  b == 0x2D || b == 0x5F || b == 0x3A || b == 0x2E || 0x80 ≤ b

def isSpaceByte (b : UInt8) : Bool := b == 0x20 || b == 0x09 || b == 0x0D || b == 0x0A

def isNotOpening (b : UInt8) : Bool := b != 0x3C

/-- A construct that runs from its opening to the first occurrence of its closing. -/
structure Enclosure where
  construct : Construct
  opening : Bytes
  closing : Bytes
  token : Bytes → Token

def comment : Enclosure := ⟨.comment, ascii "<!--", ascii "-->", fun _ => .skipped⟩
def verbatimSection : Enclosure := ⟨.verbatim, ascii "<![CDATA[", ascii "]]>", .verbatim⟩
def typeDeclaration : Enclosure :=
  ⟨.typeDeclaration, ascii "<!DOCTYPE", ascii ">", fun _ => .skipped⟩
def instruction : Enclosure := ⟨.instruction, ascii "<?", ascii "?>", fun _ => .skipped⟩

def Enclosure.scan (s : Supply) (e : Enclosure) (input : Bytes) : Piece Token :=
  (literal s e.opening input).andThen fun _ input =>
    ((upTo s e.closing input).map e.token).orBroken e.construct

/-- A value in the quotes it begins with. -/
def quoted (s : Supply) (input : Bytes) : Piece Bytes :=
  ((literal s (ascii "\"") input).andThen fun _ input => upTo s (ascii "\"") input).orElse
    ((literal s (ascii "'") input).andThen fun _ input => upTo s (ascii "'") input)

/-- Blanks, a name, an equals sign and a quoted value. -/
def oneAttribute (s : Supply) (input : Bytes) : Piece (Bytes × Bytes) :=
  (run1 s isSpaceByte input).andThen fun _ input =>
  (run1 s isNameByte input).andThen fun name input =>
  (run s isSpaceByte input).andThen fun _ input =>
  (literal s (ascii "=") input).andThen fun _ input =>
  (run s isSpaceByte input).andThen fun _ input =>
  (quoted s input).map fun value => (name, value)

theorem keeps_quoted (s : Supply) : Keeps (quoted s) := by
  intro input value rest h
  unfold quoted at h
  rcases Piece.orElse_eq_found h with h | h
  all_goals
    obtain ⟨_, mid, h₁, h₂⟩ := Piece.andThen_eq_found.1 h
    exact Nat.le_trans (keeps_upTo s _ h₂) (keeps_literal s _ h₁)

theorem advances_oneAttribute (s : Supply) : Advances (oneAttribute s) := by
  intro input value rest h
  unfold oneAttribute at h
  obtain ⟨_, _, h₁, h⟩ := Piece.andThen_eq_found.1 h
  obtain ⟨_, _, h₂, h⟩ := Piece.andThen_eq_found.1 h
  obtain ⟨_, _, h₃, h⟩ := Piece.andThen_eq_found.1 h
  obtain ⟨_, _, h₄, h⟩ := Piece.andThen_eq_found.1 h
  obtain ⟨_, _, h₅, h⟩ := Piece.andThen_eq_found.1 h
  obtain ⟨_, h₆, _⟩ := Piece.map_eq_found.1 h
  have := advances_run1 s _ h₁
  have := advances_run1 s _ h₂
  have := keeps_run s _ h₃
  have := keeps_literal s _ h₄
  have := keeps_run s _ h₅
  have := keeps_quoted s h₆
  omega

/-- As many attributes as there are. -/
def attributes (s : Supply) (input : Bytes) : Piece (List (Bytes × Bytes)) :=
  match h : oneAttribute s input with
  | .found value rest =>
    have := advances_oneAttribute s h
    (attributes s rest).map (value :: ·)
  | .absent => .found [] input
  | .broken construct => .broken construct
  | .cutOff => .cutOff
termination_by input.length

/-- What stands behind the name in a start tag. -/
def startTagRest (s : Supply) (name input : Bytes) : Piece Token :=
  (attributes s input).andThen fun attributes input =>
  (run s isSpaceByte input).andThen fun _ input =>
  ((literal s (ascii "/>") input).map fun _ => Token.startTag name attributes true).orElse
    ((literal s (ascii ">") input).map fun _ => Token.startTag name attributes false)

def startTagName (s : Supply) (input : Bytes) : Piece Bytes :=
  (literal s (ascii "<") input).andThen fun _ input => run1 s isNameByte input

/-- A start tag; once its name has been read, it is that or broken. -/
def startTag (s : Supply) (input : Bytes) : Piece Token :=
  (startTagName s input).andThen fun name input => (startTagRest s name input).orBroken .start

/-- What stands behind `</` in an end tag. -/
def endTagRest (s : Supply) (input : Bytes) : Piece Token :=
  (run1 s isNameByte input).andThen fun name input =>
  (run s isSpaceByte input).andThen fun _ input =>
  (literal s (ascii ">") input).map fun _ => Token.endTag name

def endTag (s : Supply) (input : Bytes) : Piece Token :=
  (literal s (ascii "</") input).andThen fun _ input => (endTagRest s input).orBroken .stop

def enclosed (s : Supply) (input : Bytes) : Piece Token :=
  (((comment.scan s input).orElse (verbatimSection.scan s input)).orElse
    (typeDeclaration.scan s input)).orElse (instruction.scan s input)

/-- What begins with `<`. -/
def angled (s : Supply) (input : Bytes) : Piece Token :=
  ((enclosed s input).orElse (endTag s input)).orElse (startTag s input)

/-- Text, up to the next `<`. -/
def plainText (s : Supply) (input : Bytes) : Piece Token :=
  (run1 s isNotOpening input).map Token.text

/-- The front of the bytes as a token. -/
inductive Scan where
  | token (token : Token) (rest : Bytes)
  | cutOff
  | malformed (construct : Option Construct)
  deriving DecidableEq, Repr

def Piece.toScan : Piece Token → Scan
  | .found token rest => .token token rest
  | .absent => .malformed none
  | .broken construct => .malformed (some construct)
  | .cutOff => .cutOff

/-- The token at the front of the bytes. -/
def Supply.scan (s : Supply) (input : Bytes) : Scan :=
  ((angled s input).orElse (plainText s input)).toScan

/-- The token at the front of bytes that more bytes may follow. -/
def scan (input : Bytes) : Scan := Supply.arriving.scan input

theorem advances_enclosure (s : Supply) (e : Enclosure) (h : e.opening ≠ []) :
    Advances (e.scan s) := by
  intro input value rest hs
  unfold Enclosure.scan at hs
  obtain ⟨_, _, h₁, h₂⟩ := Piece.andThen_eq_found.1 hs
  obtain ⟨_, h₂, _⟩ := Piece.map_eq_found.1 (Piece.orBroken_eq_found.1 h₂)
  obtain ⟨b, bs, hb⟩ := List.exists_cons_of_ne_nil h
  rw [hb] at h₁
  exact Nat.lt_of_le_of_lt (keeps_upTo s _ h₂) (advances_literal s _ h₁)

theorem advances_orElse {α : Type} {f g : Bytes → Piece α} (hf : Advances f) (hg : Advances g) :
    Advances fun input => (f input).orElse (g input) := by
  intro input value rest h
  rcases Piece.orElse_eq_found h with h | h
  · exact hf h
  · exact hg h

theorem advances_enclosed (s : Supply) : Advances (enclosed s) :=
  advances_orElse
    (advances_orElse
      (advances_orElse (advances_enclosure s comment (by decide))
        (advances_enclosure s verbatimSection (by decide)))
      (advances_enclosure s typeDeclaration (by decide)))
    (advances_enclosure s instruction (by decide))

theorem keeps_attributes (s : Supply) : Keeps (attributes s) := by
  intro input
  induction hn : input.length using Nat.strongRecOn generalizing input with
  | _ n ih =>
    intro value rest h
    subst hn
    rw [attributes] at h
    split at h
    next value' mid ha =>
      obtain ⟨_, h, _⟩ := Piece.map_eq_found.1 h
      have := advances_oneAttribute s ha
      have := ih mid.length this rfl h
      omega
    next => simp_all
    next => simp at h
    next => simp at h

theorem keeps_startTagRest (s : Supply) (name : Bytes) : Keeps (startTagRest s name) := by
  intro input value rest h
  unfold startTagRest at h
  obtain ⟨_, _, h₁, h⟩ := Piece.andThen_eq_found.1 h
  obtain ⟨_, _, h₂, h⟩ := Piece.andThen_eq_found.1 h
  have := keeps_attributes s h₁
  have := keeps_run s _ h₂
  rcases Piece.orElse_eq_found h with h | h
  all_goals
    obtain ⟨_, h, _⟩ := Piece.map_eq_found.1 h
    have := keeps_literal s _ h
    omega

theorem advances_startTag (s : Supply) : Advances (startTag s) := by
  intro input value rest h
  obtain ⟨_, _, hname, h⟩ := Piece.andThen_eq_found.1 h
  obtain ⟨_, _, hopen, hrun⟩ := Piece.andThen_eq_found.1 hname
  have := keeps_literal s _ hopen
  have := advances_run1 s _ hrun
  have := keeps_startTagRest s _ (Piece.orBroken_eq_found.1 h)
  omega

theorem keeps_endTagRest (s : Supply) : Keeps (endTagRest s) := by
  intro input value rest h
  unfold endTagRest at h
  obtain ⟨_, _, h₁, h⟩ := Piece.andThen_eq_found.1 h
  obtain ⟨_, _, h₂, h⟩ := Piece.andThen_eq_found.1 h
  obtain ⟨_, h₃, _⟩ := Piece.map_eq_found.1 h
  have := advances_run1 s _ h₁
  have := keeps_run s _ h₂
  have := keeps_literal s _ h₃
  omega

theorem advances_endTag (s : Supply) : Advances (endTag s) := by
  intro input value rest h
  obtain ⟨_, _, hopen, h⟩ := Piece.andThen_eq_found.1 h
  exact Nat.lt_of_le_of_lt (keeps_endTagRest s (Piece.orBroken_eq_found.1 h))
    (advances_literal s _ hopen)

theorem advances_plainText (s : Supply) : Advances (plainText s) := by
  intro input value rest h
  obtain ⟨_, h, _⟩ := Piece.map_eq_found.1 h
  exact advances_run1 s _ h

theorem Piece.toScan_eq_token {piece : Piece Token} {token : Token} {rest : Bytes} :
    piece.toScan = .token token rest ↔ piece = .found token rest := by
  cases piece <;> simp [Piece.toScan]

/-- Every token takes at least one byte. -/
theorem Supply.length_lt_of_scan {s : Supply} {input rest : Bytes} {token : Token}
    (h : s.scan input = .token token rest) : rest.length < input.length :=
  advances_orElse
    (advances_orElse (advances_orElse (advances_enclosed s) (advances_endTag s))
      (advances_startTag s))
    (advances_plainText s) (Piece.toScan_eq_token.1 h)

theorem length_lt_of_scan {input rest : Bytes} {token : Token}
    (h : scan input = .token token rest) : rest.length < input.length :=
  Supply.length_lt_of_scan h

end KeyLayout.Markup
