/-! Scanning the front of a byte sequence, of which only a beginning may have arrived. -/
namespace KeyLayout.Markup

abbrev Bytes := List UInt8

/-- The bytes of an ASCII text. -/
def ascii (text : String) : Bytes := text.toList.map fun c => c.toNat.toUInt8

/-- Whether more bytes can follow those that have arrived. -/
inductive Supply where
  | arriving
  | ended
  deriving DecidableEq, Repr

/-- What begins with `<` and has a closing of its own. -/
inductive Construct where
  | start
  | stop
  | comment
  | verbatim
  | typeDeclaration
  | instruction
  deriving DecidableEq, Repr

/-- What the front of the bytes holds: a piece with the bytes behind it, certainly no such piece, a
construct that has begun and does not go on as it must, or too few bytes to tell. -/
inductive Piece (α : Type) where
  | found (value : α) (rest : Bytes)
  | absent
  | broken (construct : Construct)
  | cutOff
  deriving DecidableEq

/-- What is said where the bytes come to their end: nothing yet, unless none follow. -/
def Supply.atEnd {α : Type} (s : Supply) (last : Piece α) : Piece α :=
  match s with
  | .arriving => .cutOff
  | .ended => last

@[simp] theorem Supply.atEnd_arriving {α : Type} (last : Piece α) :
    Supply.arriving.atEnd last = .cutOff := rfl

@[simp] theorem Supply.atEnd_ended {α : Type} (last : Piece α) :
    Supply.ended.atEnd last = last := rfl

namespace Piece
variable {α β : Type}

/-- Scans on behind the piece. -/
def andThen (piece : Piece α) (next : α → Bytes → Piece β) : Piece β :=
  match piece with
  | .found value rest => next value rest
  | .absent => .absent
  | .broken construct => .broken construct
  | .cutOff => .cutOff

def map (f : α → β) (piece : Piece α) : Piece β :=
  piece.andThen fun value rest => .found (f value) rest

/-- The second choice counts only if the first is certainly absent. -/
def orElse (piece : Piece α) (other : Piece α) : Piece α :=
  match piece with
  | .absent => other
  | piece => piece

/-- A piece that must be there, as the construct that it belongs to has begun. -/
def orBroken (construct : Construct) (piece : Piece α) : Piece α :=
  match piece with
  | .absent => .broken construct
  | piece => piece

end Piece

/-- The given bytes. -/
def literal (s : Supply) : Bytes → Bytes → Piece Unit
  | [], input => .found () input
  | _ :: _, [] => s.atEnd .absent
  | b :: bs, c :: input => if b = c then literal s bs input else .absent

/-- The longest run of bytes that satisfy `p`. Its end is known by the byte behind
it, or if no byte follows. -/
def run (s : Supply) (p : UInt8 → Bool) : Bytes → Piece Bytes
  | [] => s.atEnd (.found [] [])
  | b :: input => if p b then (run s p input).map (b :: ·) else .found [] (b :: input)

/-- A run of at least one byte. -/
def run1 (s : Supply) (p : UInt8 → Bool) : Bytes → Piece Bytes
  | [] => s.atEnd .absent
  | b :: input => if p b then (run s p input).map (b :: ·) else .absent

/-- The bytes before the first occurrence of `closing`, which is passed over. -/
def upTo (s : Supply) (closing : Bytes) : Bytes → Piece Bytes
  | [] => s.atEnd .absent
  | b :: input =>
    if closing.isPrefixOf (b :: input) then .found [] ((b :: input).drop closing.length)
    else (upTo s closing input).map (b :: ·)

/-- The scanner takes at least one byte where it finds a piece. -/
def Advances {α : Type} (scan : Bytes → Piece α) : Prop :=
  ∀ {input value rest}, scan input = .found value rest → rest.length < input.length

/-- The scanner adds no bytes. -/
def Keeps {α : Type} (scan : Bytes → Piece α) : Prop :=
  ∀ {input value rest}, scan input = .found value rest → rest.length ≤ input.length

theorem Supply.atEnd_eq_found {α : Type} {s : Supply} {last : Piece α} {a : α} {rest : Bytes} :
    s.atEnd last = .found a rest ↔ s = .ended ∧ last = .found a rest := by
  cases s <;> simp

theorem Piece.andThen_eq_found {α β : Type} {piece : Piece α} {next : α → Bytes → Piece β} {b : β}
    {rest : Bytes} :
    piece.andThen next = .found b rest ↔
      ∃ a mid, piece = .found a mid ∧ next a mid = .found b rest := by
  cases piece <;> grind [Piece.andThen]

theorem Piece.map_eq_found {α β : Type} {piece : Piece α} {f : α → β} {b : β} {rest : Bytes} :
    piece.map f = .found b rest ↔ ∃ a, piece = .found a rest ∧ f a = b := by
  cases piece <;> grind [Piece.map, Piece.andThen]

theorem Piece.orElse_eq_found {α : Type} {piece other : Piece α} {value : α} {rest : Bytes}
    (h : piece.orElse other = .found value rest) :
    piece = .found value rest ∨ other = .found value rest := by
  cases piece with
  | found => exact .inl h
  | absent => exact .inr h
  | broken => exact .inl h
  | cutOff => exact .inl h

theorem Piece.orBroken_eq_found {α : Type} {piece : Piece α} {construct : Construct} {value : α}
    {rest : Bytes} : piece.orBroken construct = .found value rest ↔ piece = .found value rest := by
  cases piece <;> simp [Piece.orBroken]

theorem Piece.map_eq_cutOff {α β : Type} {piece : Piece α} {f : α → β} :
    piece.map f = .cutOff ↔ piece = .cutOff := by
  cases piece <;> simp [Piece.map, Piece.andThen]

theorem Piece.orBroken_eq_cutOff {α : Type} {piece : Piece α} {construct : Construct} :
    piece.orBroken construct = .cutOff ↔ piece = .cutOff := by
  cases piece <;> simp [Piece.orBroken]

theorem keeps_literal (s : Supply) (bs : Bytes) : Keeps (literal s bs) := by
  intro input _ rest h
  induction bs generalizing input with
  | nil => simp_all [literal]
  | cons b bs ih =>
    cases input with
    | nil => simp [literal, Supply.atEnd_eq_found] at h
    | cons c input =>
      simp only [literal] at h
      split at h
      · exact Nat.le_succ_of_le (ih h)
      · simp at h

theorem advances_literal (s : Supply) {b : UInt8} (bs : Bytes) :
    Advances (literal s (b :: bs)) := by
  intro input _ rest h
  cases input with
  | nil => simp [literal, Supply.atEnd_eq_found] at h
  | cons c input =>
    simp only [literal] at h
    split at h
    · exact Nat.lt_succ_of_le (keeps_literal s bs h)
    · simp at h

theorem keeps_run (s : Supply) (p : UInt8 → Bool) : Keeps (run s p) := by
  intro input value rest h
  induction input generalizing value with
  | nil =>
    obtain ⟨-, h⟩ := Supply.atEnd_eq_found.1 h
    simp_all
  | cons b input ih =>
    simp only [run] at h
    split at h
    · obtain ⟨_, h, _⟩ := Piece.map_eq_found.1 h
      exact Nat.le_succ_of_le (ih h)
    · simp_all

theorem advances_run1 (s : Supply) (p : UInt8 → Bool) : Advances (run1 s p) := by
  intro input value rest h
  cases input with
  | nil => simp [run1, Supply.atEnd_eq_found] at h
  | cons b input =>
    simp only [run1] at h
    split at h
    · obtain ⟨_, h, _⟩ := Piece.map_eq_found.1 h
      exact Nat.lt_succ_of_le (keeps_run s p h)
    · simp at h

theorem keeps_upTo (s : Supply) (closing : Bytes) : Keeps (upTo s closing) := by
  intro input value rest h
  induction input generalizing value with
  | nil => simp [upTo, Supply.atEnd_eq_found] at h
  | cons b input ih =>
    simp only [upTo] at h
    split at h
    · simp only [Piece.found.injEq] at h
      rw [← h.2, List.length_drop]
      exact Nat.sub_le _ _
    · obtain ⟨_, h, _⟩ := Piece.map_eq_found.1 h
      exact Nat.le_succ_of_le (ih h)

end KeyLayout.Markup
