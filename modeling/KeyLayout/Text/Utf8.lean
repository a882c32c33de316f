/-! Characters of a UTF-8 byte sequence, and the first byte at which the sequence is ill-formed. -/
namespace KeyLayout.Utf8

def isContinuation (b : UInt8) : Bool := 0x80 ≤ b && b < 0xC0

/-- The six bits that a continuation byte adds to the number read so far. -/
def shiftIn (n : Nat) (b : UInt8) : Nat := n * 64 + (b.toNat - 0x80)

/-- A number is a character if it is a Unicode scalar value that no shorter sequence spells. -/
def scalar? (least n : Nat) (rest : List UInt8) : Option (Char × List UInt8) :=
  if least ≤ n ∧ n.isValidChar then some (Char.ofNat n, rest) else none

/-- The first character and the bytes behind it; `none` if the bytes begin
with no complete sequence. -/
def decodeChar? : List UInt8 → Option (Char × List UInt8)
  | [] => none
  | a :: rest =>
    if a < 0x80 then some (Char.ofNat a.toNat, rest)
    else if a < 0xC0 then none
    else if a < 0xE0 then
      match rest with
      | b :: rest =>
        if isContinuation b then scalar? 0x80 (shiftIn (a.toNat - 0xC0) b) rest else none
      | [] => none
    else if a < 0xF0 then
      match rest with
      | b :: c :: rest =>
        if isContinuation b && isContinuation c then
          scalar? 0x800 (shiftIn (shiftIn (a.toNat - 0xE0) b) c) rest
        else none
      | _ => none
    else if a < 0xF8 then
      match rest with
      | b :: c :: d :: rest =>
        if isContinuation b && isContinuation c && isContinuation d then
          scalar? 0x10000 (shiftIn (shiftIn (shiftIn (a.toNat - 0xF0) b) c) d) rest
        else none
      | _ => none
    else none

theorem scalar?_rest {least n : Nat} {r rest : List UInt8} {c : Char}
    (h : scalar? least n r = some (c, rest)) : r = rest := by
  unfold scalar? at h
  split at h <;> simp_all

/-- A character takes at least one byte. -/
theorem length_lt_of_decodeChar? {bytes rest : List UInt8} {c : Char}
    (h : decodeChar? bytes = some (c, rest)) : rest.length < bytes.length := by
  unfold decodeChar? at h
  split at h
  · simp at h
  · repeat' split at h
    all_goals first
      | (simp at h; done)
      | (simp only [Option.some.injEq, Prod.mk.injEq] at h; simp [h.2])
      | (obtain rfl := scalar?_rest h; simp +arith)

/-- Decodes bytes that start at `offset`; an ill-formed sequence is reported by the
offset of its first byte. -/
def decodeFrom (offset : Nat) (bytes : List UInt8) : Except Nat (List Char) :=
  match bytes with
  | [] => .ok []
  | b :: more =>
    match h : decodeChar? (b :: more) with
    | none => .error offset
    | some (c, rest) =>
      have := length_lt_of_decodeChar? h
      match decodeFrom (offset + c.utf8Size) rest with
      | .ok cs => .ok (c :: cs)
      | .error o => .error o
termination_by bytes.length
decreasing_by simpa using this

/-- The text of a byte sequence, or the offset of its first ill-formed byte. -/
def decode (bytes : List UInt8) : Except Nat String :=
  match decodeFrom 0 bytes with
  | .ok cs => .ok (String.ofList cs)
  | .error o => .error o

def encode (text : String) : List UInt8 := text.toList.flatMap String.utf8EncodeChar

end KeyLayout.Utf8
