import KeyLayout.Number.Digits

/-! Expanding the references that stand for characters in text and attribute values. -/
namespace KeyLayout.Markup

inductive ReferenceFault where
  | unterminated
  | unknownEntity (name : String)
  | invalidCharacter (name : String)
  deriving DecidableEq, Repr

def ReferenceFault.message : ReferenceFault → String
  | .unterminated => "unterminated entity reference"
  | .unknownEntity name => "unknown entity `&" ++ name ++ ";`"
  | .invalidCharacter name => "invalid character reference `&" ++ name ++ ";`"

/-- The five entities every document knows. -/
def entities : List (List Char × Char) :=
  [("lt".toList, '<'), ("gt".toList, '>'), ("amp".toList, '&'), ("quot".toList, '"'),
    ("apos".toList, '\'')]

/-- The number behind `#`: hexadecimal behind an `x`, else decimal. -/
def characterNumber? : List Char → Option Nat
  | 'x' :: cs => Number.unsigned? 16 (1 <<< 32) cs
  | 'X' :: cs => Number.unsigned? 16 (1 <<< 32) cs
  | cs => Number.unsigned? 10 (1 <<< 32) cs

def scalar? (n : Nat) : Option Char := if n.isValidChar then some (Char.ofNat n) else none

/-- The character that a reference of this name stands for. -/
def resolve (name : List Char) : Except ReferenceFault Char :=
  match entities.lookup name with
  | some c => .ok c
  | none =>
    match name with
    | '#' :: cs =>
      match (characterNumber? cs).bind scalar? with
      | some c => .ok c
      | none => .error (.invalidCharacter (String.ofList name))
    | _ => .error (.unknownEntity (String.ofList name))

theorem length_lt_of_dropWhile {p : Char → Bool} {cs rest : List Char} {c : Char}
    (h : cs.dropWhile p = c :: rest) : rest.length < cs.length := by
  have := (List.dropWhile_sublist (l := cs) p).length_le
  rw [h, List.length_cons] at this
  exact this

/-- Replaces each reference, from `&` to the next `;`, by its character. -/
def expandChars (cs : List Char) : Except ReferenceFault (List Char) :=
  match cs with
  | [] => .ok []
  | c :: more =>
    if c = '&' then
      match h : more.dropWhile (· ≠ ';') with
      | [] => .error .unterminated
      | _ :: rest =>
        have := length_lt_of_dropWhile h
        do
          let d ← resolve (more.takeWhile (· ≠ ';'))
          let ds ← expandChars rest
          return d :: ds
    else do
      let ds ← expandChars more
      return c :: ds
termination_by cs.length
decreasing_by
  · exact Nat.lt_succ_of_lt this
  · exact Nat.lt_succ_self _

def expand (text : String) : Except ReferenceFault String :=
  (expandChars text.toList).map String.ofList

end KeyLayout.Markup
