import KeyLayout.Text.Blank

/-! Whole numbers written in a radix. -/
namespace KeyLayout.Number

def digit? (radix : Nat) (c : Char) : Option Nat :=
  let value? :=
    if '0' ≤ c ∧ c ≤ '9' then some (c.toNat - '0'.toNat)
    else if 'a' ≤ c ∧ c ≤ 'z' then some (c.toNat - 'a'.toNat + 10)
    else if 'A' ≤ c ∧ c ≤ 'Z' then some (c.toNat - 'A'.toNat + 10)
    else none
  value?.filter (· < radix)

/-- The number whose leading digits spell `n` and whose other digits follow. -/
def digitsFrom (radix n : Nat) : List Char → Option Nat
  | [] => some n
  | c :: cs => (digit? radix c).bind fun d => digitsFrom radix (n * radix + d) cs

/-- One or more digits, below `limit`. -/
def natural? (radix limit : Nat) (cs : List Char) : Option Nat :=
  if cs.isEmpty then none else (digitsFrom radix 0 cs).filter (· < limit)

/-- Like `natural?`, also behind a plus sign. -/
def unsigned? (radix limit : Nat) : List Char → Option Nat
  | '+' :: cs => natural? radix limit cs
  | cs => natural? radix limit cs

/-- A decimal integer with an optional sign, at least `-limit` and below `limit`. -/
def signed? (limit : Nat) : List Char → Option Int
  | '-' :: cs => (natural? 10 (limit + 1) cs).map fun n => -(n : Int)
  | cs => (unsigned? 10 limit cs).map Int.ofNat

/-- An integer below `2 ^ 32`: hexadecimal behind `0x`, octal behind `0`, else decimal; blanks
around it are skipped. -/
def prefixed? (text : String) : Option Nat :=
  match Text.trimChars text.toList with
  | '0' :: 'x' :: cs => natural? 16 (1 <<< 32) cs
  | '0' :: 'X' :: cs => natural? 16 (1 <<< 32) cs
  | '0' :: c :: cs => natural? 8 (1 <<< 32) (c :: cs)
  | cs => natural? 10 (1 <<< 32) cs

/-- At least `width` lower-case hexadecimal digits. -/
def hex (width n : Nat) : String :=
  let digits := Nat.toDigits 16 n
  String.ofList (List.replicate (width - digits.length) '0' ++ digits)

end KeyLayout.Number
