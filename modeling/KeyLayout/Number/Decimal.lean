import KeyLayout.Number.Digits
import KeyLayout.Number.Binary64

/-! Reading decimal text as the nearest binary64 number. -/
namespace KeyLayout.Number

/-- The number nearest to `digits * 10 ^ exponent`. Beyond these exponents every
number is infinite or zero. -/
def ofScientific (negative : Bool) (digits : Nat) (exponent : Int) : Float :=
  let magnitude := exponent + (Nat.toDigits 10 digits).length
  if digits = 0 ∨ magnitude < -330 then Binary64.ofFraction negative 0 1
  else if 310 < magnitude then Binary64.infinity negative
  else if 0 ≤ exponent then Binary64.ofFraction negative (digits * Nat.pow 10 exponent.toNat) 1
  else Binary64.ofFraction negative digits (Nat.pow 10 (-exponent).toNat)

/-- The power of ten that scales a number: nothing, or `e` and a whole
number with an optional sign. -/
def exponent? : List Char → Option Int
  | [] => some 0
  | e :: cs =>
    if e = 'e' ∨ e = 'E' then
      match cs with
      | '+' :: cs => exponentDigits? cs
      | '-' :: cs => (exponentDigits? cs).map (- ·)
      | cs => exponentDigits? cs
    else none
where
  exponentDigits? (cs : List Char) : Option Int :=
    if cs.isEmpty then none else (digitsFrom 10 0 cs).map Int.ofNat

/-- Digits with an optional point among or around them, at least one digit, and
an optional power of ten. -/
def magnitude? (negative : Bool) (cs : List Char) : Option Float :=
  let isDigit := fun c => (digit? 10 c).isSome
  let whole := cs.takeWhile isDigit
  let rest := cs.dropWhile isDigit
  let (fraction, rest) := match rest with
    | '.' :: more => (more.takeWhile isDigit, more.dropWhile isDigit)
    | _ => ([], rest)
  if whole.isEmpty && fraction.isEmpty then none
  else do
    let digits ← digitsFrom 10 0 (whole ++ fraction)
    let exponent ← exponent? rest
    return ofScientific negative digits (exponent - fraction.length)

def isName (name : String) (cs : List Char) : Bool := cs.map Char.toLower == name.toList

/-- An unsigned number, `inf`, `infinity` or `nan`, the names in any case. -/
def unsignedReal? (negative : Bool) (cs : List Char) : Option Float :=
  if isName "inf" cs || isName "infinity" cs then some (Binary64.infinity negative)
  else if isName "nan" cs then some Binary64.nan
  else magnitude? negative cs

/-- A decimal number with an optional sign. -/
def real? : List Char → Option Float
  | '-' :: cs => unsignedReal? true cs
  | '+' :: cs => unsignedReal? false cs
  | cs => unsignedReal? false cs

end KeyLayout.Number
