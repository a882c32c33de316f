/-! Binary64 numbers as exact fractions: the nearest number to a fraction, and the
fraction a number stands for. -/
namespace KeyLayout.Binary64

/-- The quotient rounded to the nearest whole number, a half to the even one. -/
def roundDiv (num den : Nat) : Nat :=
  let q := num / den
  let r := num % den
  if 2 * r < den then q
  else if den < 2 * r then q + 1
  else if q % 2 = 0 then q else q + 1

/-- `⌊log₂ (num / den)⌋` for positive `num` and `den`. -/
def floorLog2 (num den : Nat) : Int :=
  let e : Int := (num.log2 : Int) - den.log2
  let below := if 0 ≤ e then num < den <<< e.toNat else num <<< (-e).toNat < den
  if below then e - 1 else e

def signBit (negative : Bool) : UInt64 := if negative then 0x8000000000000000 else 0

def infinityBits : Nat := 0x7FF0000000000000

def infinity (negative : Bool) : Float := Float.ofBits (signBit negative ||| infinityBits.toUInt64)

def nan : Float := Float.ofBits 0x7FF8000000000000

/-- The number nearest to `num / den`; mantissa and exponent add up to the bits, so a carry out of
the mantissa raises the exponent. -/
def ofFraction (negative : Bool) (num den : Nat) : Float :=
  if num = 0 then Float.ofBits (signBit negative)
  else
    let k := max (floorLog2 num den - 52) (-1074)
    let mantissa := if 0 ≤ k then roundDiv num (den <<< k.toNat)
      else roundDiv (num <<< (-k).toNat) den
    let bits := (k + 1074).toNat <<< 52 + mantissa
    Float.ofBits (signBit negative ||| (min bits infinityBits).toUInt64)

/-- What the bits of a number stand for; a finite number is `mantissa * 2 ^ exponent`. -/
inductive Parts where
  | nan
  | infinite (negative : Bool)
  | finite (negative : Bool) (mantissa : Nat) (exponent : Int)

def parts (x : Float) : Parts :=
  let bits := x.toBits.toNat
  let negative := decide (1 <<< 63 ≤ bits)
  let exponent : Nat := bits >>> 52 % 1 <<< 11
  let fraction : Nat := bits % 1 <<< 52
  if exponent = 0x7FF then if fraction = 0 then .infinite negative else .nan
  else if exponent = 0 then .finite negative fraction (-1074)
  else .finite negative (1 <<< 52 + fraction) (exponent - 1075)

end KeyLayout.Binary64
