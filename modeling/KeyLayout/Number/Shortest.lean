import KeyLayout.Number.Binary64

/-! Writing a binary64 number with the fewest decimal digits that read back as the same number. -/
namespace KeyLayout.Number

/-- The real numbers that round to `m * 2 ^ k`, and that number, all over one denominator. -/
structure Neighbourhood where
  low : Nat
  value : Nat
  high : Nat
  den : Nat
  /-- Whether the two ends themselves round to the number. -/
  closed : Bool

/-- Half the distance to each neighbour; below a power of two the numbers lie twice as close. -/
def neighbourhood (m : Nat) (k : Int) : Neighbourhood :=
  let below := if m = 1 <<< 52 ∧ -1074 < k then 1 else 2
  let up := 1 <<< k.toNat
  { low := (4 * m - below) * up, value := 4 * m * up, high := (4 * m + 2) * up
    den := 4 <<< (-k).toNat, closed := m % 2 = 0 }

/-- Whether `d * num / den'` lies in the neighbourhood. -/
def Neighbourhood.holds (n : Neighbourhood) (num den : Nat) : Bool :=
  if n.closed then n.low * den ≤ num * n.den && num * n.den ≤ n.high * den
  else n.low * den < num * n.den && num * n.den < n.high * den

/-- The point of the grid `scale` in the neighbourhood that is nearest to the
number, the greater of two. -/
def Neighbourhood.onGrid? (n : Neighbourhood) (scale : Int) : Option Nat :=
  let up := Nat.pow 10 scale.toNat
  let down := Nat.pow 10 (-scale).toNat
  let d := n.value * down / (n.den * up)
  match n.holds (d * up) down, n.holds ((d + 1) * up) down with
  | true, true => if 2 * n.value * down < (2 * d + 1) * n.den * up then some d else some (d + 1)
  | true, false => some d
  | false, true => some (d + 1)
  | false, false => none

/-- Tries finer and finer grids, each by a power of ten. -/
def Neighbourhood.search (n : Neighbourhood) (scale : Int) : Nat → Nat × Int
  | 0 => (0, scale)
  | tries + 1 =>
    match n.onGrid? scale with
    | some d => (d, scale)
    | none => n.search (scale - 1) tries

/-- Moves the zeros at the end of the digits into the exponent. -/
def dropZeros (digits : Nat) (exponent : Int) : Nat → Nat × Int
  | 0 => (digits, exponent)
  | tries + 1 =>
    if digits % 10 = 0 then dropZeros (digits / 10) (exponent + 1) tries else (digits, exponent)

/-- Digits `d` and exponent `e` such that `d * 10 ^ e` is the shortest decimal that reads back as `m
* 2 ^ k`, `0 < m`. Seventeen digits always suffice, and the number lies below the first grid. -/
def shortest (m : Nat) (k : Int) : Nat × Int :=
  let n := neighbourhood m k
  let first : Int := (Nat.toDigits 10 n.value).length - (Nat.toDigits 10 n.den).length + 1
  let (d, e) := n.search first 20
  dropZeros d e 20

/-- How a finite number is laid out. -/
structure Layout where
  /-- Numbers at or above ten to this power are written with an exponent, if any are. -/
  exponentFrom : Option Int
  /-- Numbers below ten to this power are written with an exponent, if any are. -/
  exponentBelow : Option Int
  /-- Whether a whole number is written with a point and a zero. -/
  pointZero : Bool

/-- All digits stand in their places. -/
def Layout.plain : Layout := ⟨none, none, false⟩

/-- From `10 ^ 16` on and below `10 ^ -4` an exponent is written; other
whole numbers end in `.0`. -/
def Layout.marked : Layout := ⟨some 16, some (-4), true⟩

def zeros (n : Nat) : String := String.ofList (List.replicate n '0')

/-- The digits with all places written. -/
def positional (pointZero : Bool) (digits : String) (exponent : Int) : String :=
  if 0 ≤ exponent then
    digits ++ zeros exponent.toNat ++ (if pointZero then ".0" else "")
  else
    let places := (-exponent).toNat
    let padded := (zeros (places + 1 - digits.length) ++ digits).toList
    let whole := padded.take (padded.length - places)
    let fraction := padded.drop (padded.length - places)
    String.ofList whole ++ "." ++ String.ofList fraction

/-- One digit before the point, and a power of ten. -/
def scientific (digits : String) (exponent : Int) : String :=
  let power := toString (exponent + (digits.length - 1))
  match digits.toList with
  | [] => ""
  | [d] => String.ofList [d] ++ "e" ++ power
  | d :: ds => String.ofList [d] ++ "." ++ String.ofList ds ++ "e" ++ power

def Layout.writeFinite (layout : Layout) (m : Nat) (k : Int) : String :=
  if m = 0 then if layout.pointZero then "0.0" else "0"
  else
    let (d, e) := shortest m k
    let digits := toString d
    -- the number is at least `10 ^ magnitude` and below `10 ^ (magnitude + 1)`
    let magnitude := e + (digits.length - 1)
    if layout.exponentFrom.any (· ≤ magnitude) || layout.exponentBelow.any (magnitude < ·) then
      scientific digits e
    else positional layout.pointZero digits e

def Layout.write (layout : Layout) (x : Float) : String :=
  match Binary64.parts x with
  | .nan => "NaN"
  | .infinite negative => if negative then "-inf" else "inf"
  | .finite negative m k => (if negative then "-" else "") ++ layout.writeFinite m k

end KeyLayout.Number
