import KeyLayout.Number.Decimal
import KeyLayout.Settings.Toml.Value

/-! Strings, numbers, dates and times of TOML documents. -/
namespace KeyLayout.Settings.Toml

/-- A piece of a document and what follows it. -/
abbrev Found (α : Type) := Option (α × List Char)

def isBlank (c : Char) : Bool := c == ' ' || c == '\t'

/-- Characters that stand for themselves in comments and strings. -/
def isPlain (c : Char) : Bool := c == '\t' || (0x20 ≤ c.toNat && c.toNat != 0x7F)

def push (c : Char) (found : Found (List Char)) : Found (List Char) :=
  found.map fun (cs, rest) => (c :: cs, rest)

/-- A character by its number, and then the rest. -/
def pushNumber (digits : List Char) (found : Found (List Char)) : Found (List Char) :=
  match Number.natural? 16 (1 <<< 32) digits with
  | some n => if n.isValidChar then push (Char.ofNat n) found else none
  | none => none

def escape? : Char → Option Char
  | 'b' => some '\x08'
  | 't' => some '\t'
  | 'n' => some '\n'
  | 'f' => some '\x0c'
  | 'r' => some '\r'
  | 'e' => some '\x1b'
  | '"' => some '"'
  | '\\' => some '\\'
  | _ => none

/-- A string behind its opening quote. -/
def quoted : List Char → Found (List Char)
  | [] => none
  | '"' :: rest => some ([], rest)
  | '\\' :: 'x' :: a :: b :: rest => pushNumber [a, b] (quoted rest)
  | '\\' :: 'u' :: a :: b :: c :: d :: rest => pushNumber [a, b, c, d] (quoted rest)
  | '\\' :: 'U' :: a :: b :: c :: d :: e :: f :: g :: h :: rest =>
    pushNumber [a, b, c, d, e, f, g, h] (quoted rest)
  | '\\' :: e :: rest =>
    match escape? e with
    | some c => push c (quoted rest)
    | none => none
  | c :: rest => if c ≠ '\\' && isPlain c then push c (quoted rest) else none

/-- A string without escapes behind its opening quote. -/
def literal : List Char → Found (List Char)
  | [] => none
  | '\'' :: rest => some ([], rest)
  | c :: rest => if isPlain c then push c (literal rest) else none

mutual

/-- A string of several lines behind its three opening quotes; up to two quotes may
stand before the closing ones. -/
def quotedLines (cs : List Char) : Found (List Char) :=
  match cs with
  | '"' :: '"' :: '"' :: '"' :: '"' :: rest => some (['"', '"'], rest)
  | '"' :: '"' :: '"' :: '"' :: rest => some (['"'], rest)
  | '"' :: '"' :: '"' :: rest => some ([], rest)
  | '\\' :: 'x' :: a :: b :: rest => pushNumber [a, b] (quotedLines rest)
  | '\\' :: 'u' :: a :: b :: c :: d :: rest => pushNumber [a, b, c, d] (quotedLines rest)
  | '\\' :: 'U' :: a :: b :: c :: d :: e :: f :: g :: h :: rest =>
    pushNumber [a, b, c, d, e, f, g, h] (quotedLines rest)
  | '\\' :: e :: rest =>
    match escape? e with
    | some c => push c (quotedLines rest)
    | none => lineGap false (e :: rest)
  | '\r' :: '\n' :: rest => push '\r' (push '\n' (quotedLines rest))
  | c :: rest => if c = '\n' || (c ≠ '\\' && isPlain c) then push c (quotedLines rest) else none
  | [] => none
termination_by (cs.length, 0)

/-- The string behind a backslash at the end of a line; blanks and line ends
there do not belong to it. -/
def lineGap (ended : Bool) (cs : List Char) : Found (List Char) :=
  match cs with
  | [] => none
  | '\n' :: rest => lineGap true rest
  | '\r' :: '\n' :: rest => lineGap true rest
  | c :: rest =>
    if isBlank c then lineGap ended rest
    else if ended then quotedLines (c :: rest)
    else none
termination_by (cs.length, 1)

end

/-- A string of several lines without escapes behind its three opening quotes. -/
def literalLines : List Char → Found (List Char)
  | [] => none
  | '\'' :: '\'' :: '\'' :: '\'' :: '\'' :: rest => some (['\'', '\''], rest)
  | '\'' :: '\'' :: '\'' :: '\'' :: rest => some (['\''], rest)
  | '\'' :: '\'' :: '\'' :: rest => some ([], rest)
  | '\r' :: '\n' :: rest => push '\r' (push '\n' (literalLines rest))
  | c :: rest => if c = '\n' || isPlain c then push c (literalLines rest) else none

/-- A line end right behind the opening quotes does not belong to the string. -/
def skipFirstLineEnd : List Char → List Char
  | '\n' :: cs => cs
  | '\r' :: '\n' :: cs => cs
  | cs => cs

def isDecimal (c : Char) : Bool := (Number.digit? 10 c).isSome

/-- Decimal digits without the underscores between them. -/
def ungroup : List Char → Option (List Char)
  | [] => none
  | [c] => if isDecimal c then some [c] else none
  | c :: '_' :: cs => if isDecimal c then (ungroup cs).map (c :: ·) else none
  | c :: cs => if isDecimal c then (ungroup cs).map (c :: ·) else none

/-- Whether each underscore stands between digits, among which all hexadecimal ones are counted. -/
def isSeparated : List Char → Bool
  | [] => true
  | '_' :: _ => false
  | [_, '_'] => false
  | a :: '_' :: c :: cs =>
    (Number.digit? 16 a).isSome && (Number.digit? 16 c).isSome && isSeparated (c :: cs)
  | _ :: cs => isSeparated cs

def splitSign : List Char → Option Char × List Char
  | '-' :: cs => (some '-', cs)
  | '+' :: cs => (some '+', cs)
  | cs => (none, cs)

def hasLeadingZero : List Char → Bool
  | '0' :: _ :: _ => true
  | _ => false

/-- The value of a whole number written with the digits of a radix. -/
def wholeNumber (radix : Nat) (negative : Bool) (cs : List Char) : Value :=
  let limit : Nat := if negative then 1 <<< 127 + 1 else 1 <<< 128
  match Number.natural? radix limit (cs.filter (· ≠ '_')) with
  | some n => .integer (if negative then -(n : Int) else n)
  | none => .unvalued

/-- A whole number behind the mark of its radix. It need not have digits. -/
def marked? (radix : Nat) (cs : List Char) : Option Value :=
  if cs.all (fun c => c == '_' || (Number.digit? radix c).isSome) && isSeparated cs then
    some (wholeNumber radix false cs)
  else none

/-- A whole number without a mark. Only in front of its first underscore must
all characters be digits. -/
def unmarked? (cs : List Char) : Option Value :=
  let (sign, digits) := splitSign cs
  let rest := digits.dropWhile isDecimal
  let isWhole := rest.head?.all (· == '_') &&
    !rest.any (fun c => c == ' ' || c == '.' || c == 'e' || c == 'E')
  if digits.isEmpty || hasLeadingZero digits || !isWhole || !isSeparated digits then none
  else some (wholeNumber 10 (sign = some '-') digits)

def integer? : List Char → Option Value
  | '0' :: 'x' :: cs => marked? 16 cs
  | '0' :: 'o' :: cs => marked? 8 cs
  | '0' :: 'b' :: cs => marked? 2 cs
  | cs => unmarked? cs

def isGrouped (c : Char) : Bool := isDecimal c || c == '_'

/-- The digits in front of the point. -/
def wholeDigits? (cs : List Char) : Option (List Char) :=
  if hasLeadingZero cs then none else ungroup cs

/-- The exponent of a real number, with its mark, or nothing. -/
def exponent? : List Char → Option (List Char)
  | [] => some []
  | e :: cs =>
    if e = 'e' ∨ e = 'E' then
      let (sign, cs) := splitSign cs
      (ungroup cs).map fun digits => 'e' :: sign.getD '+' :: digits
    else none

/-- The digits behind the point, with the point, or nothing, and what follows them. -/
def fraction? : List Char → Found (List Char)
  | '.' :: cs =>
    (ungroup (cs.takeWhile isGrouped)).map fun digits => ('.' :: digits, cs.dropWhile isGrouped)
  | cs => some ([], cs)

/-- A number with a fraction or an exponent, or one of the special numbers; only the one that is
called infinite has no bounds. -/
def real? (cs : List Char) : Option Value := do
  let (sign, unsigned) := splitSign cs
  if unsigned = "inf".toList ∨ unsigned = "nan".toList then (Number.real? cs).map .real
  else
    let whole ← wholeDigits? (unsigned.takeWhile isGrouped)
    let (fraction, rest) ← fraction? (unsigned.dropWhile isGrouped)
    let exponent ← exponent? rest
    let x ← Number.real? (sign.toList ++ whole ++ fraction ++ exponent)
    return if x.isInf then .unvalued else .real x

def number? (cs : List Char) : Option Value := (integer? cs).or (real? cs)

def twoDigits? : List Char → Found Nat
  | a :: b :: rest => (Number.natural? 10 100 [a, b]).map fun n => (n, rest)
  | _ => none

def daysIn (year month : Nat) : Nat :=
  if month = 2 then if year % 4 = 0 ∧ (year % 100 ≠ 0 ∨ year % 400 = 0) then 29 else 28
  else if month = 4 ∨ month = 6 ∨ month = 9 ∨ month = 11 then 30
  else 31

/-- What follows a date. -/
def afterDate? (cs : List Char) : Option (List Char) := do
  let (century, cs) ← twoDigits? cs
  let (year, cs) ← twoDigits? cs
  let '-' :: cs := cs | none
  let (month, cs) ← twoDigits? cs
  let '-' :: cs := cs | none
  let (day, cs) ← twoDigits? cs
  if 1 ≤ month ∧ month ≤ 12 ∧ 1 ≤ day ∧ day ≤ daysIn (century * 100 + year) month
    then some cs else none

/-- What follows the seconds of a time, or their absence. -/
def afterSeconds? : List Char → Option (List Char)
  | ':' :: cs => do
    let (second, cs) ← twoDigits? cs
    if 60 < second then none
    else match cs with
      | '.' :: cs =>
        if (cs.takeWhile isDecimal).isEmpty then none else some (cs.dropWhile isDecimal)
      | cs => some cs
  | cs => some cs

/-- What follows a time. -/
def afterTime? (cs : List Char) : Option (List Char) := do
  let (hour, cs) ← twoDigits? cs
  let ':' :: cs := cs | none
  let (minute, cs) ← twoDigits? cs
  if hour < 24 ∧ minute < 60 then afterSeconds? cs else none

def isOffset (cs : List Char) : Bool :=
  match cs with
  | [] => true
  | [z] => z == 'Z' || z == 'z'
  | sign :: cs =>
    (sign == '+' || sign == '-') &&
    match twoDigits? cs with
    | some (hour, ':' :: cs) =>
      match twoDigits? cs with
      | some (minute, []) => hour < 24 && minute < 60
      | _ => false
    | _ => false

/-- A date, a time, or both. -/
def isMoment (cs : List Char) : Bool :=
  match afterDate? cs with
  | some [] => true
  | some (mark :: cs) =>
    (mark == 'T' || mark == 't' || mark == ' ') &&
    match afterTime? cs with
    | some cs => isOffset cs
    | none => false
  | none => afterTime? cs == some []

end KeyLayout.Settings.Toml
