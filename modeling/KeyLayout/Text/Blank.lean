/-! Blank characters, and the words and lines they separate. -/
namespace KeyLayout.Text

/-- The characters with the Unicode property White_Space. -/
def isBlank (c : Char) : Bool :=
  let n := c.toNat
  (0x9 ≤ n && n ≤ 0xD) || n == 0x20 || n == 0x85 || n == 0xA0 || n == 0x1680 ||
  (0x2000 ≤ n && n ≤ 0x200A) || n == 0x2028 || n == 0x2029 || n == 0x202F ||
  n == 0x205F || n == 0x3000

def trimChars (cs : List Char) : List Char :=
  ((cs.dropWhile isBlank).reverse.dropWhile isBlank).reverse

/-- The text without the blanks at its two ends. -/
def trim (text : String) : String := String.ofList (trimChars text.toList)

def isBlankText (text : String) : Bool := text.toList.all isBlank

/-- Splits at blanks; `word` holds the letters of the word being read, last first. -/
def wordsFrom (word : List Char) : List Char → List (List Char)
  | [] => if word.isEmpty then [] else [word.reverse]
  | c :: cs =>
    if isBlank c then
      if word.isEmpty then wordsFrom [] cs else word.reverse :: wordsFrom [] cs
    else wordsFrom (c :: word) cs

/-- The longest runs of characters that are not blank. -/
def words (cs : List Char) : List String := (wordsFrom [] cs).map String.ofList

/-- The pieces between separators; there is one more of them than there are separators. -/
def splitOn (separator : Char) : List Char → List (List Char)
  | [] => [[]]
  | c :: cs =>
    if c = separator then [] :: splitOn separator cs
    else match splitOn separator cs with
      | piece :: more => (c :: piece) :: more
      | [] => [[c]]

def lines (cs : List Char) : List (List Char) := splitOn '\n' cs

/-- The text, followed by blanks until it has `width` characters. -/
def padRight (width : Nat) (text : String) : String :=
  text ++ String.ofList (List.replicate (width - text.length) ' ')

/-- The text, preceded by blanks until it has `width` characters. -/
def padLeft (width : Nat) (text : String) : String :=
  String.ofList (List.replicate (width - text.length) ' ') ++ text

end KeyLayout.Text
