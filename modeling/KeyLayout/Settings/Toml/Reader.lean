import KeyLayout.Settings.Toml.Scalar

/-! Reading TOML documents. -/
namespace KeyLayout.Settings.Toml

def skipBlanks (cs : List Char) : List Char := cs.dropWhile isBlank

/-- Passes over blanks, line ends and comments. -/
def skipSpace (inComment : Bool) : List Char → List Char
  | [] => []
  | '\n' :: cs => skipSpace false cs
  | '\r' :: '\n' :: cs => skipSpace false cs
  | c :: cs =>
    if inComment then if isPlain c then skipSpace true cs else c :: cs
    else if isBlank c then skipSpace false cs
    else if c = '#' then skipSpace true cs
    else c :: cs

/-- Ends a line, which may end in a comment. -/
def endLine? (cs : List Char) : Option (List Char) :=
  let cs := match skipBlanks cs with
    | '#' :: cs => cs.dropWhile isPlain
    | cs => cs
  match cs with
  | [] => some []
  | '\n' :: cs => some cs
  | '\r' :: '\n' :: cs => some cs
  | _ => none

def isBare (c : Char) : Bool := c.isAlphanum || c == '-' || c == '_'

/-- One part of a key. -/
def keyPart (cs : List Char) : Found String :=
  let part := match cs with
    | '"' :: cs => quoted cs
    | '\'' :: cs => literal cs
    | cs =>
      let name := cs.takeWhile isBare
      if name.isEmpty then none else some (name, cs.dropWhile isBare)
  part.map fun (name, rest) => (String.ofList name, rest)

/-- So many parts can a key have, and so deep can arrays and tables in braces be nested. -/
def deepest : Nat := 80

/-- A key of at most so many parts, between which there are dots. -/
def keyParts : Nat → List Char → Option ((String × List String) × List Char)
  | 0, _ => none
  | count + 1, cs => do
    let (name, rest) ← keyPart (skipBlanks cs)
    match skipBlanks rest with
    | '.' :: rest =>
      let ((next, more), rest) ← keyParts count rest
      return ((name, next :: more), rest)
    | rest => return ((name, []), rest)

def keyPath (cs : List Char) : Option ((String × List String) × List Char) := keyParts deepest cs

/-- Characters of text without quotes. -/
def isWordChar (c : Char) : Bool :=
  !(isBlank c || c == '\n' || c == '\r' || c == '#' || c == '=' || c == ',' ||
    c == '[' || c == ']' ||
    c == '{' || c == '}')

/-- Whether more of a word follows blanks. -/
def goesOn (cs : List Char) : Bool :=
  (skipBlanks cs).head?.any fun c => isWordChar c && c ≠ '"' && c ≠ '\''

/-- Text without quotes. A blank within it can stand between a date and a time. -/
def word : List Char → List Char × List Char
  | [] => ([], [])
  | c :: cs =>
    if isWordChar c || (isBlank c && goesOn cs) then
      let (more, rest) := word cs
      (c :: more, rest)
    else ([], c :: cs)

def scalar (cs : List Char) : Found Value :=
  match cs with
  | '"' :: '"' :: '"' :: cs => named (quotedLines (skipFirstLineEnd cs))
  | '"' :: cs => named (quoted cs)
  | '\'' :: '\'' :: '\'' :: cs => named (literalLines (skipFirstLineEnd cs))
  | '\'' :: cs => named (literal cs)
  | cs =>
    let (text, rest) := word cs
    let value :=
      if text = "true".toList then some (.boolean true)
      else if text = "false".toList then some (.boolean false)
      else if isMoment text then some .moment
      else number? text
    value.map fun value => (value, rest)
where
  named (found : Found (List Char)) : Found Value :=
    found.map fun (cs, rest) => (.text (String.ofList cs), rest)

mutual

/-- A value; `limit` bounds the pieces it is made of, and `depth` their nesting. -/
def value : (limit depth : Nat) → List Char → Option (Value × List Char)
  | 0, _, _ => none
  | limit + 1, depth, cs =>
    match cs, depth with
    | '[' :: cs, depth + 1 => items limit depth [] (skipSpace false cs)
    | '{' :: cs, depth + 1 => fields limit depth [] (skipSpace false cs)
    | cs, _ => scalar cs

/-- The items of an array behind those already read. -/
def items : (limit depth : Nat) → List Value → List Char → Option (Value × List Char)
  | 0, _, _, _ => none
  | limit + 1, depth, known, cs =>
    match cs with
    | ']' :: rest => some (.array .closed known, rest)
    | cs => do
      let (item, rest) ← value limit depth cs
      match skipSpace false rest with
      | ',' :: rest => items limit depth (known ++ [item]) (skipSpace false rest)
      | ']' :: rest => some (.array .closed (known ++ [item]), rest)
      | _ => none

/-- The entries of a table in braces behind those already read. -/
def fields : (limit depth : Nat) → Entries → List Char → Option (Value × List Char)
  | 0, _, _, _ => none
  | limit + 1, depth, known, cs =>
    match cs with
    | '}' :: rest => some (.table .closed known, rest)
    | cs => do
      let ((key, more), rest) ← keyPath cs
      let '=' :: rest := skipSpace false rest | none
      let (item, rest) ← value limit depth (skipSpace false rest)
      let known ← insert? item key more known
      match skipSpace false rest with
      | ',' :: rest => fields limit depth known (skipSpace false rest)
      | '}' :: rest => some (.table .closed known, rest)
      | _ => none

end

/-- The tables read so far, and the path of the header under which keys now stand. -/
structure Draft where
  entries : Entries := []
  header : List String := []

/-- Reads a line with something on it: a header, or a key and its value. -/
def line? (limit : Nat) (d : Draft) (cs : List Char) : Option (Draft × List Char) :=
  match cs with
  | '[' :: '[' :: cs => do
    let ((key, more), rest) ← keyPath cs
    let ']' :: ']' :: rest := rest | none
    let path := key :: more
    let entries ← openItem? path.dropLast (path.getLastD key) d.entries
    return ({ entries, header := path }, rest)
  | '[' :: cs => do
    let ((key, more), rest) ← keyPath cs
    let ']' :: rest := rest | none
    let path := key :: more
    let entries ← openTable? path.dropLast (path.getLastD key) d.entries
    return ({ entries, header := path }, rest)
  | cs => do
    let ((key, more), rest) ← keyPath cs
    let '=' :: rest := rest | none
    let (item, rest) ← value limit deepest (skipBlanks rest)
    let entries ← inside? (insert? item key more) d.header d.entries
    return ({ d with entries }, rest)

/-- Reads lines to the end of the document. -/
def linesFrom? (limit : Nat) : Nat → Draft → List Char → Option Entries
  | 0, _, _ => none
  | steps + 1, d, cs =>
    match skipSpace false cs with
    | [] => some d.entries
    | cs => do
      let (d, rest) ← line? limit d cs
      linesFrom? limit steps d (← endLine? rest)

/-- The entries of a document. Every step takes a character, so the length of the
document bounds them all. -/
def read? (text : String) : Option Entries :=
  let cs := match text.toList with
    | '\uFEFF' :: cs => cs
    | cs => cs
  linesFrom? (2 * cs.length + 2) (cs.length + 1) {} cs

end KeyLayout.Settings.Toml
