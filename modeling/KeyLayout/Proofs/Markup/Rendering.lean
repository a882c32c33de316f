import KeyLayout.Proofs.Markup.Tree
import KeyLayout.Proofs.Number.Numerals
import KeyLayout.Text.Blank
import Mathlib.Data.List.Infix

/-! The texts in which a tree can be written. -/
namespace KeyLayout.Markup

/-- The characters of names: ASCII letters and digits, some marks, and all beyond ASCII. -/
def IsNameChar (c : Char) : Prop := c.isAlphanum = true ∨ c ∈ ['-', '_', ':', '.'] ∨ 128 ≤ c.toNat

def IsName (name : String) : Prop := name.toList ≠ [] ∧ ∀ c ∈ name.toList, IsNameChar c

def IsSpace (s : List Char) : Prop := ∀ c ∈ s, c ∈ [' ', '\t', '\r', '\n']

/-- The names by which a character can be referred to, between `&` and `;`. -/
inductive Reference : Char → List Char → Prop where
  | lt : Reference '<' ['l', 't']
  | gt : Reference '>' ['g', 't']
  | amp : Reference '&' ['a', 'm', 'p']
  | quot : Reference '"' ['q', 'u', 'o', 't']
  | apos : Reference '\'' ['a', 'p', 'o', 's']
  | decimal {c : Char} {digits : List Char} (h : Number.Numeral 10 digits c.toNat) :
      Reference c ('#' :: digits)
  | hexadecimal {c x : Char} {digits : List Char} (hx : x = 'x' ∨ x = 'X')
      (h : Number.Numeral 16 digits c.toNat) :
      Reference c ('#' :: x :: digits)

/-- Text as it is written where neither `&` nor `special` may stand for itself. -/
inductive Escaped (special : Char) : List Char → List Char → Prop where
  | nil : Escaped special [] []
  | plain {c : Char} {t written : List Char} (hamp : c ≠ '&') (hspecial : c ≠ special)
      (h : Escaped special t written) :
      Escaped special (c :: t) (c :: written)
  | reference {c : Char} {name t written : List Char} (hc : Reference c name)
      (h : Escaped special t written) :
      Escaped special (c :: t) ('&' :: (name ++ ';' :: written))

/-- Attributes with their values in quotes of either kind, blanks before each, and
blanks around the equals signs. -/
inductive AttributesText : List (String × String) → List Char → Prop where
  | nil : AttributesText [] []
  | cons {name value : String} {more : List (String × String)}
      {before left right written rest : List Char} {quote : Char}
      (hbefore : IsSpace before) (hne : before ≠ []) (hleft : IsSpace left) (hright : IsSpace right)
      (hquote : quote = '"' ∨ quote = '\'') (hvalue : Escaped quote value.toList written)
      (hmore : AttributesText more rest) :
      AttributesText ((name, value) :: more)
        (before ++ (name.toList ++ (left ++ '=' :: (right ++ quote :: (written ++ quote :: rest)))))

inductive StartTag (name : String) (a : Attributes) (empty : Bool) : List Char → Prop where
  | mk {attributes space : List Char} (ha : AttributesText a.entries attributes)
      (hs : IsSpace space) :
      StartTag name a empty
        ('<' :: (name.toList ++ (attributes ++ (space ++ if empty then ['/', '>'] else ['>']))))

inductive EndTag (name : String) : List Char → Prop where
  | mk {space : List Char} (hs : IsSpace space) :
      EndTag name ('<' :: '/' :: (name.toList ++ (space ++ ['>'])))

/-- What is passed over: comments, processing instructions and document type declarations. -/
inductive Aside : List Char → Prop where
  | comment {t : List Char} (h : ¬['-', '-', '>'] <:+: t) :
      Aside ("<!--".toList ++ (t ++ ['-', '-', '>']))
  | instruction {t : List Char} (h : ¬['?', '>'] <:+: t) : Aside ("<?".toList ++ (t ++ ['?', '>']))
  | typeDeclaration {t : List Char} (h : '>' ∉ t) : Aside ("<!DOCTYPE".toList ++ (t ++ ['>']))

/-- Text as it is written inside an element: escaped or verbatim, in as many parts as one likes. -/
inductive TextOf : List Char → List Char → Prop where
  | escaped {t written : List Char} (h : Escaped '<' t written) : TextOf t written
  | verbatim {t v t' written written' : List Char} (h : Escaped '<' t written)
      (hv : ¬[']', ']', '>'] <:+: v) (hmore : TextOf t' written') :
      TextOf (t ++ (v ++ t'))
        (written ++ ("<![CDATA[".toList ++ (v ++ [']', ']', '>']) ++ written'))
  | aside {t t' written m written' : List Char} (h : Escaped '<' t written) (hm : Aside m)
      (hmore : TextOf t' written') : TextOf (t ++ t') (written ++ (m ++ written'))

inductive ContentOf : Content → List Char → Prop where
  | nil : ContentOf .nil []
  | aside {c : Content} {m written : List Char} (hm : Aside m) (h : ContentOf c written) :
      ContentOf c (m ++ written)
  | text {t : String} {beside : Content} {first more : List Char} (ht : TextOf t.toList first)
      (hbeside : ContentOf beside more) : ContentOf (.text t beside) (first ++ more)
  | element {name : String} {a : Attributes} {below beside : Content}
      {tag inner close more : List Char}
      (htag : StartTag name a false tag) (hbelow : ContentOf below inner)
        (hclose : EndTag name close)
      (hbeside : ContentOf beside more) :
      ContentOf (.element name a below beside) (tag ++ (inner ++ (close ++ more)))
  | empty {name : String} {a : Attributes} {beside : Content} {tag more : List Char}
      (htag : StartTag name a true tag)
      (hbeside : ContentOf beside more) : ContentOf (.element name a .nil beside) (tag ++ more)

inductive Outside : List Char → Prop where
  | blank {w : List Char} (hw : ∀ c ∈ w, Text.isBlank c = true) : Outside w
  | aside {w m more : List Char} (hw : ∀ c ∈ w, Text.isBlank c = true) (hm : Aside m)
      (h : Outside more) :
      Outside (w ++ (m ++ more))

inductive DocumentOf (tree : Tree) : List Char → Prop where
  | element {before tag inner close after : List Char} (hbefore : Outside before)
      (htag : StartTag tree.name tree.attributes false tag)
        (hcontent : ContentOf tree.content inner)
      (hclose : EndTag tree.name close) (hafter : Outside after) :
      DocumentOf tree (before ++ (tag ++ (inner ++ (close ++ after))))
  | empty {before tag after : List Char} (hbefore : Outside before) (hnil : tree.content = .nil)
      (htag : StartTag tree.name tree.attributes true tag) (hafter : Outside after) :
      DocumentOf tree (before ++ (tag ++ after))

structure ProperElement (name : String) (a : Attributes) : Prop where
  name : IsName name
  attributes : ∀ entry ∈ a.entries, IsName entry.1
  distinct : (a.entries.map (·.1)).Nodup

def Content.IsText : Content → Prop
  | text _ _ => True
  | _ => False

/-- Content of proper elements, with no text that is empty and no text beside text. -/
def Content.Proper : Content → Prop
  | nil => True
  | text t beside => t ≠ "" ∧ ¬beside.IsText ∧ beside.Proper
  | element name a below beside => ProperElement name a ∧ below.Proper ∧ beside.Proper

structure Tree.Proper (t : Tree) : Prop where
  element : ProperElement t.name t.attributes
  content : t.content.Proper

def mergeText : List Event → List Event
  | [] => []
  | .text t path :: events =>
    match mergeText events with
    | .text more _ :: rest => .text (t ++ more) path :: rest
    | rest => .text t path :: rest
  | event :: events => event :: mergeText events

end KeyLayout.Markup
