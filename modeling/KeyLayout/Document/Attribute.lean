import KeyLayout.Markup.Attributes
import KeyLayout.Document.Error
import KeyLayout.Number.Decimal

/-! Values of attributes, as the elements that bear them need them. -/
namespace KeyLayout.Markup.Attributes
open Document

def required (a : Attributes) (element name : String) : Except Error String :=
  match a.get? name with
  | some value => .ok value
  | none => .error (.missingAttribute element name)

/-- Reads a value without the blanks around it; an error shows them. -/
def readValue {α : Type} (read : List Char → Option α) (element name value : String) :
    Except Error α :=
  match read (Text.trimChars value.toList) with
  | some x => .ok x
  | none => .error (.invalidAttribute element name value)

/-- The value of an attribute that may be left out. -/
def read? {α : Type} (read : List Char → Option α) (a : Attributes) (element name : String) :
    Except Error (Option α) :=
  match a.get? name with
  | some value => (readValue read element name value).map some
  | none => .ok none

/-- The value of an attribute that must be there. -/
def read {α : Type} (read : List Char → Option α) (a : Attributes) (element name : String) :
    Except Error α := do
  readValue read element name (← a.required element name)

/-- The value of an attribute that is a number with a prefix for its radix. -/
def prefixed? (a : Attributes) (element name : String) : Except Error (Option Nat) :=
  match a.get? name with
  | some value =>
    match Number.prefixed? value with
    | some n => .ok (some n)
    | none => .error (.invalidAttribute element name value)
  | none => .ok none

end KeyLayout.Markup.Attributes

namespace KeyLayout.Number

def word32? : List Char → Option Nat := unsigned? 10 (1 <<< 32)
def word64? : List Char → Option Nat := unsigned? 10 (1 <<< 64)
def integer32? : List Char → Option Int := signed? (1 <<< 31)

end KeyLayout.Number
