/-! What is odd about a document without making it unusable. -/
namespace KeyLayout.Document

inductive Warning where
  | alreadyPlaced (key : String)
  | notPlaced (key : String)
  | outlineRedefined (id : String)
  | withoutSymbols (key : String)
  | notLoaded (keyboard : String)
  deriving DecidableEq, Repr

namespace Warning

def message : Warning → String
  | alreadyPlaced _ => "Key is already placed in a section, skipping"
  | notPlaced _ => "Key is not placed in any section"
  | outlineRedefined _ => "Outline redefined, replacing the earlier one"
  | withoutSymbols _ => "Key has no symbols"
  | notLoaded _ => "Keyboard failed to load"

/-- What the warning is about. -/
def subject : Warning → String
  | alreadyPlaced key | notPlaced key | withoutSymbols key => "key=" ++ key
  | outlineRedefined id => "outline=" ++ id
  | notLoaded keyboard => "keyboard=" ++ keyboard

def line (w : Warning) : String := s!"warning: {w.message} {w.subject}"

end Warning

/-- A result or an error, with the warnings raised on the way to it. -/
structure Reported (ε α : Type) where
  warnings : List Warning
  result : Except ε α

namespace Reported
variable {ε α β : Type}

def ok (value : α) : Reported ε α := ⟨[], .ok value⟩
def error (e : ε) : Reported ε α := ⟨[], .error e⟩
def ofExcept (result : Except ε α) : Reported ε α := ⟨[], result⟩

/-- Goes on with a result; the warnings so far are kept either way. -/
def andThen (r : Reported ε α) (next : α → Reported ε β) : Reported ε β :=
  match r.result with
  | .ok value => ⟨r.warnings ++ (next value).warnings, (next value).result⟩
  | .error e => ⟨r.warnings, .error e⟩

def mapError {ε' : Type} (f : ε → ε') (r : Reported ε α) : Reported ε' α :=
  ⟨r.warnings, r.result.mapError f⟩

instance : Monad (Reported ε) where
  pure := ok
  bind := andThen

end Reported
end KeyLayout.Document
