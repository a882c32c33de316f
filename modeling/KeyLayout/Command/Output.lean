import KeyLayout.Markup.Piece
import KeyLayout.Text.Utf8

/-! Text output that may stop accepting bytes. -/
namespace KeyLayout.Command
open Markup

/-- What has been written; `room` is the number of bytes that are still
accepted, if there is a limit. -/
structure Output where
  written : Bytes := []
  room : Option Nat := none
  deriving DecidableEq, Repr

namespace Output

/-- Writes bytes as far as there is room, and tells whether all were accepted. -/
def writeBytes (out : Output) (bytes : Bytes) : Output × Bool :=
  match out.room with
  | none => ({ out with written := out.written ++ bytes }, true)
  | some room =>
    ({ written := out.written ++ bytes.take room, room := some (room - bytes.length) },
      bytes.length ≤ room)

def write (out : Output) (text : String) : Output × Bool := out.writeBytes (Utf8.encode text)

/-- Writes texts one by one, up to the first that is not accepted to its end. -/
def writeEach (out : Output) : List String → Output × Bool
  | [] => (out, true)
  | text :: more =>
    match out.write text with
    | (out, true) => out.writeEach more
    | (out, false) => (out, false)

end Output
end KeyLayout.Command
