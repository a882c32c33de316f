import KeyLayout.Number.Digits
import KeyLayout.Text.Unseen

/-! Text in double quotes, with escapes for what could not be told apart in it. -/
namespace KeyLayout.Text

def escapeChar (c : Char) : String :=
  match c with
  | '\x00' => "\\0"
  | '\t' => "\\t"
  | '\r' => "\\r"
  | '\n' => "\\n"
  | '"' => "\\\""
  | '\\' => "\\\\"
  | c => if isUnseen c then "\\u\x7b" ++ Number.hex 1 c.toNat ++ "\x7d" else c.toString

def quote (text : String) : String := "\"" ++ String.join (text.toList.map escapeChar) ++ "\""

end KeyLayout.Text
