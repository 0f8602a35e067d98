import EvmAccess.Text.Hidden

/-!
# Quoted text

A text in a message stands between double quotes, with a backslash before a quote or a backslash,
short escapes for the common controls, and a numbered escape for every other hidden character.
-/

namespace EvmAccess

/-- How a character is written between quotes. -/
def escaped (c : Char) : String :=
  match c with
  | '"' => "\\\""
  | '\\' => "\\\\"
  | '\x00' => "\\0"
  | '\t' => "\\t"
  | '\r' => "\\r"
  | '\n' => "\\n"
  | c =>
    if isHidden c then "\\u\x7b" ++ String.ofList (Nat.toDigits 16 c.toNat) ++ "\x7d"
    else c.toString

/-- The text between double quotes. -/
def quoted (text : String) : String :=
  "\"" ++ String.join (text.toList.map escaped) ++ "\""

end EvmAccess
