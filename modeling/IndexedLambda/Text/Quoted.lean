import IndexedLambda.Text.Printable
/-!
# Quoted text

A text between double quotes in which every character can be read back: the quote and the backslash
are written after a backslash, the usual control characters have a letter, and any other character
that does not print by itself is written with its code point in hexadecimal.
-/

namespace IndexedLambda.Text

/-- The digits of a number in base sixteen, most significant first. -/
def hexDigits (n : Nat) : String := String.ofList (Nat.toDigits 16 n)

/-- How one character is written between quotes. -/
def escape (c : Char) : String :=
  match c with
  | '"' => "\\\""
  | '\\' => "\\\\"
  | '\n' => "\\n"
  | '\r' => "\\r"
  | '\t' => "\\t"
  | '\x00' => "\\0"
  | c => if isPrintable c then c.toString else "\\u\x7b" ++ hexDigits c.toNat ++ "\x7d"

/-- The text between double quotes. -/
def quoted (s : String) : String := "\"" ++ String.join (s.toList.map escape) ++ "\""

end IndexedLambda.Text
