import KernelTyping.Text.Printable

/-!
# KernelTyping.Text.Quoted — text in double quotes

Quoted text stands between double quotes, with the quote, the backslash, the common controls and
whatever cannot be shown escaped by a backslash.
-/

namespace KernelTyping.Text

/-- How a character is written between quotes: by a letter after a backslash, by its hexadecimal
code point in braces after one, or as it is. -/
def escapeChar (c : Char) : List Char :=
  match c with
  | '\x00' => ['\\', '0']
  | '\t' => ['\\', 't']
  | '\r' => ['\\', 'r']
  | '\n' => ['\\', 'n']
  | '\\' => ['\\', '\\']
  | '"' => ['\\', '"']
  | c => if isPrintable c then [c] else ['\\', 'u', '\x7b'] ++ Nat.toDigits 16 c.toNat ++ ['\x7d']

/-- The text between double quotes. -/
def quote (s : String) : String :=
  String.ofList ('"' :: s.toList.flatMap escapeChar ++ ['"'])

end KernelTyping.Text
