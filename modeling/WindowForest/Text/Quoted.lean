import WindowForest.Text.Shown

/-!
# Quoted text

Text is quoted between double quotes. A quote and a backslash inside are marked
by a backslash, and so are, by a letter, the line ends, the tab and the null
character. Any other character that would not be shown as it is stands as its
number.
-/

set_option autoImplicit false

namespace WindowForest.Text

/-- The number of a character between braces, in lower-case hexadecimal digits. -/
def numbered (c : Char) : List Char :=
  ['\\', 'u', '\x7b'] ++ Nat.toDigits 16 c.toNat ++ ['\x7d']

/-- What a character is written as inside of quotes. -/
def quoteChar (c : Char) : List Char :=
  match c with
  | '"' => ['\\', '"']
  | '\\' => ['\\', '\\']
  | '\n' => ['\\', 'n']
  | '\r' => ['\\', 'r']
  | '\t' => ['\\', 't']
  | '\x00' => ['\\', '0']
  | c => if isShown c then [c] else numbered c

/-- Text between quotes. -/
def quote (s : String) : String :=
  String.ofList (['"'] ++ s.toList.flatMap quoteChar ++ ['"'])

end WindowForest.Text
