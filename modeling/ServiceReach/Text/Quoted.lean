import ServiceReach.Text.Hex
import ServiceReach.Text.Printable

/-
  Texts in quotes, on one line. Single quotes stand around a text, or double quotes if it holds a
  single quote and no double one. A backslash, the quote in use and every character that cannot be
  shown are escaped; the escape of a character is as short as its code point allows.
-/

namespace ServiceReach.Text

/-- The quote to put around a text. -/
def quoteFor (s : List Char) : Char :=
  if s.contains '\'' && !s.contains '"' then '"' else '\''

/-- A character inside the quotes `quote`. -/
def quoteChar (quote c : Char) : List Char :=
  let n := c.toNat
  if c == quote || c == '\\' then ['\\', c]
  else if c == '\n' then ['\\', 'n']
  else if c == '\r' then ['\\', 'r']
  else if c == '\t' then ['\\', 't']
  else if isPrintable c then [c]
  else if n < 0x100 then '\\' :: 'x' :: hex 2 n
  else if n < 0x10000 then '\\' :: 'u' :: hex 4 n
  else '\\' :: 'U' :: hex 8 n

/-- The text in quotes. -/
def quoted (s : String) : String :=
  let quote := quoteFor s.toList
  String.ofList (quote :: s.toList.flatMap (quoteChar quote) ++ [quote])

/-- A list of texts: each in quotes, with commas between and brackets around. -/
def quotedList (items : List String) : String :=
  "[" ++ ", ".intercalate (items.map quoted) ++ "]"

end ServiceReach.Text
