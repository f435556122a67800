import ServiceReach.Json.Basic
import ServiceReach.Number.Shortest
import ServiceReach.Text.Hex

/-
  Writing JSON. Strings are written in ASCII: a quote, a backslash and the usual controls have
  short escapes, every other character outside the range from space to tilde is written by its
  UTF-16 units. `pretty` puts each item and member on a line of its own, two spaces deeper than
  its container; `compact` writes one line.
-/

namespace ServiceReach.Json

/-- A UTF-16 unit as an escape. -/
def escapeUnit (n : Nat) : List Char :=
  '\\' :: 'u' :: Text.hex 4 n

/-- A character of a string. -/
def escapeChar (c : Char) : List Char :=
  let n := c.toNat
  if c == '"' then ['\\', '"']
  else if c == '\\' then ['\\', '\\']
  else if c == '\n' then ['\\', 'n']
  else if c == '\r' then ['\\', 'r']
  else if c == '\t' then ['\\', 't']
  else if n == 8 then ['\\', 'b']
  else if n == 12 then ['\\', 'f']
  else if 32 ≤ n && n ≤ 126 then [c]
  else if n < 0x10000 then escapeUnit n
  else escapeUnit (0xd800 + (n - 0x10000) / 0x400) ++ escapeUnit (0xdc00 + (n - 0x10000) % 0x400)

/-- A string with its quotes. -/
def writeString (s : String) : List Char :=
  '"' :: s.toList.flatMap escapeChar ++ ['"']

/-- An integer in decimal digits. -/
def writeInt (n : Int) : List Char :=
  match n with
  | .ofNat n => Nat.toDigits 10 n
  | .negSucc n => '-' :: Nat.toDigits 10 (n + 1)

/-- The names of the numbers without digits. -/
def specialNames : Binary64.SpecialNames := ⟨"Infinity", "NaN"⟩

/-- What stands between an opening bracket, the items and the closing bracket, at some depth. -/
abbrev Gap := Nat → List Char

mutual

/-- A value whose container is `depth` levels deep. -/
def write (gap : Gap) (depth : Nat) : Json → List Char
  | .null => ['n', 'u', 'l', 'l']
  | .bool true => ['t', 'r', 'u', 'e']
  | .bool false => ['f', 'a', 'l', 's', 'e']
  | .int n => writeInt n
  | .real x => x.text specialNames
  | .str s => writeString s
  | .arr [] => ['[', ']']
  | .arr (item :: items) =>
    '[' :: gap (depth + 1) ++ write gap (depth + 1) item ++ writeItems gap (depth + 1) items ++
      gap depth ++ [']']
  | .obj [] => ['\x7b', '\x7d']
  | .obj ((key, value) :: members) =>
    '\x7b' :: gap (depth + 1) ++ writeString key ++ [':', ' '] ++ write gap (depth + 1) value ++
      writeMembers gap (depth + 1) members ++ gap depth ++ ['\x7d']

/-- Further items of an array, each after a comma. -/
def writeItems (gap : Gap) (depth : Nat) : List Json → List Char
  | [] => []
  | item :: items => ',' :: gap depth ++ write gap depth item ++ writeItems gap depth items

/-- Further members of an object, each after a comma. -/
def writeMembers (gap : Gap) (depth : Nat) : List (String × Json) → List Char
  | [] => []
  | (key, value) :: members =>
    ',' :: gap depth ++ writeString key ++ [':', ' '] ++ write gap depth value ++
      writeMembers gap depth members

end

/-- A line break and two spaces for each level. -/
def lineGap : Gap := fun depth => '\n' :: List.replicate (2 * depth) ' '

/-- The value with each item on a line of its own. -/
def pretty (value : Json) : String :=
  String.ofList (write lineGap 0 value)

/-- The value on one line. -/
def compact (value : Json) : String :=
  String.ofList (write (fun _ => []) 0 value)

end ServiceReach.Json
