import ServiceReach.Json.Basic
import ServiceReach.Text.Digit
import ServiceReach.Text.Hex

/-
  The tokens of a JSON text. Blanks between tokens are the four of the format. A string may hold
  any character from U+0020 on; two escapes that form a surrogate pair are one character. Numbers
  have no leading zeros. The words `NaN`, `Infinity` and `-Infinity` are numbers. What is no token
  ends the tokens with a mark of its own.
-/

namespace ServiceReach.Json

/-- A token: a bracket, a separator, a string, a value of one word, or what is none of these. -/
inductive Token where
  | openArray
  | closeArray
  | openObject
  | closeObject
  | comma
  | colon
  | str (value : String)
  | scalar (value : Json)
  /-- An integer with more digits than it may have. -/
  | tooLong (digits : Nat)
  /-- The rest of a text that cannot be divided further. -/
  | invalid

/-- Whether a UTF-16 unit is the first of a pair. -/
def isHighUnit (n : Nat) : Bool := 0xd800 ≤ n && n < 0xdc00

/-- Whether a UTF-16 unit is the second of a pair. -/
def isLowUnit (n : Nat) : Bool := 0xdc00 ≤ n && n < 0xe000

/-- Adds a code point or UTF-16 unit to a string read backwards; a pair becomes one code point. -/
def pushUnit (done : List Nat) (unit : Nat) : List Nat :=
  match done with
  | [] => [unit]
  | last :: rest =>
    if isHighUnit last && isLowUnit unit then
      (0x10000 + (last - 0xd800) * 0x400 + (unit - 0xdc00)) :: rest
    else unit :: last :: rest

/-- The character of a code point; a unit left without its partner cannot be shown. -/
def unitChar (n : Nat) : Char :=
  if isHighUnit n || isLowUnit n then Char.ofNat 0xfffd else Char.ofNat n

/-- The code point of a one-letter escape. -/
def shortEscape? (c : Char) : Option Nat :=
  match c with
  | '"' => some 34
  | '\\' => some 92
  | '/' => some 47
  | 'b' => some 8
  | 'f' => some 12
  | 'n' => some 10
  | 'r' => some 13
  | 't' => some 9
  | _ => none

/-- The number of four hexadecimal digits. -/
def hexUnit? (a b c d : Char) : Option Nat := do
  let a ← Text.hexValue? a
  let b ← Text.hexValue? b
  let c ← Text.hexValue? c
  let d ← Text.hexValue? d
  return ((a * 16 + b) * 16 + c) * 16 + d

/-- A string after its opening quote, and what follows its closing quote. -/
def readString (done : List Nat) : List Char → Option (String × List Char)
  | [] => none
  | '"' :: rest => some (String.ofList (done.reverse.map unitChar), rest)
  | '\\' :: 'u' :: a :: b :: c :: d :: rest =>
    match hexUnit? a b c d with
    | none => none
    | some unit => readString (pushUnit done unit) rest
  | '\\' :: c :: rest =>
    match shortEscape? c with
    | none => none
    | some code => readString (code :: done) rest
  | c :: rest => if c.toNat < 0x20 then none else readString (c.toNat :: done) rest

/-- The leading decimal digits, and the rest. -/
def spanDigits (cs : List Char) : List Char × List Char :=
  (cs.takeWhile Char.isDigit, cs.dropWhile Char.isDigit)

/-- The integer part of a number: a zero, or digits that do not start with one. -/
def spanInteger (cs : List Char) : Option (List Char × List Char) :=
  match cs with
  | '0' :: rest => some (['0'], rest)
  | _ =>
    match spanDigits cs with
    | ([], _) => none
    | (digits, rest) => some (digits, rest)

/-- The digits after the point of a number; none if no digit follows the point. -/
def spanFraction (cs : List Char) : Option (List Char) × List Char :=
  match cs with
  | '.' :: rest =>
    match spanDigits rest with
    | ([], _) => (none, cs)
    | (digits, rest) => (some digits, rest)
  | _ => (none, cs)

/-- Whether an exponent is negative, by its sign. -/
def spanSign (cs : List Char) : Bool × List Char :=
  match cs with
  | '+' :: rest => (false, rest)
  | '-' :: rest => (true, rest)
  | _ => (false, cs)

/-- An integer, by whether it is negative and its digits. -/
def signed (negative : Bool) (digits : List Char) : Int :=
  let n := Int.ofNat (Text.digitsValue digits)
  if negative then -n else n

/-- The exponent of a number; none if its mark is followed by no digit. -/
def spanExponent (cs : List Char) : Option Int × List Char :=
  match cs with
  | c :: rest =>
    if c == 'e' || c == 'E' then
      let (negative, rest) := spanSign rest
      match spanDigits rest with
      | ([], _) => (none, cs)
      | (digits, rest) => (some (signed negative digits), rest)
    else (none, cs)
  | [] => (none, cs)

/-- An integer, by its sign and its digits. -/
def integerToken (negative : Bool) (digits : List Char) : Token :=
  if Text.maxDigits < digits.length then .tooLong digits.length
  else .scalar (.int (signed negative digits))

/-- A number that is no integer, by its parts. -/
def realToken (negative : Bool) (digits fraction : List Char) (exponent : Int) : Token :=
  .scalar (.real
    (.ofDecimal negative (digits ++ fraction) (exponent - Int.ofNat fraction.length)))

/-- A number without its sign. -/
def readMagnitude (negative : Bool) (cs : List Char) : Option (Token × List Char) := do
  let (digits, rest) ← spanInteger cs
  let (fraction, rest) := spanFraction rest
  let (exponent, rest) := spanExponent rest
  match fraction, exponent with
  | none, none => return (integerToken negative digits, rest)
  | _, _ => return (realToken negative digits (fraction.getD []) (exponent.getD 0), rest)

/-- What follows `word`, if the text starts with it. -/
def afterWord? (word : List Char) (cs : List Char) : Option (List Char) :=
  if word.isPrefixOf cs then some (cs.drop word.length) else none

/-- The words that are values. -/
def valueWords : List (List Char × Json) :=
  [("null".toList, .null), ("true".toList, .bool true), ("false".toList, .bool false),
   ("NaN".toList, .real .nan), ("Infinity".toList, .real (.infinite false)),
   ("-Infinity".toList, .real (.infinite true))]

/-- A value of one word, and what follows it. -/
def readScalar (cs : List Char) : Option (Token × List Char) :=
  match valueWords.findSome? fun (word, value) => (afterWord? word cs).map (value, ·) with
  | some (value, rest) => some (.scalar value, rest)
  | none =>
    match cs with
    | '-' :: rest => readMagnitude true rest
    | _ => readMagnitude false cs

/-- The token that starts with the character `c`, and what follows it. -/
def readToken (c : Char) (rest : List Char) : Option (Token × List Char) :=
  match c with
  | '[' => some (.openArray, rest)
  | ']' => some (.closeArray, rest)
  | '\x7b' => some (.openObject, rest)
  | '\x7d' => some (.closeObject, rest)
  | ',' => some (.comma, rest)
  | ':' => some (.colon, rest)
  | '"' => (readString [] rest).map fun (s, rest) => (.str s, rest)
  | c => readScalar (c :: rest)

/-- Whether a character may stand between tokens. -/
def isGap (c : Char) : Bool :=
  c == ' ' || c == '\t' || c == '\n' || c == '\r'

/-- The tokens of a text of at most `fuel` characters, after those in `done`. -/
def tokensFrom : Nat → List Token → List Char → List Token
  | _, done, [] => done.reverse
  | 0, done, _ :: _ => (.invalid :: done).reverse
  | fuel + 1, done, c :: rest =>
    if isGap c then tokensFrom fuel done rest
    else
      match readToken c rest with
      | none => (.invalid :: done).reverse
      | some (token, rest) => tokensFrom fuel (token :: done) rest

/-- The tokens of a text. -/
def tokens (cs : List Char) : List Token :=
  tokensFrom cs.length [] cs

end ServiceReach.Json
