/-
  Blank characters, and the words of a text between them. `squash` leaves one space between words
  and none around them, so a squashed text holds no line break (`squash` is how a stretch of
  source becomes the one-line text of an instruction).
-/

namespace ServiceReach.Text

/-- Unicode white space, with the four separators U+001C to U+001F. -/
def isBlank (c : Char) : Bool :=
  let n := c.toNat
  (0x09 ≤ n && n ≤ 0x0d) || (0x1c ≤ n && n ≤ 0x20) || n == 0x85 || n == 0xa0 || n == 0x1680 ||
    (0x2000 ≤ n && n ≤ 0x200a) || n == 0x2028 || n == 0x2029 || n == 0x202f || n == 0x205f ||
    n == 0x3000

/-- Adds a finished word, given backwards, unless it is empty. -/
def closeWord (done : List (List Char)) (word : List Char) : List (List Char) :=
  if word.isEmpty then done else word.reverse :: done

/-- The words of a text; `done` and `word` hold, backwards, what has been read. -/
def wordsFrom (done : List (List Char)) (word : List Char) : List Char → List (List Char)
  | [] => (closeWord done word).reverse
  | c :: rest =>
    if isBlank c then wordsFrom (closeWord done word) [] rest
    else wordsFrom done (c :: word) rest

/-- The longest stretches without a blank, in order. -/
def words (s : String) : List String :=
  (wordsFrom [] [] s.toList).map String.ofList

/-- The words of a text with one space between neighbours. -/
def squash (s : String) : String :=
  " ".intercalate (words s)

end ServiceReach.Text
