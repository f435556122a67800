/-
  Reading UTF-8. The bytes are read one at a time by a machine that knows how many continuation
  bytes are owed and within which bounds the next one lies. A byte that does not fit ends the
  character begun so far as malformed and is then read afresh, so each longest malformed stretch
  counts once.
-/

namespace ServiceReach.Text.Utf8

/-- A character begun: the continuation bytes owed, the bounds of the next, the bits so far. -/
structure Begun where
  owed : Nat
  low : Nat
  high : Nat
  bits : Nat

/-- What has been read, backwards (`none` is a malformed stretch), and the character begun. -/
structure Reader where
  read : List (Option Char)
  begun : Option Begun

/-- A byte where a character starts. -/
def Reader.start (read : List (Option Char)) (b : Nat) : Reader :=
  if b < 0x80 then ⟨some (Char.ofNat b) :: read, none⟩
  else if b < 0xc2 then ⟨none :: read, none⟩
  else if b < 0xe0 then ⟨read, some ⟨1, 0x80, 0xbf, b - 0xc0⟩⟩
  else if b == 0xe0 then ⟨read, some ⟨2, 0xa0, 0xbf, 0⟩⟩
  else if b == 0xed then ⟨read, some ⟨2, 0x80, 0x9f, 0xd⟩⟩
  else if b < 0xf0 then ⟨read, some ⟨2, 0x80, 0xbf, b - 0xe0⟩⟩
  else if b == 0xf0 then ⟨read, some ⟨3, 0x90, 0xbf, 0⟩⟩
  else if b < 0xf4 then ⟨read, some ⟨3, 0x80, 0xbf, b - 0xf0⟩⟩
  else if b == 0xf4 then ⟨read, some ⟨3, 0x80, 0x8f, 4⟩⟩
  else ⟨none :: read, none⟩

/-- The next byte. -/
def Reader.step (r : Reader) (byte : UInt8) : Reader :=
  let b := byte.toNat
  match r.begun with
  | none => Reader.start r.read b
  | some g =>
    if g.low ≤ b && b ≤ g.high then
      let bits := g.bits * 64 + (b - 0x80)
      if g.owed ≤ 1 then ⟨some (Char.ofNat bits) :: r.read, none⟩
      else ⟨r.read, some ⟨g.owed - 1, 0x80, 0xbf, bits⟩⟩
    else Reader.start (none :: r.read) b

/-- All that was read; a character left unfinished is malformed. -/
def Reader.close (r : Reader) : List (Option Char) :=
  match r.begun with
  | none => r.read.reverse
  | some _ => (none :: r.read).reverse

/-- The characters of a byte sequence, with `none` for each malformed stretch. -/
def read (bytes : List UInt8) : List (Option Char) :=
  (bytes.foldl Reader.step ⟨[], none⟩).close

/-- The text of a byte sequence, with U+FFFD for each malformed stretch. -/
def decode (bytes : List UInt8) : String :=
  String.ofList ((read bytes).map fun c => c.getD (Char.ofNat 0xfffd))

/-- The text of a byte sequence without malformed stretches. -/
def decode? (bytes : List UInt8) : Option String :=
  ((read bytes).mapM id).map String.ofList

/-- The bytes of a text. -/
def encode (s : String) : List UInt8 :=
  s.toUTF8.toList

/-- One step of `joinLines`: the text so far, backwards, and whether it ended in a return. -/
def joinLine (state : List Char × Bool) (c : Char) : List Char × Bool :=
  if c == '\r' then ('\n' :: state.1, true)
  else if c == '\n' && state.2 then (state.1, false)
  else (c :: state.1, false)

/-- The text with every line end, `\r\n` or a lone `\r`, written as `\n`. -/
def joinLines (s : String) : String :=
  String.ofList (s.toList.foldl joinLine ([], false)).1.reverse

end ServiceReach.Text.Utf8
