import ServiceReach.Source.Tree
import ServiceReach.Text.Utf8

/-
  The text of a source file, held as bytes, because the nodes of its tree span bytes.
-/

namespace ServiceReach.Source

/-- The bytes from `start` up to `stop`. -/
def slice (bytes : Array UInt8) (start stop : Nat) : List UInt8 :=
  (bytes.extract start stop).toList

/-- The text of the bytes from `start` up to `stop`. -/
def sliceText (bytes : Array UInt8) (start stop : Nat) : String :=
  Text.Utf8.decode (slice bytes start stop)

/-- The text of a node. -/
def textOf (bytes : Array UInt8) (t : Tree) : String :=
  sliceText bytes t.start t.stop

/-- The line on which a byte stands, counted from 0. -/
def lineAt (bytes : Array UInt8) (offset : Nat) : Nat :=
  bytes.foldl (fun n b => if b == 10 then n + 1 else n) 0 0 offset

/-- The number of bytes between the start of its line and a byte. -/
def columnAt (bytes : Array UInt8) (offset : Nat) : Nat :=
  bytes.foldl (fun n b => if b == 10 then 0 else n + 1) 0 0 offset

/-- The line of a node, counted from 0. -/
def lineOf (bytes : Array UInt8) (t : Tree) : Nat :=
  lineAt bytes t.start

/-- The column of a node, counted from 0. -/
def columnOf (bytes : Array UInt8) (t : Tree) : Nat :=
  columnAt bytes t.start

/-- An index counted from the end if negative, held between the two ends. -/
def clampIndex (size : Nat) (i : Int) : Nat :=
  min size (if i < 0 then (i + size).toNat else i.toNat)

/-- The text of the bytes between two indices, either of them counted from the end if negative. -/
def textBetween (bytes : Array UInt8) (start stop : Int) : String :=
  sliceText bytes (clampIndex bytes.size start) (clampIndex bytes.size stop)

end ServiceReach.Source
