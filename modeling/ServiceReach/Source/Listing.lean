import ServiceReach.Json.Basic
import ServiceReach.Source.Tree

/-
  Syntax trees as JSON. A tree is an array of rows in preorder; a row is an array of whether the
  node is named, its kind, its first byte, the byte after it, the number of its children and, if it
  has one, its field.
-/

namespace ServiceReach.Source

/-- A number in a row; anything else counts as zero. -/
def numberAt (items : List Json) (i : Nat) : Nat :=
  ((items[i]?.bind Json.int?).map Int.toNat).getD 0

/-- A text in a row. -/
def textAt? (items : List Json) (i : Nat) : Option String :=
  items[i]?.bind Json.str?

/-- The row at an index of a listing. -/
def Tree.Row.ofJson (row : Json) (index : Nat) : Row :=
  let items := (row.arr?).getD []
  { label :=
      { kind := .ofSymbol ((textAt? items 1).getD "")
        named := numberAt items 0 == 1
        id := index
        start := numberAt items 2
        stop := numberAt items 3
        field := (textAt? items 5).map Field.ofName }
    children := numberAt items 4 }

/-- The tree of a listing; an empty listing is an empty file. -/
def Tree.ofJson (listing : List Json) : Tree :=
  let rows := listing.zipIdx.map fun (row, index) => Row.ofJson row index
  (ofRows? rows).getD (.node { kind := .other "program" } [])

end ServiceReach.Source
