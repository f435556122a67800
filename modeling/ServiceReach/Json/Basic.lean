import ServiceReach.Number.Binary64

/-
  JSON values. The members of an object keep the order in which they were written, because the
  order of the keys of a configuration decides the order of the messages about them. Numbers are
  integers if they are written without a point and an exponent.
-/

namespace ServiceReach

/-- A JSON value. -/
inductive Json where
  | null
  | bool (value : Bool)
  | int (value : Int)
  /-- A number that is written with a point or an exponent. -/
  | real (value : Binary64)
  | str (value : String)
  | arr (items : List Json)
  | obj (members : List (String × Json))
deriving Inhabited, Repr

namespace Json

/-- The list with `key` set to `value`: in place if the key is there, else at the end. -/
def setMember {α : Type} (key : String) (value : α) : List (String × α) → List (String × α)
  | [] => [(key, value)]
  | (k, v) :: rest => if k == key then (k, value) :: rest else (k, v) :: setMember key value rest

/-- The member of an object by its key. -/
def get? (key : String) : Json → Option Json
  | .obj members => members.lookup key
  | _ => none

/-- The text of a string. -/
def str? : Json → Option String
  | .str s => some s
  | _ => none

/-- The value of an integer. -/
def int? : Json → Option Int
  | .int n => some n
  | _ => none

/-- The value of a boolean. -/
def bool? : Json → Option Bool
  | .bool b => some b
  | _ => none

/-- The items of an array. -/
def arr? : Json → Option (List Json)
  | .arr items => some items
  | _ => none

/-- A text, or null if there is none. -/
def ofOption (s : Option String) : Json :=
  match s with
  | none => .null
  | some s => .str s

/-- The array of the texts. -/
def ofStrings (items : List String) : Json :=
  .arr (items.map .str)

/-- A natural number. -/
def ofNat (n : Nat) : Json :=
  .int (Int.ofNat n)

end Json
end ServiceReach
