import ServiceReach.Json.Basic
import ServiceReach.Number.Shortest
import ServiceReach.Text.Quoted

/-
  JSON values as they are shown in messages. A text is shown as it is, but in quotes if it is part
  of an array or an object.
-/

namespace ServiceReach.Json

/-- The names of the numbers without digits in messages. -/
def shownNames : Binary64.SpecialNames := ⟨"inf", "nan"⟩

mutual

/-- A value as a part of another one. -/
def shownInside : Json → String
  | .null => "None"
  | .bool true => "True"
  | .bool false => "False"
  | .int n => toString n
  | .real x => String.ofList (x.text shownNames)
  | .str s => Text.quoted s
  | .arr items => "[" ++ ", ".intercalate (shownItems items) ++ "]"
  | .obj members => "\x7b" ++ ", ".intercalate (shownMembers members) ++ "\x7d"

/-- The items of an array. -/
def shownItems : List Json → List String
  | [] => []
  | item :: items => shownInside item :: shownItems items

/-- The members of an object. -/
def shownMembers : List (String × Json) → List String
  | [] => []
  | (key, value) :: members =>
    (Text.quoted key ++ ": " ++ shownInside value) :: shownMembers members

end

/-- A value as it is shown. -/
def shown : Json → String
  | .str s => s
  | value => shownInside value

end ServiceReach.Json
