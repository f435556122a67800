import ServiceReach.Text.Blank
import ServiceReach.Text.Part

/-
  Types as they are written in a source: a dotted name with type arguments, annotations and array
  brackets. `eraseArguments` drops what stands in angle brackets, and all blanks; `readType` takes
  a written type apart into a bare name and a number of dimensions.
-/

namespace ServiceReach.Index

/-- One step of `eraseArguments`: the depth of angle brackets, and what is kept, backwards. -/
def eraseChar (state : Int × List Char) (c : Char) : Int × List Char :=
  if c == '<' then (state.1 + 1, state.2)
  else if c == '>' then (state.1 - 1, state.2)
  else if state.1 == 0 && !Text.isBlank c then (state.1, c :: state.2)
  else state

/-- The characters outside of all angle brackets, blanks left out. -/
def eraseArguments (s : String) : String :=
  String.ofList (s.toList.foldl eraseChar (0, [])).2.reverse

/-- Takes pairs of brackets off the end of a text given backwards, and counts them. -/
def takeBrackets : List Char → List Char × Nat
  | ']' :: '[' :: rest =>
    let (base, n) := takeBrackets rest
    (base, n + 1)
  | cs => (cs, 0)

/-- A trailing ellipsis counts as a pair of brackets. -/
def ellipsisToBrackets (s : String) : String :=
  if Text.endsWith "..." s then Text.dropLast 3 s ++ "[]" else s

/-- The bare name and the number of dimensions of a written type. -/
def readType (raw : String) : String × Nat :=
  let kept := (Text.words raw).filter fun w => !Text.startsWith "@" w
  let text := ellipsisToBrackets (eraseArguments (" ".intercalate kept))
  let (base, dims) := takeBrackets text.toList.reverse
  (String.ofList base.reverse, dims)

/-- A type name with pairs of brackets after it. -/
def withDims (name : String) (dims : Nat) : String :=
  name ++ String.join (List.replicate dims "[]")

end ServiceReach.Index
