import ServiceReach.Json.Token

/-
  Reading JSON: a text is divided into tokens, the tokens form one value. Of several members with
  one key the last gives the value and the first the place. Tokens are read from left to right, and
  the first one that does not fit says why there is no value.
-/

namespace ServiceReach.Json

/-- Why a text is no JSON value. -/
inductive ParseError where
  /-- Something stands where it may not. -/
  | invalid
  /-- An integer has more digits than it may have. -/
  | tooLong (digits : Nat)
deriving DecidableEq, Repr

mutual

/-- The value at the start of the tokens, and the tokens after it. -/
def readValue : Nat → List Token → Except ParseError (Json × List Token)
  | 0, _ => .error .invalid
  | fuel + 1, tokens =>
    match tokens with
    | .str s :: rest => .ok (.str s, rest)
    | .scalar v :: rest => .ok (v, rest)
    | .tooLong digits :: _ => .error (.tooLong digits)
    | .openArray :: .closeArray :: rest => .ok (.arr [], rest)
    | .openArray :: rest => readItems fuel [] rest
    | .openObject :: .closeObject :: rest => .ok (.obj [], rest)
    | .openObject :: rest => readMembers fuel [] rest
    | _ => .error .invalid

/-- The remaining items of an array, of which there is at least one; `done` is backwards. -/
def readItems : Nat → List Json → List Token → Except ParseError (Json × List Token)
  | 0, _, _ => .error .invalid
  | fuel + 1, done, tokens =>
    match readValue fuel tokens with
    | .error e => .error e
    | .ok (v, .comma :: rest) => readItems fuel (v :: done) rest
    | .ok (v, .closeArray :: rest) => .ok (.arr (v :: done).reverse, rest)
    | .ok _ => .error .invalid

/-- The remaining members of an object, of which there is at least one. -/
def readMembers : Nat → List (String × Json) → List Token → Except ParseError (Json × List Token)
  | 0, _, _ => .error .invalid
  | fuel + 1, done, tokens =>
    match tokens with
    | .str key :: .colon :: rest =>
      match readValue fuel rest with
      | .error e => .error e
      | .ok (v, .comma :: rest) => readMembers fuel (setMember key v done) rest
      | .ok (v, .closeObject :: rest) => .ok (.obj (setMember key v done), rest)
      | .ok _ => .error .invalid
    | _ => .error .invalid

end

/-- The value that a text writes, which has to be exactly one. -/
def parse (text : String) : Except ParseError Json := do
  let tokens := tokens text.toList
  match ← readValue (2 * tokens.length + 1) tokens with
  | (value, []) => return value
  | _ => throw .invalid

end ServiceReach.Json
