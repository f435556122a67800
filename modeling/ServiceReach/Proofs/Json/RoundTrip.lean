import ServiceReach.Json.Parser
import ServiceReach.Proofs.Json.Strings

/-
  Values survive being written. What is written for a value divides into the tokens of the value
  (`Plain.lexes_write`), and these form the value again (`Plain.reads`), whatever stands between the
  items and whatever follows. This is about values without numbers in which no object has two
  members with one key; of such members only one would be left.
-/

namespace ServiceReach.Json

/-- The value has no numbers, and no object in it has two members with one key. -/
inductive Plain : Json → Prop
  | null : Plain .null
  | bool (b : Bool) : Plain (.bool b)
  | str (s : String) : Plain (.str s)
  | arr {items : List Json} (hitems : ∀ v ∈ items, Plain v) : Plain (.arr items)
  | obj {members : List (String × Json)} (hkeys : (members.map Prod.fst).Nodup)
      (hmembers : ∀ m ∈ members, Plain m.2) : Plain (.obj members)

mutual

/-- The tokens of a value. -/
def tokensOf : Json → List Token
  | .str s => [.str s]
  | .arr [] => [.openArray, .closeArray]
  | .arr (item :: items) => .openArray :: tokensOf item ++ tokensOfItems items ++ [.closeArray]
  | .obj [] => [.openObject, .closeObject]
  | .obj ((key, value) :: members) =>
    .openObject :: .str key :: .colon :: tokensOf value ++ tokensOfMembers members ++
      [.closeObject]
  | v => [.scalar v]

/-- The tokens of further items of an array, each after a comma. -/
def tokensOfItems : List Json → List Token
  | [] => []
  | item :: items => .comma :: tokensOf item ++ tokensOfItems items

/-- The tokens of further members of an object, each after a comma. -/
def tokensOfMembers : List (String × Json) → List Token
  | [] => []
  | (key, value) :: members =>
    .comma :: .str key :: .colon :: tokensOf value ++ tokensOfMembers members

end

/-! ## Dividing into tokens -/

/-- The characters divide into the tokens, whatever follows. -/
def Lexes (cs : List Char) (ts : List Token) : Prop :=
  ∀ fuel done rest, (cs ++ rest).length ≤ fuel → ∃ fuel', rest.length ≤ fuel' ∧
    tokensFrom fuel done (cs ++ rest) = tokensFrom fuel' (ts.reverse ++ done) rest

theorem lexes_nil : Lexes [] [] :=
  fun fuel _ _ hfuel => ⟨fuel, hfuel, rfl⟩

theorem Lexes.append {cs cs' : List Char} {ts ts' : List Token} (h : Lexes cs ts)
    (h' : Lexes cs' ts') : Lexes (cs ++ cs') (ts ++ ts') := by
  intro fuel done rest hfuel
  rw [List.append_assoc] at hfuel ⊢
  obtain ⟨fuel₁, hfuel₁, heq₁⟩ := h fuel done (cs' ++ rest) hfuel
  obtain ⟨fuel₂, hfuel₂, heq₂⟩ := h' fuel₁ (ts.reverse ++ done) rest hfuel₁
  refine ⟨fuel₂, hfuel₂, ?_⟩
  rw [heq₁, heq₂, List.reverse_append, List.append_assoc]

/-- Characters between tokens are passed over. -/
theorem lexes_gap {cs : List Char} (h : ∀ c ∈ cs, isGap c = true) : Lexes cs [] := by
  induction cs with
  | nil => exact lexes_nil
  | cons c cs ih =>
    rw [List.forall_mem_cons] at h
    intro fuel done rest hfuel
    cases fuel with
    | zero => cases hfuel
    | succ fuel =>
      obtain ⟨fuel', hfuel', heq⟩ := ih h.2 fuel done rest (Nat.le_of_succ_le_succ hfuel)
      refine ⟨fuel', hfuel', ?_⟩
      rw [List.cons_append, tokensFrom, if_pos h.1, heq]

/-- Characters that are read as a token, whatever follows, divide into it. -/
theorem lexes_token {c : Char} {cs : List Char} {token : Token} (hgap : isGap c = false)
    (h : ∀ rest, readToken c (cs ++ rest) = some (token, rest)) : Lexes (c :: cs) [token] := by
  intro fuel done rest hfuel
  cases fuel with
  | zero => cases hfuel
  | succ fuel =>
    have hlength : rest.length ≤ fuel := by
      simp only [List.cons_append, List.length_cons, List.length_append] at hfuel
      omega
    refine ⟨fuel, hlength, ?_⟩
    rw [List.cons_append, tokensFrom, if_neg (by simp [hgap]), h rest]
    rfl

theorem lexes_openArray : Lexes ['['] [.openArray] := lexes_token rfl fun _ => rfl
theorem lexes_closeArray : Lexes [']'] [.closeArray] := lexes_token rfl fun _ => rfl
theorem lexes_openObject : Lexes ['\x7b'] [.openObject] := lexes_token rfl fun _ => rfl
theorem lexes_closeObject : Lexes ['\x7d'] [.closeObject] := lexes_token rfl fun _ => rfl
theorem lexes_comma : Lexes [','] [.comma] := lexes_token rfl fun _ => rfl
theorem lexes_colon : Lexes [':'] [.colon] := lexes_token rfl fun _ => rfl

theorem lexes_writeString (s : String) : Lexes (writeString s) [.str s] := by
  have hshape : writeString s = '"' :: (s.toList.flatMap escapeChar ++ ['"']) := rfl
  rw [hshape]
  refine lexes_token rfl fun rest => ?_
  simp [readToken, readString_writeString]

theorem lexes_null : Lexes ['n', 'u', 'l', 'l'] [.scalar .null] := lexes_token rfl fun _ => rfl

theorem lexes_bool (gap : Gap) (depth : Nat) (b : Bool) :
    Lexes (write gap depth (.bool b)) [.scalar (.bool b)] := by
  cases b with
  | true => exact lexes_token rfl fun _ => rfl
  | false => exact lexes_token rfl fun _ => rfl

/-- A key and its value. -/
theorem lexes_member (key : String) {cs : List Char} {ts : List Token} (h : Lexes cs ts) :
    Lexes (writeString key ++ [':', ' '] ++ cs) ([.str key, .colon] ++ ts) := by
  have hspace : Lexes [' '] [] := lexes_gap (List.forall_mem_singleton.mpr rfl)
  exact ((lexes_writeString key).append (lexes_colon.append hspace)).append h

section Write

variable {gap : Gap} (hgap : ∀ depth, ∀ c ∈ gap depth, isGap c = true)

include hgap

theorem lexes_writeItems {items : List Json}
    (h : ∀ v ∈ items, ∀ depth, Lexes (write gap depth v) (tokensOf v)) (depth : Nat) :
    Lexes (writeItems gap depth items) (tokensOfItems items) := by
  induction items with
  | nil => exact lexes_nil
  | cons item items ih =>
    rw [List.forall_mem_cons] at h
    rw [writeItems, tokensOfItems]
    exact ((lexes_comma.append (lexes_gap (hgap depth))).append (h.1 depth)).append (ih h.2)

theorem lexes_writeMembers {members : List (String × Json)}
    (h : ∀ m ∈ members, ∀ depth, Lexes (write gap depth m.2) (tokensOf m.2)) (depth : Nat) :
    Lexes (writeMembers gap depth members) (tokensOfMembers members) := by
  induction members with
  | nil => exact lexes_nil
  | cons member members ih =>
    rw [List.forall_mem_cons] at h
    rw [writeMembers, tokensOfMembers]
    have hmember := lexes_member member.1 (h.1 depth)
    have hall := ((lexes_comma.append (lexes_gap (hgap depth))).append hmember).append (ih h.2)
    simpa using hall

/-- What is written for a value divides into the tokens of the value. -/
theorem Plain.lexes_write {v : Json} (h : v.Plain) (depth : Nat) :
    Lexes (write gap depth v) (tokensOf v) := by
  induction h generalizing depth with
  | null => exact lexes_null
  | bool b => exact lexes_bool gap depth b
  | str s => exact lexes_writeString s
  | @arr items _ ih =>
    cases items with
    | nil => exact lexes_openArray.append lexes_closeArray
    | cons item items =>
      rw [List.forall_mem_cons] at ih
      rw [write, tokensOf]
      have hfirst := (lexes_openArray.append (lexes_gap (hgap (depth + 1)))).append
        (ih.1 (depth + 1))
      have hlast := (lexes_gap (hgap depth)).append lexes_closeArray
      have hall := (hfirst.append (lexes_writeItems hgap ih.2 (depth + 1))).append hlast
      simpa using hall
  | @obj members _ _ ih =>
    cases members with
    | nil => exact lexes_openObject.append lexes_closeObject
    | cons member members =>
      rw [List.forall_mem_cons] at ih
      rw [write, tokensOf]
      have hfirst := (lexes_openObject.append (lexes_gap (hgap (depth + 1)))).append
        (lexes_member member.1 (ih.1 (depth + 1)))
      have hlast := (lexes_gap (hgap depth)).append lexes_closeObject
      have hall := (hfirst.append (lexes_writeMembers hgap ih.2 (depth + 1))).append hlast
      simpa using hall

end Write

/-! ## Forming values -/

theorem tokensOfItems_cons (item : Json) (items : List Json) (rest : List Token) :
    tokensOfItems (item :: items) ++ rest =
      .comma :: (tokensOf item ++ (tokensOfItems items ++ rest)) := by
  simp [tokensOfItems]

theorem tokensOfMembers_cons (member : String × Json) (members : List (String × Json))
    (rest : List Token) :
    tokensOfMembers (member :: members) ++ rest =
      .comma :: .str member.1 :: .colon ::
        (tokensOf member.2 ++ (tokensOfMembers members ++ rest)) := by
  simp [tokensOfMembers]

theorem tokensOf_ne_closeArray (v : Json) (ts rest : List Token) :
    tokensOf v ++ ts ≠ .closeArray :: rest := by
  cases v with
  | arr items => cases items <;> simp [tokensOf]
  | obj members => cases members <;> simp [tokensOf]
  | _ => simp [tokensOf]

theorem tokensOf_length_pos (v : Json) : 0 < (tokensOf v).length := by
  cases v with
  | arr items => cases items <;> simp [tokensOf]
  | obj members => cases members <;> simp [tokensOf]
  | _ => simp [tokensOf]

/-- The tokens of a value are read as the value, whatever follows. -/
def Reads (v : Json) : Prop :=
  ∀ fuel rest, (tokensOf v).length ≤ fuel → readValue fuel (tokensOf v ++ rest) = .ok (v, rest)

theorem reads_of_succ {v : Json} (h : ∀ fuel rest, (tokensOf v).length ≤ fuel + 1 →
    readValue (fuel + 1) (tokensOf v ++ rest) = .ok (v, rest)) : Reads v := by
  intro fuel rest hfuel
  cases fuel with
  | zero => exact absurd hfuel (Nat.not_le.mpr (tokensOf_length_pos v))
  | succ fuel => exact h fuel rest hfuel

section Steps

variable {fuel : Nat} {ts rest : List Token} {v : Json}

theorem readItems_more (h : readValue fuel ts = .ok (v, .comma :: rest)) (done : List Json) :
    readItems (fuel + 1) done ts = readItems fuel (v :: done) rest := by
  rw [readItems, h]

theorem readItems_last (h : readValue fuel ts = .ok (v, .closeArray :: rest)) (done : List Json) :
    readItems (fuel + 1) done ts = .ok (.arr (v :: done).reverse, rest) := by
  rw [readItems, h]

theorem readMembers_more (h : readValue fuel ts = .ok (v, .comma :: rest)) (key : String)
    (done : List (String × Json)) :
    readMembers (fuel + 1) done (.str key :: .colon :: ts) =
      readMembers fuel (setMember key v done) rest := by
  rw [readMembers, h]

theorem readMembers_last (h : readValue fuel ts = .ok (v, .closeObject :: rest)) (key : String)
    (done : List (String × Json)) :
    readMembers (fuel + 1) done (.str key :: .colon :: ts) =
      .ok (.obj (setMember key v done), rest) := by
  rw [readMembers, h]

theorem readValue_array (h : ∀ rest, ts ≠ .closeArray :: rest) :
    readValue (fuel + 1) (.openArray :: ts) = readItems fuel [] ts := by
  rw [readValue]
  exact h

theorem readValue_object (h : ∀ rest, ts ≠ .closeObject :: rest) :
    readValue (fuel + 1) (.openObject :: ts) = readMembers fuel [] ts := by
  rw [readValue]
  exact h

end Steps

theorem reads_items {item : Json} {items : List Json} (h : ∀ v ∈ item :: items, Reads v)
    (done : List Json) {fuel : Nat} (rest : List Token)
    (hfuel : (tokensOf item ++ tokensOfItems items).length < fuel) :
    readItems fuel done (tokensOf item ++ (tokensOfItems items ++ .closeArray :: rest)) =
      .ok (.arr (done.reverse ++ item :: items), rest) := by
  obtain ⟨fuel, rfl⟩ : ∃ n, fuel = n + 1 := ⟨fuel - 1, by omega⟩
  induction items generalizing item done fuel with
  | nil =>
    rw [tokensOfItems, List.append_nil] at hfuel
    rw [tokensOfItems, List.nil_append, readItems_last (h item List.mem_cons_self fuel _
      (Nat.lt_succ_iff.mp hfuel)), List.reverse_cons]
  | cons next items ih =>
    simp only [tokensOfItems, List.cons_append, List.length_append, List.length_cons] at hfuel
    obtain ⟨fuel, rfl⟩ : ∃ n, fuel = n + 1 := ⟨fuel - 1, by omega⟩
    have hlength : (tokensOf next ++ tokensOfItems items).length < fuel + 1 := by
      rw [List.length_append]
      omega
    rw [tokensOfItems_cons, readItems_more (h item List.mem_cons_self (fuel + 1) _ (by omega)),
      ih (fun v hv => h v (List.mem_cons_of_mem item hv)) (item :: done) fuel hlength,
      List.reverse_cons, List.append_assoc, List.singleton_append]

theorem setMember_of_not_mem {key : String} {value : Json} {members : List (String × Json)}
    (h : key ∉ members.map Prod.fst) : setMember key value members = members ++ [(key, value)] := by
  induction members with
  | nil => rfl
  | cons member members ih =>
    rw [List.map_cons, List.mem_cons, not_or] at h
    rw [setMember, if_neg (by simpa using Ne.symm h.1), ih h.2, List.cons_append]

theorem setMember_of_nodup {member : String × Json} {done members : List (String × Json)}
    (h : ((done ++ member :: members).map Prod.fst).Nodup) :
    setMember member.1 member.2 done = done ++ [member] := by
  rw [List.map_append, List.map_cons] at h
  exact setMember_of_not_mem fun hkey =>
    (List.nodup_append.mp h).2.2 member.1 hkey member.1 List.mem_cons_self rfl

theorem reads_members {member : String × Json} {members : List (String × Json)}
    (h : ∀ m ∈ member :: members, Reads m.2) (done : List (String × Json)) {fuel : Nat}
    (rest : List Token) (hkeys : ((done ++ member :: members).map Prod.fst).Nodup)
    (hfuel : (tokensOf member.2 ++ tokensOfMembers members).length < fuel) :
    readMembers fuel done (.str member.1 :: .colon :: (tokensOf member.2 ++
        (tokensOfMembers members ++ .closeObject :: rest))) =
      .ok (.obj (done ++ member :: members), rest) := by
  obtain ⟨fuel, rfl⟩ : ∃ n, fuel = n + 1 := ⟨fuel - 1, by omega⟩
  induction members generalizing member done fuel with
  | nil =>
    rw [tokensOfMembers, List.append_nil] at hfuel
    rw [tokensOfMembers, List.nil_append, readMembers_last (h member List.mem_cons_self fuel _
      (Nat.lt_succ_iff.mp hfuel)), setMember_of_nodup hkeys]
  | cons next members ih =>
    simp only [tokensOfMembers, List.cons_append, List.length_append, List.length_cons] at hfuel
    obtain ⟨fuel, rfl⟩ : ∃ n, fuel = n + 1 := ⟨fuel - 1, by omega⟩
    have hlength : (tokensOf next.2 ++ tokensOfMembers members).length < fuel + 1 := by
      rw [List.length_append]
      omega
    have hset := setMember_of_nodup hkeys
    rw [List.append_cons] at hkeys
    have hnext := ih (fun m hm => h m (List.mem_cons_of_mem _ hm)) _ hkeys fuel hlength
    rw [tokensOfMembers_cons,
      readMembers_more (h member List.mem_cons_self (fuel + 1) _ (by omega)), hset, hnext,
      ← List.append_cons]

/-- The tokens of a value form the value. -/
theorem Plain.reads {v : Json} (h : v.Plain) : Reads v := by
  induction h with
  | null => exact reads_of_succ fun _ _ _ => rfl
  | bool b => exact reads_of_succ fun _ _ _ => rfl
  | str s => exact reads_of_succ fun _ _ _ => rfl
  | @arr items _ ih =>
    refine reads_of_succ fun fuel rest hfuel => ?_
    cases items with
    | nil => rfl
    | cons item items =>
      simp only [tokensOf, List.cons_append, List.length_cons, List.length_append,
        List.length_nil] at hfuel
      have hlength : (tokensOf item ++ tokensOfItems items).length < fuel := by
        rw [List.length_append]
        omega
      rw [tokensOf, List.cons_append, List.cons_append, List.cons_append, List.append_assoc,
        List.append_assoc, readValue_array (tokensOf_ne_closeArray item _)]
      exact reads_items ih [] rest hlength
  | @obj members hkeys _ ih =>
    refine reads_of_succ fun fuel rest hfuel => ?_
    cases members with
    | nil => rfl
    | cons member members =>
      simp only [tokensOf, List.cons_append, List.length_cons, List.length_append,
        List.length_nil] at hfuel
      have hlength : (tokensOf member.2 ++ tokensOfMembers members).length < fuel := by
        rw [List.length_append]
        omega
      have hnot : ∀ ts rest, Token.str member.1 :: ts ≠ .closeObject :: rest := by
        intro ts rest h
        cases h
      rw [tokensOf]
      simp only [List.cons_append, List.append_assoc, List.nil_append]
      rw [readValue_object (hnot _)]
      exact reads_members ih [] rest hkeys hlength

/-! ## Whole texts -/

theorem tokens_of_lexes {cs : List Char} {ts : List Token} (h : Lexes cs ts) : tokens cs = ts := by
  have hlength : (cs ++ []).length ≤ cs.length := by simp
  obtain ⟨fuel, _, heq⟩ := h cs.length [] [] hlength
  rw [List.append_nil] at heq
  rw [tokens, heq]
  simp [tokensFrom]

/-- What is written for a value, with blanks between the items, is read as the value. -/
theorem Plain.parse_pretty {v : Json} (h : v.Plain) : parse v.pretty = .ok v := by
  have hgap : ∀ depth, ∀ c ∈ lineGap depth, isGap c = true := by
    intro depth c hc
    rcases List.mem_cons.mp hc with rfl | hc
    · rfl
    · rw [List.eq_of_mem_replicate hc]
      rfl
  have htokens : tokens v.pretty.toList = tokensOf v := by
    rw [pretty, String.toList_ofList]
    exact tokens_of_lexes (h.lexes_write hgap 0)
  have hread := h.reads (2 * (tokensOf v).length + 1) [] (by omega)
  rw [List.append_nil] at hread
  unfold parse
  rw [htokens]
  dsimp only
  rw [hread]
  rfl

end ServiceReach.Json
