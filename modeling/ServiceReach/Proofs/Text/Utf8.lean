import ServiceReach.Text.Utf8

/-
  What is written can be read. The machine that reads UTF-8 takes the bytes of one character from
  between characters to between characters again, with just that character read
  (`foldl_step_char`), so the bytes of a text decode to the text (`decode?_encode`).
-/

namespace ServiceReach.Text.Utf8

/-! ## The bytes of a text -/

theorem toList_loop (bytes : ByteArray) (i : Nat) (before : List UInt8) :
    ByteArray.toList.loop bytes i before = before.reverse ++ bytes.data.toList.drop i := by
  fun_induction ByteArray.toList.loop bytes i before with
  | case1 i before h ih =>
    have hi : i < bytes.data.toList.length := by simpa using h
    rw [ih, List.drop_eq_getElem_cons hi]
    simp [ByteArray.get!, h]
  | case2 i before h =>
    rw [List.drop_eq_nil_of_le (by simpa using Nat.le_of_not_lt h), List.append_nil]

theorem encode_eq_flatMap (s : String) : encode s = s.toList.flatMap String.utf8EncodeChar := by
  have hdata : encode s = s.toByteArray.data.toList := by
    simp [encode, ByteArray.toList, toList_loop]
  rw [hdata, ← String.utf8Encode_toList, List.utf8Encode, List.toList_data_toByteArray]

/-! ## One character -/

section Steps

variable {read : List (Option Char)} {owed low high bits b v : Nat}

theorem toNat_byte (h : b < 256) : (UInt8.ofNat b).toNat = b :=
  UInt8.toNat_ofNat_of_lt h

/-- A continuation byte within the bounds, when more are owed after it. -/
theorem step_more (hlow : low ≤ b) (hhigh : b ≤ high) (hbyte : b < 256) :
    Reader.step ⟨read, some ⟨owed + 2, low, high, bits⟩⟩ (UInt8.ofNat b) =
      ⟨read, some ⟨owed + 1, 0x80, 0xbf, bits * 64 + (b - 0x80)⟩⟩ := by
  simp [Reader.step, toNat_byte hbyte, hlow, hhigh]

/-- The continuation byte that ends a character. -/
theorem step_last (hlow : low ≤ b) (hhigh : b ≤ high) (hbyte : b < 256) :
    Reader.step ⟨read, some ⟨1, low, high, bits⟩⟩ (UInt8.ofNat b) =
      ⟨some (Char.ofNat (bits * 64 + (b - 0x80))) :: read, none⟩ := by
  simp [Reader.step, toNat_byte hbyte, hlow, hhigh]

theorem step_first (hbyte : b < 256) :
    Reader.step ⟨read, none⟩ (UInt8.ofNat b) = Reader.start read b := by
  simp [Reader.step, toNat_byte hbyte]

theorem start_two (hlow : 0x7f < v) (hhigh : v ≤ 0x7ff) :
    Reader.start read (v / 64 % 32 + 0xc0) = ⟨read, some ⟨1, 0x80, 0xbf, v / 64⟩⟩ := by
  have hbits : v / 64 % 32 + 0xc0 - 0xc0 = v / 64 := by omega
  rw [Reader.start, if_neg (by omega), if_neg (by omega), if_pos (by omega), hbits]

/-- The bounds set for the second byte of three leave out the short forms and the surrogates. -/
theorem start_three (read : List (Option Char)) (hlow : 0x7ff < v) (hhigh : v ≤ 0xffff)
    (hvalid : v < 0xd800 ∨ 0xdfff < v) :
    ∃ low high, Reader.start read (v / 4096 % 16 + 0xe0) = ⟨read, some ⟨2, low, high, v / 4096⟩⟩ ∧
      low ≤ v / 64 % 64 + 0x80 ∧ v / 64 % 64 + 0x80 ≤ high := by
  have hbits : v / 4096 % 16 + 0xe0 - 0xe0 = v / 4096 := by omega
  rw [Reader.start, if_neg (by omega), if_neg (by omega), if_neg (by omega)]
  by_cases hzero : v / 4096 = 0
  · refine ⟨0xa0, 0xbf, ?_, by omega, by omega⟩
    rw [hzero]
    rfl
  · by_cases hd : v / 4096 = 0xd
    · refine ⟨0x80, 0x9f, ?_, by omega, by omega⟩
      rw [hd]
      rfl
    · refine ⟨0x80, 0xbf, ?_, by omega, by omega⟩
      rw [if_neg (by rw [beq_iff_eq]; omega), if_neg (by rw [beq_iff_eq]; omega),
        if_pos (by omega), hbits]

/-- The bounds set for the second byte of four leave out the short forms and what is too large. -/
theorem start_four (read : List (Option Char)) (hlow : 0xffff < v) (hhigh : v < 0x110000) :
    ∃ low high,
      Reader.start read (v / 262144 % 8 + 0xf0) = ⟨read, some ⟨3, low, high, v / 262144⟩⟩ ∧
      low ≤ v / 4096 % 64 + 0x80 ∧ v / 4096 % 64 + 0x80 ≤ high := by
  have hbits : v / 262144 % 8 + 0xf0 - 0xf0 = v / 262144 := by omega
  rw [Reader.start, if_neg (by omega), if_neg (by omega), if_neg (by omega),
    if_neg (by rw [beq_iff_eq]; omega), if_neg (by rw [beq_iff_eq]; omega), if_neg (by omega)]
  by_cases hzero : v / 262144 = 0
  · refine ⟨0x90, 0xbf, ?_, by omega, by omega⟩
    rw [hzero]
    rfl
  · by_cases hfour : v / 262144 = 4
    · refine ⟨0x80, 0x8f, ?_, by omega, by omega⟩
      rw [hfour]
      rfl
    · refine ⟨0x80, 0xbf, ?_, by omega, by omega⟩
      rw [if_neg (by rw [beq_iff_eq]; omega), if_pos (by omega), hbits]

end Steps

theorem char_toNat_valid (c : Char) :
    (c.val.toNat < 0xd800 ∨ 0xdfff < c.val.toNat) ∧ c.val.toNat < 0x110000 := by
  rcases c.valid with h | ⟨h, h'⟩
  · exact ⟨.inl h, by omega⟩
  · exact ⟨.inr h, h'⟩

/-- From between characters, the bytes of a character read as that character. -/
theorem foldl_step_char (c : Char) (read : List (Option Char)) :
    (String.utf8EncodeChar c).foldl Reader.step ⟨read, none⟩ = ⟨some c :: read, none⟩ := by
  obtain ⟨hvalid, hmax⟩ := char_toNat_valid c
  have hchar : ∀ {n : Nat}, n = c.val.toNat → Char.ofNat n = c := fun h => by
    rw [h]
    exact Char.ofNat_toNat c
  rw [String.utf8EncodeChar]
  generalize c.val.toNat = v at hvalid hmax hchar
  -- the cases are the lengths of the byte sequence
  split
  case isTrue hone =>
    rw [List.foldl_cons, List.foldl_nil, step_first (by omega), Reader.start, if_pos (by omega),
      hchar rfl]
  case isFalse hone =>
    split
    case isTrue htwo =>
      rw [List.foldl_cons, List.foldl_cons, List.foldl_nil, step_first (by omega),
        start_two (by omega) htwo, step_last (by omega) (by omega) (by omega), hchar (by omega)]
    case isFalse htwo =>
      split
      case isTrue hthree =>
        obtain ⟨low, high, hstart, hlow, hhigh⟩ :=
          start_three read (by omega) hthree hvalid
        rw [List.foldl_cons, List.foldl_cons, List.foldl_cons, List.foldl_nil,
          step_first (by omega), hstart, step_more hlow hhigh (by omega),
          step_last (by omega) (by omega) (by omega), hchar (by omega)]
      case isFalse hthree =>
        obtain ⟨low, high, hstart, hlow, hhigh⟩ := start_four read (by omega) hmax
        rw [List.foldl_cons, List.foldl_cons, List.foldl_cons, List.foldl_cons, List.foldl_nil,
          step_first (by omega), hstart, step_more hlow hhigh (by omega),
          step_more (by omega) (by omega) (by omega), step_last (by omega) (by omega) (by omega),
          hchar (by omega)]

/-! ## Whole texts -/

theorem foldl_step_chars (cs : List Char) (read : List (Option Char)) :
    (cs.flatMap String.utf8EncodeChar).foldl Reader.step ⟨read, none⟩ =
      ⟨(cs.map some).reverse ++ read, none⟩ := by
  induction cs generalizing read with
  | nil => rfl
  | cons c cs ih => rw [List.flatMap_cons, List.foldl_append, foldl_step_char, ih]; simp

theorem decode?_encode (s : String) : decode? (encode s) = some s := by
  have hread : read (encode s) = s.toList.map some := by
    rw [read, encode_eq_flatMap, foldl_step_chars]
    simp [Reader.close]
  have hmap : ∀ cs : List Char, (cs.map some).mapM id = some cs := fun cs => by
    induction cs with
    | nil => rfl
    | cons c cs ih => simp [ih]
  rw [decode?, hread, hmap, Option.map_some, String.ofList_toList]

theorem encode_injective {s t : String} (h : encode s = encode t) : s = t := by
  have hread := congrArg decode? h
  rw [decode?_encode, decode?_encode] at hread
  exact Option.some.inj hread

end ServiceReach.Text.Utf8
