import ServiceReach.Json.Printer
import ServiceReach.Json.Token
import ServiceReach.Proofs.Text.Utf8

/-
  Strings survive being written. Whatever a character is written as, reading that adds just its code
  point to what was read (`readString_escapeChar`). A character beyond U+FFFF is written as two
  units, and the second joins the first; no other unit is the second of a pair, so nothing else is
  joined.
-/

namespace ServiceReach.Json

/-! ## Units -/

theorem hexValue?_hexDigit : ∀ n < 16, Text.hexValue? (Text.hexDigit n) = some n := by
  decide

/-- A unit that is written in digits is read back. -/
theorem readString_escapeUnit {n : Nat} (h : n < 0x10000) (done : List Nat) (rest : List Char) :
    readString done (escapeUnit n ++ rest) = readString (pushUnit done n) rest := by
  have hdigits : Text.hex 4 n = [Text.hexDigit (n / 16 / 16 / 16 % 16),
      Text.hexDigit (n / 16 / 16 % 16), Text.hexDigit (n / 16 % 16), Text.hexDigit (n % 16)] := rfl
  have hunit : hexUnit? (Text.hexDigit (n / 16 / 16 / 16 % 16)) (Text.hexDigit (n / 16 / 16 % 16))
      (Text.hexDigit (n / 16 % 16)) (Text.hexDigit (n % 16)) = some n := by
    have hvalue : ((n / 16 / 16 / 16 % 16 * 16 + n / 16 / 16 % 16) * 16 + n / 16 % 16) * 16 +
        n % 16 = n := by omega
    simp only [hexUnit?, hexValue?_hexDigit _ (Nat.mod_lt _ (by decide : 0 < 16)),
      Option.bind_eq_bind, Option.bind_some, hvalue]
    rfl
  rw [escapeUnit, hdigits]
  simp only [List.cons_append, List.nil_append, readString, hunit]

/-- A unit that is not the second of a pair is added by itself. -/
theorem pushUnit_of_not_low {n : Nat} (h : isLowUnit n = false) (done : List Nat) :
    pushUnit done n = n :: done := by
  cases done with
  | nil => rfl
  | cons last done => simp [pushUnit, h]

/-- The units of a character beyond U+FFFF are joined to it. -/
theorem pushUnit_pair {n : Nat} (hlow : 0x10000 ≤ n) (hhigh : n < 0x110000) (done : List Nat) :
    pushUnit (pushUnit done (0xd800 + (n - 0x10000) / 0x400)) (0xdc00 + (n - 0x10000) % 0x400) =
      n :: done := by
  have hfirst : isLowUnit (0xd800 + (n - 0x10000) / 0x400) = false := by
    simp only [isLowUnit, Bool.and_eq_false_iff, decide_eq_false_iff_not]
    omega
  have hpair : (isHighUnit (0xd800 + (n - 0x10000) / 0x400) &&
      isLowUnit (0xdc00 + (n - 0x10000) % 0x400)) = true := by
    simp only [isHighUnit, isLowUnit, Bool.and_eq_true, decide_eq_true_eq]
    omega
  have hjoined : 0x10000 + (0xd800 + (n - 0x10000) / 0x400 - 0xd800) * 0x400 +
      (0xdc00 + (n - 0x10000) % 0x400 - 0xdc00) = n := by omega
  rw [pushUnit_of_not_low hfirst, pushUnit, if_pos hpair, hjoined]

/-! ## Characters -/

theorem toNat_not_surrogate (c : Char) :
    isHighUnit c.toNat = false ∧ isLowUnit c.toNat = false := by
  have hvalid : c.toNat < 0xd800 ∨ 0xdfff < c.toNat := (Text.Utf8.char_toNat_valid c).1
  simp only [isHighUnit, isLowUnit, Bool.and_eq_false_iff, decide_eq_false_iff_not]
  omega

theorem unitChar_toNat (c : Char) : unitChar c.toNat = c := by
  obtain ⟨hhigh, hlow⟩ := toNat_not_surrogate c
  rw [unitChar, hhigh, hlow]
  exact Char.ofNat_toNat c

theorem readString_short {x : Char} {code : Nat} (hunit : x ≠ 'u')
    (h : shortEscape? x = some code) (done : List Nat) (rest : List Char) :
    readString done ('\\' :: x :: rest) = readString (code :: done) rest := by
  rw [readString.eq_4 _ _ _ fun _ _ _ _ _ hx => absurd hx hunit, h]

theorem readString_plain {c : Char} (hquote : c ≠ '"') (hslash : c ≠ '\\') (h : 0x20 ≤ c.toNat)
    (done : List Nat) (rest : List Char) :
    readString done (c :: rest) = readString (c.toNat :: done) rest := by
  rw [readString.eq_5 _ _ _ hquote (fun _ _ _ _ _ hc => absurd hc hslash)
    (fun _ _ hc => absurd hc hslash), if_neg (Nat.not_lt.mpr h)]

/-- A character is written by a short escape, as itself, as one unit or as two. -/
theorem escapeChar_cases (c : Char) :
    (∃ x, x ≠ 'u' ∧ shortEscape? x = some c.toNat ∧ escapeChar c = ['\\', x]) ∨
      (c ≠ '"' ∧ c ≠ '\\' ∧ 0x20 ≤ c.toNat ∧ escapeChar c = [c]) ∨
      (c.toNat < 0x10000 ∧ escapeChar c = escapeUnit c.toNat) ∨
      (0x10000 ≤ c.toNat ∧ escapeChar c = escapeUnit (0xd800 + (c.toNat - 0x10000) / 0x400) ++
        escapeUnit (0xdc00 + (c.toNat - 0x10000) % 0x400)) := by
  unfold escapeChar
  dsimp only
  split
  · rename_i h
    exact .inl ⟨'"', by decide, by rw [eq_of_beq h]; rfl, rfl⟩
  rename_i hquote
  split
  · rename_i h
    exact .inl ⟨'\\', by decide, by rw [eq_of_beq h]; rfl, rfl⟩
  rename_i hslash
  split
  · rename_i h
    exact .inl ⟨'n', by decide, by rw [eq_of_beq h]; rfl, rfl⟩
  split
  · rename_i h
    exact .inl ⟨'r', by decide, by rw [eq_of_beq h]; rfl, rfl⟩
  split
  · rename_i h
    exact .inl ⟨'t', by decide, by rw [eq_of_beq h]; rfl, rfl⟩
  split
  · rename_i h
    exact .inl ⟨'b', by decide, by rw [eq_of_beq h]; rfl, rfl⟩
  split
  · rename_i h
    exact .inl ⟨'f', by decide, by rw [eq_of_beq h]; rfl, rfl⟩
  split
  · rename_i h
    rw [Bool.and_eq_true, decide_eq_true_eq, decide_eq_true_eq] at h
    exact .inr (.inl ⟨by simpa using hquote, by simpa using hslash, h.1, rfl⟩)
  split
  · rename_i h
    exact .inr (.inr (.inl ⟨h, rfl⟩))
  · rename_i h
    exact .inr (.inr (.inr ⟨Nat.not_lt.mp h, rfl⟩))

/-- What a character is written as reads as its code point. -/
theorem readString_escapeChar (c : Char) (done : List Nat) (rest : List Char) :
    readString done (escapeChar c ++ rest) = readString (c.toNat :: done) rest := by
  obtain ⟨_, hlow⟩ := toNat_not_surrogate c
  rcases escapeChar_cases c with
    ⟨x, hunit, hshort, heq⟩ | ⟨hquote, hslash, hprint, heq⟩ | ⟨hsmall, heq⟩ | ⟨hlarge, heq⟩
  · rw [heq]
    exact readString_short hunit hshort done rest
  · rw [heq]
    exact readString_plain hquote hslash hprint done rest
  · rw [heq, readString_escapeUnit hsmall, pushUnit_of_not_low hlow]
  · have hmax : c.toNat < 0x110000 := (Text.Utf8.char_toNat_valid c).2
    rw [heq, List.append_assoc, readString_escapeUnit (by omega), readString_escapeUnit (by omega),
      pushUnit_pair hlarge hmax]

/-! ## Strings -/

theorem readString_flatMap (cs : List Char) (done : List Nat) (rest : List Char) :
    readString done (cs.flatMap escapeChar ++ '"' :: rest) =
      some (String.ofList (done.reverse.map unitChar ++ cs), rest) := by
  induction cs generalizing done with
  | nil => rw [List.flatMap_nil, List.nil_append, readString, List.append_nil]
  | cons c cs ih =>
    rw [List.flatMap_cons, List.append_assoc, readString_escapeChar, ih]
    simp [unitChar_toNat]

/-- A string is read back from what is written for it, up to its closing quote. -/
theorem readString_writeString (s : String) (rest : List Char) :
    readString [] (s.toList.flatMap escapeChar ++ '"' :: rest) = some (s, rest) := by
  rw [readString_flatMap]
  simp

end ServiceReach.Json
