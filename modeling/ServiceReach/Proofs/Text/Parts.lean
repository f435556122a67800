import Mathlib.Data.List.TakeWhile
import ServiceReach.Text.Part

/-
  Taking texts apart and putting them together. The pieces between the dots of a text, joined by
  dots, are the text again (`intercalate_split`), and a dot between two texts keeps their pieces
  apart (`split_append_dot`). A text without a separator has one piece, which is what stands before
  the first separator and after the last one.
-/

namespace ServiceReach.Text

variable {sep : Char} {s t : String}

theorem startsWith_iff {head s : String} :
    startsWith head s = true ↔ ∃ rest, s = head ++ rest := by
  unfold startsWith
  rw [List.isPrefixOf_iff_prefix]
  constructor
  · rintro ⟨rest, hrest⟩
    refine ⟨String.ofList rest, String.toList_injective ?_⟩
    rw [String.toList_append, String.toList_ofList, hrest]
  · rintro ⟨rest, rfl⟩
    rw [String.toList_append]
    exact List.prefix_append _ _

/-! ## Pieces -/

theorem splitChars_eq_splitOn (sep : Char) (cs : List Char) :
    splitChars sep cs = cs.splitOn sep := by
  induction cs with
  | nil => rw [splitChars, List.splitOn_nil]
  | cons c cs ih =>
    rw [splitChars, List.splitOn_cons_eq_if_modifyHead, ih]
    split
    · rfl
    · split
      · rename_i hpieces
        exact absurd hpieces (List.splitOn_ne_nil sep cs)
      · rename_i hpieces
        rw [hpieces, List.modifyHead_cons]

/-- The pieces are made of the characters of the text, the separator apart. -/
theorem mem_of_mem_splitChars {c : Char} {cs piece : List Char}
    (hpiece : piece ∈ splitChars sep cs) (hc : c ∈ piece) : c ∈ cs ∧ c ≠ sep := by
  induction cs generalizing piece with
  | nil =>
    rw [splitChars, List.mem_singleton] at hpiece
    rw [hpiece] at hc
    cases hc
  | cons a cs ih =>
    have hrest : ∀ {piece}, piece ∈ splitChars sep cs → c ∈ piece → c ∈ a :: cs ∧ c ≠ sep :=
      fun hpiece hc => (ih hpiece hc).imp_left (List.mem_cons_of_mem a)
    rw [splitChars_eq_splitOn, List.splitOn_cons_eq_if_modifyHead,
      ← splitChars_eq_splitOn] at hpiece
    split at hpiece
    · rcases List.mem_cons.mp hpiece with rfl | hpiece
      · cases hc
      · exact hrest hpiece hc
    · rename_i ha
      cases hpieces : splitChars sep cs with
      | nil => simp [hpieces] at hpiece
      | cons first pieces =>
        rw [hpieces, List.modifyHead_cons] at hpiece
        rw [hpieces] at hrest
        rcases List.mem_cons.mp hpiece with rfl | hpiece
        · rcases List.mem_cons.mp hc with rfl | hc
          · exact ⟨List.mem_cons_self, by simpa using ha⟩
          · exact hrest List.mem_cons_self hc
        · exact hrest (List.mem_cons_of_mem first hpiece) hc

theorem mem_of_mem_split {c : Char} {piece : String} (hpiece : piece ∈ split sep s)
    (hc : c ∈ piece.toList) : c ∈ s.toList ∧ c ≠ sep := by
  obtain ⟨cs, hcs, rfl⟩ := List.mem_map.mp hpiece
  rw [String.toList_ofList] at hc
  exact mem_of_mem_splitChars hcs hc

theorem split_ne_nil (sep : Char) (s : String) : split sep s ≠ [] := by
  simp [split, splitChars_eq_splitOn, List.splitOn_ne_nil]

theorem split_of_not_mem (h : sep ∉ s.toList) : split sep s = [s] := by
  rw [split, splitChars_eq_splitOn, List.splitOn_eq_singleton h, List.map_singleton,
    String.ofList_toList]

theorem split_append_dot (s t : String) :
    split '.' (s ++ "." ++ t) = split '.' s ++ split '.' t := by
  have hchars : (s ++ "." ++ t).toList = s.toList ++ '.' :: t.toList := by simp
  simp only [split, splitChars_eq_splitOn]
  rw [hchars, List.splitOn_append_cons_self, List.map_append]

theorem intercalate_split (s : String) : ".".intercalate (split '.' s) = s := by
  have hchars : (split '.' s).map String.toList = s.toList.splitOn '.' := by
    rw [split, splitChars_eq_splitOn, List.map_map]
    simp [Function.comp_def]
  rw [← String.toList_inj, String.toList_intercalate, hchars]
  exact List.intercalate_splitOn '.'

theorem split_intercalate {l : List String} (hne : l ≠ []) (h : ∀ s ∈ l, '.' ∉ s.toList) :
    split '.' (".".intercalate l) = l := by
  induction l with
  | nil => exact absurd rfl hne
  | cons s l ih =>
    have hs := split_of_not_mem (h s List.mem_cons_self)
    cases l with
    | nil => rwa [String.intercalate_singleton]
    | cons t l =>
      rw [String.intercalate_cons_cons, split_append_dot, hs,
        ih (List.cons_ne_nil t l) fun u hu => h u (List.mem_cons_of_mem s hu)]
      rfl

theorem intercalate_cons_eq_join (s t : String) (l : List String) :
    t.intercalate (s :: l) = s ++ String.join (l.map (t ++ ·)) := by
  induction l generalizing s with
  | nil => simp
  | cons u l ih =>
    rw [String.intercalate_cons_cons, ih, List.map_cons, String.join_cons]
    simp only [String.append_assoc]

theorem not_mem_intercalate {c : Char} {l : List String} (ht : c ∉ t.toList)
    (h : ∀ s ∈ l, c ∉ s.toList) : c ∉ (t.intercalate l).toList := by
  induction l with
  | nil => simp
  | cons s l ih =>
    have hs := h s List.mem_cons_self
    have hl := ih fun u hu => h u (List.mem_cons_of_mem s hu)
    cases l with
    | nil => rwa [String.intercalate_singleton]
    | cons u l =>
      rw [String.intercalate_cons_cons]
      simp only [String.toList_append, List.mem_append, not_or]
      exact ⟨⟨hs, ht⟩, hl⟩

/-! ## Before the first separator and after the last one -/

theorem forall_bne_of_not_mem {cs : List Char} (h : sep ∉ cs) : ∀ c ∈ cs, (c != sep) = true :=
  fun _ hc => bne_iff_ne.mpr fun heq => h (heq ▸ hc)

theorem afterLast_of_not_mem (h : sep ∉ s.toList) : afterLast sep s = s := by
  have hall := forall_bne_of_not_mem (mt List.mem_reverse.mp h)
  rw [afterLast, List.takeWhile_eq_self_iff.mpr hall, List.reverse_reverse, String.ofList_toList]

theorem afterLast_append_dot (h : '.' ∉ t.toList) : afterLast '.' (s ++ "." ++ t) = t := by
  have hall := forall_bne_of_not_mem (mt List.mem_reverse.mp h)
  have hchars : (s ++ "." ++ t).toList.reverse = t.toList.reverse ++ '.' :: s.toList.reverse := by
    simp
  rw [afterLast, hchars, List.takeWhile_append_of_pos hall]
  simp

theorem beforeFirst_of_not_mem (h : sep ∉ s.toList) : beforeFirst sep s = s := by
  rw [beforeFirst, List.takeWhile_eq_self_iff.mpr (forall_bne_of_not_mem h), String.ofList_toList]

theorem afterFirst_of_not_mem (h : sep ∉ s.toList) : afterFirst sep s = "" := by
  rw [afterFirst, List.dropWhile_eq_nil_iff.mpr (forall_bne_of_not_mem h)]
  rfl

end ServiceReach.Text
