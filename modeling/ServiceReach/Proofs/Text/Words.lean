import ServiceReach.Text.Blank

/-
  The words of a text. Cutting a text into words and joining them by spaces changes blanks only: the
  characters that are not blank stay, in their order (`visible_intercalate_words`).
-/

namespace ServiceReach.Text

/-- The characters of a text that are not blank. -/
def visible (s : String) : List Char :=
  s.toList.filter (!isBlank ·)

theorem visible_append (s t : String) : visible (s ++ t) = visible s ++ visible t := by
  simp [visible]

theorem visible_of_blank {s : String} (h : ∀ c ∈ s.toList, isBlank c = true) : visible s = [] := by
  simpa [visible] using h

theorem visible_of_not_blank {s : String} (h : ∀ c ∈ s.toList, isBlank c = false) :
    visible s = s.toList := by
  simpa [visible] using h

theorem visible_intercalate (l : List String) :
    visible (" ".intercalate l) = l.flatMap visible := by
  induction l with
  | nil => rfl
  | cons s l ih =>
    cases l with
    | nil => simp
    | cons t l =>
      have hspace : visible " " = [] := by decide
      rw [String.intercalate_cons_cons, visible_append, visible_append, hspace, ih]
      simp

theorem flatten_closeWord (done : List (List Char)) (word : List Char) :
    (closeWord done word).reverse.flatten = done.reverse.flatten ++ word.reverse := by
  unfold closeWord
  split
  · rename_i hempty
    simp [List.isEmpty_iff.mp hempty]
  · simp

/-- What has been read and what is visible of the rest is in the words. -/
theorem flatten_wordsFrom (done : List (List Char)) (word cs : List Char) :
    (wordsFrom done word cs).flatten =
      done.reverse.flatten ++ word.reverse ++ cs.filter (!isBlank ·) := by
  induction cs generalizing done word with
  | nil => simp [wordsFrom, flatten_closeWord]
  | cons c cs ih =>
    rw [wordsFrom]
    split
    · rename_i hblank
      simp [ih, flatten_closeWord, hblank]
    · rename_i hblank
      simp [ih, hblank]

theorem flatMap_toList_words (s : String) : (words s).flatMap String.toList = visible s := by
  have hchars : (words s).flatMap String.toList = (wordsFrom [] [] s.toList).flatten := by
    simp [words, List.flatMap_map]
  rw [hchars, flatten_wordsFrom]
  rfl

theorem mem_of_mem_words {s w : String} {c : Char} (hw : w ∈ words s) (hc : c ∈ w.toList) :
    c ∈ s.toList := by
  have hvisible : c ∈ visible s := by
    rw [← flatMap_toList_words]
    exact List.mem_flatMap.mpr ⟨w, hw, hc⟩
  exact (List.mem_filter.mp hvisible).1

theorem visible_intercalate_words (s : String) :
    visible (" ".intercalate (words s)) = visible s := by
  have hfilter : (words s).flatMap visible =
      ((words s).flatMap String.toList).filter (!isBlank ·) := by
    rw [List.filter_flatMap]
    rfl
  rw [visible_intercalate, hfilter, flatMap_toList_words, visible, List.filter_filter]
  simp

end ServiceReach.Text
