import ServiceReach.Proofs.Text.Parts
import ServiceReach.Text.Lines

/-
  Reading what is written in lines. A text of several lines is a list of characters cut into parts
  that each end in a line break; a list of lines that is cut into blocks by blank lines is the same
  one level up. `parts?` reads both: it answers exactly if every part has its end, and then with the
  only parts there are (`parts?_eq_some_iff`).
-/

namespace ServiceReach.Text

/-! ## Parts with ends -/

section Parts

variable {α : Type} {sep : α} {l : List α} {parts : List (List α)}

/-- The parts in a row, each with its end. -/
def ended (sep : α) (parts : List (List α)) : List α :=
  parts.flatMap (· ++ [sep])

theorem ended_cons (part : List α) (parts : List (List α)) :
    ended sep (part :: parts) = part ++ sep :: ended sep parts := by
  simp [ended]

variable [DecidableEq α]

/-- The parts of a list, each of which ends in `sep`; none if the last one has no end. -/
def parts? (sep : α) : List α → Option (List (List α))
  | [] => some []
  | a :: rest =>
    if a = sep then (parts? sep rest).map ([] :: ·)
    else
      match parts? sep rest with
      | some (part :: parts) => some ((a :: part) :: parts)
      | _ => none

theorem parts?_append {part : List α} (h : sep ∉ part) (rest : List α) :
    parts? sep (part ++ sep :: rest) = (parts? sep rest).map (part :: ·) := by
  induction part with
  | nil => rw [List.nil_append, parts?, if_pos rfl]
  | cons a part ih =>
    rw [List.mem_cons, not_or] at h
    rw [List.cons_append, parts?, if_neg (Ne.symm h.1), ih h.2]
    cases parts? sep rest with
    | none => rfl
    | some parts => rfl

theorem parts?_ended (h : ∀ part ∈ parts, sep ∉ part) :
    parts? sep (ended sep parts) = some parts := by
  induction parts with
  | nil => rfl
  | cons part parts ih =>
    rw [ended_cons, parts?_append (h part List.mem_cons_self),
      ih fun p hp => h p (List.mem_cons_of_mem part hp)]
    rfl

theorem ended_of_parts? (h : parts? sep l = some parts) :
    (∀ part ∈ parts, sep ∉ part) ∧ l = ended sep parts := by
  induction l generalizing parts with
  | nil =>
    cases h
    exact ⟨fun _ hp => absurd hp List.not_mem_nil, rfl⟩
  | cons a l ih =>
    rw [parts?] at h
    split at h
    · rename_i ha
      obtain ⟨rest, hrest, rfl⟩ := Option.map_eq_some_iff.mp h
      obtain ⟨hfree, rfl⟩ := ih hrest
      refine ⟨fun p hp => ?_, by rw [ended_cons, ha, List.nil_append]⟩
      rcases List.mem_cons.mp hp with rfl | hp
      · exact List.not_mem_nil
      · exact hfree p hp
    · rename_i ha
      split at h
      · rename_i part rest hrest
        cases h
        obtain ⟨hfree, rfl⟩ := ih hrest
        refine ⟨fun p hp => ?_, by rw [ended_cons, ended_cons, List.cons_append]⟩
        rcases List.mem_cons.mp hp with rfl | hp
        · rw [List.mem_cons, not_or]
          exact ⟨Ne.symm ha, hfree part List.mem_cons_self⟩
        · exact hfree p (List.mem_cons_of_mem part hp)
      · cases h

theorem parts?_eq_some_iff :
    parts? sep l = some parts ↔ (∀ part ∈ parts, sep ∉ part) ∧ l = ended sep parts :=
  ⟨ended_of_parts?, fun h => h.2 ▸ parts?_ended h.1⟩

end Parts

/-! ## Lines -/

/-- The text holds no line break. -/
def OneLine (s : String) : Prop :=
  '\n' ∉ s.toList

instance (s : String) : Decidable (OneLine s) :=
  inferInstanceAs (Decidable ('\n' ∉ s.toList))

theorem oneLine_append {s t : String} : OneLine (s ++ t) ↔ OneLine s ∧ OneLine t := by
  simp [OneLine]

/-- The lines of a text, each of which has its end; none if the last one has no end. -/
def lines? (s : String) : Option (List String) :=
  (parts? '\n' s.toList).map (List.map String.ofList)

theorem toList_unlines (lines : List String) :
    (unlines lines).toList = ended '\n' (lines.map String.toList) := by
  simp [unlines, ended, List.flatMap_map]

theorem lines?_eq_some_iff {s : String} {lines : List String} :
    lines? s = some lines ↔ (∀ line ∈ lines, OneLine line) ∧ s = unlines lines := by
  have hofList : ∀ parts : List (List Char), parts.map String.ofList = lines ↔
      parts = lines.map String.toList := by
    intro parts
    constructor
    · rintro rfl
      simp [Function.comp_def]
    · rintro rfl
      simp [Function.comp_def]
  unfold lines?
  rw [Option.map_eq_some_iff]
  simp only [hofList, exists_eq_right, parts?_eq_some_iff, ← toList_unlines, String.toList_inj,
    List.forall_mem_map]
  exact Iff.rfl

/-! ## Heads of lines -/

/-- What follows `head`, if the text starts with it. -/
def after? (head s : String) : Option String :=
  if startsWith head s then some (String.ofList (s.toList.drop head.toList.length)) else none

theorem after?_eq_some_iff {head s rest : String} :
    after? head s = some rest ↔ s = head ++ rest := by
  unfold after?
  constructor
  · intro h
    split at h
    · rename_i hstarts
      obtain ⟨rest', rfl⟩ := startsWith_iff.mp hstarts
      cases h
      simp
    · cases h
  · rintro rfl
    rw [if_pos (startsWith_iff.mpr ⟨rest, rfl⟩)]
    simp

/-- What stands between `head` and `tail`, if the text starts and ends with them. -/
def between? (head tail s : String) : Option String :=
  (after? head s).bind fun rest =>
    if endsWith tail rest then some (dropLast tail.toList.length rest) else none

theorem between?_eq_some_iff {head tail s inner : String} :
    between? head tail s = some inner ↔ s = head ++ inner ++ tail := by
  have hends : ∀ rest,
      (if endsWith tail rest then some (dropLast tail.toList.length rest) else none)
        = some inner ↔ rest = inner ++ tail := by
    intro rest
    constructor
    · intro h
      split at h
      · rename_i htail
        obtain ⟨front, hfront⟩ := List.isSuffixOf_iff_suffix.mp htail
        cases h
        rw [← String.toList_inj, String.toList_append, dropLast, String.toList_ofList, ← hfront]
        simp
      · cases h
    · rintro rfl
      have htail : endsWith tail (inner ++ tail) = true := by
        rw [endsWith, List.isSuffixOf_iff_suffix, String.toList_append]
        exact List.suffix_append _ _
      rw [if_pos htail, dropLast]
      simp
  unfold between?
  simp only [Option.bind_eq_some_iff, after?_eq_some_iff, hends, exists_eq_right,
    String.append_assoc]

/-- Reading each item by the inverse of writing it. -/
theorem mapM_eq_some_iff {α β : Type} {read : α → Option β} {write : β → α}
    (h : ∀ a b, read a = some b ↔ a = write b) (l : List α) (l' : List β) :
    l.mapM read = some l' ↔ l = l'.map write := by
  induction l generalizing l' with
  | nil =>
    rw [List.mapM_nil]
    cases l' with
    | nil => simp
    | cons b l' => simp
  | cons a l ih =>
    rw [List.mapM_cons]
    cases l' with
    | nil => simp [Option.bind_eq_bind, Option.bind_eq_some_iff]
    | cons b l' => simp [Option.bind_eq_bind, Option.bind_eq_some_iff, h, ih]

/-! ## Blocks -/

section Blocks

variable {β : Type} {read : List String → Option β} {write : β → List String}

/-- The blocks of lines that a text consists of, each of which ends in a blank line. -/
def readBlocks (read : List String → Option β) (text : String) : Option (List β) :=
  (lines? text).bind fun lines => (parts? "" lines).bind (List.mapM read)

/-- The text of blocks of lines. -/
def writeBlocks (write : β → List String) (blocks : List β) : String :=
  unlines (ended "" (blocks.map write))

theorem mem_ended {α : Type} {sep a : α} {parts : List (List α)} :
    a ∈ ended sep parts ↔ ∃ part ∈ parts, a ∈ part ∨ a = sep := by
  simp [ended]

/-- A text of blocks is read in one way only, if no line of a block is blank and a block is read by
    the inverse of writing it. -/
theorem readBlocks_eq_some_iff (hread : ∀ lines b, read lines = some b ↔ lines = write b)
    (hblank : ∀ b, "" ∉ write b) {text : String} {blocks : List β} :
    readBlocks read text = some blocks ↔
      (∀ b ∈ blocks, ∀ line ∈ write b, OneLine line) ∧ text = writeBlocks write blocks := by
  have hlines : ∀ lines, (parts? "" lines).bind (List.mapM read) = some blocks ↔
      lines = ended "" (blocks.map write) := by
    intro lines
    simp only [Option.bind_eq_some_iff, parts?_eq_some_iff, mapM_eq_some_iff hread]
    constructor
    · rintro ⟨_, ⟨_, rfl⟩, rfl⟩
      rfl
    · rintro rfl
      exact ⟨_, ⟨List.forall_mem_map.mpr fun b _ => hblank b, rfl⟩, rfl⟩
  have hone : (∀ line ∈ ended "" (blocks.map write), OneLine line) ↔
      ∀ b ∈ blocks, ∀ line ∈ write b, OneLine line := by
    constructor
    · intro h b hb line hline
      exact h line (mem_ended.mpr ⟨write b, List.mem_map_of_mem hb, Or.inl hline⟩)
    · intro h line hline
      obtain ⟨part, hpart, hline⟩ := mem_ended.mp hline
      obtain ⟨b, hb, rfl⟩ := List.mem_map.mp hpart
      rcases hline with hline | rfl
      · exact h b hb line hline
      · decide
  unfold readBlocks writeBlocks
  simp only [Option.bind_eq_some_iff, lines?_eq_some_iff, hlines, exists_eq_right, hone]

end Blocks

end ServiceReach.Text
