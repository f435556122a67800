import ServiceReach.Proofs.Text.Parts
import ServiceReach.Text.Blank

/-
  Texts without a space. A text that is put together from such texts, or cut out of one, has no space
  either. A separator cuts a text in one way only if what stands before it does not hold the
  separator (`append_cons_inj`).
-/

namespace ServiceReach.Text

/-- The text holds no space. -/
def Spaceless (s : String) : Prop :=
  ' ' ∉ s.toList

instance (s : String) : Decidable (Spaceless s) :=
  inferInstanceAs (Decidable (' ' ∉ s.toList))

variable {s t : String}

theorem spaceless_append : Spaceless (s ++ t) ↔ Spaceless s ∧ Spaceless t := by
  simp [Spaceless]

theorem Spaceless.append (hs : Spaceless s) (ht : Spaceless t) : Spaceless (s ++ t) :=
  spaceless_append.mpr ⟨hs, ht⟩

/-- A text made of characters of another one. -/
theorem Spaceless.of_subset (hs : Spaceless s) (h : ∀ c ∈ t.toList, c ∈ s.toList) : Spaceless t :=
  fun hspace => hs (h ' ' hspace)

theorem spaceless_join {l : List String} (h : ∀ s ∈ l, Spaceless s) : Spaceless (String.join l) := by
  unfold Spaceless
  rw [String.toList_join, List.mem_flatMap]
  rintro ⟨s, hs, hspace⟩
  exact h s hs hspace

theorem spaceless_intercalate {sep : String} {l : List String} (hsep : Spaceless sep)
    (h : ∀ s ∈ l, Spaceless s) : Spaceless (sep.intercalate l) :=
  not_mem_intercalate hsep h

/-! ## Parts -/

theorem Spaceless.split (hs : Spaceless s) (sep : Char) : ∀ t ∈ split sep s, Spaceless t :=
  fun _ ht => hs.of_subset fun _ hc => (mem_of_mem_split ht hc).1

theorem Spaceless.beforeFirst (hs : Spaceless s) (sep : Char) : Spaceless (beforeFirst sep s) := by
  refine hs.of_subset fun c hc => ?_
  rw [Text.beforeFirst, String.toList_ofList] at hc
  exact List.takeWhile_subset _ hc

theorem Spaceless.afterFirst (hs : Spaceless s) (sep : Char) : Spaceless (afterFirst sep s) := by
  refine hs.of_subset fun c hc => ?_
  rw [Text.afterFirst, String.toList_ofList] at hc
  exact List.dropWhile_subset _ (List.drop_subset 1 _ hc)

theorem Spaceless.dropLast (hs : Spaceless s) (n : Nat) : Spaceless (dropLast n s) := by
  refine hs.of_subset fun c hc => ?_
  rw [Text.dropLast, String.toList_ofList] at hc
  exact List.take_subset _ _ hc

theorem Spaceless.replaceChar (hs : Spaceless s) (old : Char) {new : Char} (hnew : new ≠ ' ') :
    Spaceless (replaceChar old new s) := by
  unfold Spaceless
  rw [Text.replaceChar, String.toList_ofList, List.mem_map]
  rintro ⟨c, hc, hspace⟩
  split at hspace
  · exact hnew hspace
  · exact hs (hspace ▸ hc)

/-! ## The first separator -/

theorem append_cons_inj {sep : Char} {a b rest rest' : List Char} (ha : sep ∉ a) (hb : sep ∉ b)
    (h : a ++ sep :: rest = b ++ sep :: rest') : a = b ∧ rest = rest' := by
  induction a generalizing b with
  | nil =>
    cases b with
    | nil => exact ⟨rfl, List.tail_eq_of_cons_eq h⟩
    | cons c b =>
      have hc := List.head_eq_of_cons_eq h
      exact absurd (hc ▸ List.mem_cons_self) hb
  | cons c a ih =>
    cases b with
    | nil =>
      have hc := List.head_eq_of_cons_eq h
      exact absurd (hc ▸ List.mem_cons_self) ha
    | cons d b =>
      have hc := List.head_eq_of_cons_eq h
      have hrest := ih (fun hm => ha (List.mem_cons_of_mem c hm))
        (fun hm => hb (List.mem_cons_of_mem d hm)) (List.tail_eq_of_cons_eq h)
      exact ⟨by rw [hc, hrest.1], hrest.2⟩

end ServiceReach.Text
