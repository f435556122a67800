import ServiceReach.Proofs.Index.Files

/-
  Files and builds in turn. Files are added to one indexer and programs are built by it, in any
  order. A build hands out a program; a program is told apart from others with the same content by
  its number, which counts the programs made before it. The invariant (`Desk.Current`) says that the
  catalog is that of the files so far and that a program is kept only as long as it is the one of
  this catalog. So a build hands out what a new indexer builds from the same files
  (`build_after_history`), and the program of the build before exactly if no file came in between.
-/

namespace ServiceReach.Index

/-- What is asked of an indexer. -/
inductive Request where
  | add (f : File)
  | build

/-- The file that is added, if one is. -/
def Request.file? : Request → Option File
  | .add f => some f
  | .build => none

/-- The files that are added. -/
def Request.files (history : List Request) : List File :=
  history.filterMap Request.file?

/-- A program that a build hands out, by its content and its number. -/
structure Handout where
  build : Build
  number : Nat

/-- An indexer, the number of programs it has made, and what its builds handed out, in order. -/
structure Desk where
  indexer : Indexer
  made : Nat := 0
  handouts : List Handout := []

namespace Desk

/-- The desk after a request. A program that is built anew gets the next number. -/
def handle (d : Desk) : Request → Desk
  | .add f => { d with indexer := (d.indexer.add f).1 }
  | .build =>
    let (b, again, x) := d.indexer.build
    if again then { d with indexer := x, handouts := d.handouts ++ [⟨b, d.made - 1⟩] }
    else ⟨x, d.made + 1, d.handouts ++ [⟨b, d.made⟩]⟩

/-- The desk before any request. -/
def start (room : Nat) : Desk :=
  { indexer := .empty room }

/-- The desk after a history of requests. -/
def after (room : Nat) (history : List Request) : Desk :=
  history.foldl handle (start room)

theorem after_concat (room : Nat) (history : List Request) (r : Request) :
    after room (history ++ [r]) = (after room history).handle r := by
  rw [after, List.foldl_append]
  rfl

/-! ## The program that is kept -/

/-- There was a build, and no file came since. -/
def UpToDate (history : List Request) : Prop :=
  ∃ earlier since, history = earlier ++ .build :: since ∧ Request.files since = []

theorem upToDate_build (history : List Request) : UpToDate (history ++ [.build]) :=
  ⟨history, [], rfl, rfl⟩

theorem not_upToDate_nil : ¬ UpToDate [] := by
  rintro ⟨earlier, since, heq, _⟩
  exact List.append_ne_nil_of_right_ne_nil earlier (List.cons_ne_nil _ _) heq.symm

theorem not_upToDate_add (history : List Request) (f : File) :
    ¬ UpToDate (history ++ [.add f]) := by
  rintro ⟨earlier, since, heq, hnone⟩
  have hmem : Request.add f ∈ since := by
    rcases List.eq_nil_or_concat since with rfl | ⟨since, r, rfl⟩
    · cases (List.append_inj' heq rfl).2
    · rw [List.concat_eq_append, ← List.cons_append, ← List.append_assoc] at heq
      cases (List.append_inj' heq rfl).2
      simp
  have hfile : f ∈ Request.files since := List.mem_filterMap.mpr ⟨_, hmem, rfl⟩
  rw [hnone] at hfile
  cases hfile

/-- What holds after a history of requests. -/
structure Current (room : Nat) (history : List Request) (d : Desk) : Prop where
  /-- Only the files count for the catalog. -/
  catalog : d.indexer.catalog = (Indexer.ofFiles room (Request.files history)).catalog
  /-- A program that is kept is that of the catalog; it was made last and handed out last. -/
  kept : ∀ b, d.indexer.built = some b →
    b = d.indexer.catalog.build ∧ d.handouts.getLast? = some ⟨b, d.made - 1⟩
  keeps : d.indexer.built.isSome ↔ UpToDate history
  numbers : ∀ h ∈ d.handouts, h.number < d.made
  /-- A number stands for one program. -/
  same : ∀ h ∈ d.handouts, ∀ h' ∈ d.handouts, h.number = h'.number → h = h'

theorem current_start (room : Nat) : Current room [] (start room) where
  catalog := rfl
  kept := fun b hb => by cases hb
  keeps := iff_of_false Bool.false_ne_true not_upToDate_nil
  numbers := fun h hh => absurd hh List.not_mem_nil
  same := fun h hh => absurd hh List.not_mem_nil

variable {room : Nat} {history : List Request} {d : Desk}

theorem Current.add (h : Current room history d) (f : File) :
    Current room (history ++ [.add f]) (d.handle (.add f)) where
  catalog := by
    have hfiles : Request.files (history ++ [.add f]) = Request.files history ++ [f] := by
      simp [Request.files, Request.file?]
    rw [hfiles, Indexer.ofFiles_concat]
    simp only [handle, Indexer.add, h.catalog]
  kept := fun b hb => by cases hb
  keeps := by
    have hnot := not_upToDate_add history f
    simpa [handle, Indexer.add] using hnot
  numbers := h.numbers
  same := h.same

theorem build_of_built {b : Build} (hb : d.indexer.built = some b) :
    d.handle .build = { d with handouts := d.handouts ++ [⟨b, d.made - 1⟩] } := by
  simp only [handle, Indexer.build, hb, if_true]

theorem build_of_not_built (hb : d.indexer.built = none) :
    d.handle .build =
      ⟨{ d.indexer with built := some d.indexer.catalog.build }, d.made + 1,
        d.handouts ++ [⟨d.indexer.catalog.build, d.made⟩]⟩ := by
  simp only [handle, Indexer.build, hb, Bool.false_eq_true, if_false]

theorem files_build (history : List Request) :
    Request.files (history ++ [.build]) = Request.files history := by
  simp [Request.files, Request.file?]

theorem Current.build (h : Current room history d) :
    Current room (history ++ [.build]) (d.handle .build) := by
  cases hb : d.indexer.built with
  | some b =>
    obtain ⟨hcontent, hlast⟩ := h.kept b hb
    have hmem : ⟨b, d.made - 1⟩ ∈ d.handouts := List.mem_of_getLast? hlast
    -- The program handed out again is among those handed out, so nothing new is among them.
    have hsub : ∀ l ∈ d.handouts ++ [⟨b, d.made - 1⟩], l ∈ d.handouts := by
      intro l hl
      rcases List.mem_append.mp hl with hl | hl
      · exact hl
      · rwa [List.mem_singleton.mp hl]
    rw [build_of_built hb]
    refine ⟨?_, ?_, ?_, fun l hl => h.numbers l (hsub l hl),
      fun l hl l' hl' => h.same l (hsub l hl) l' (hsub l' hl')⟩
    · rw [files_build]
      exact h.catalog
    · intro b' hb'
      cases hb.symm.trans hb'
      exact ⟨hcontent, List.getLast?_concat⟩
    · simpa [hb] using upToDate_build history
  | none =>
    rw [build_of_not_built hb]
    refine ⟨?_, ?_, ?_, ?_, ?_⟩
    · rw [files_build]
      exact h.catalog
    · intro b hb'
      cases hb'
      exact ⟨rfl, List.getLast?_concat⟩
    · simpa using upToDate_build history
    · intro l hl
      rcases List.mem_append.mp hl with hl | hl
      · exact Nat.lt_succ_of_lt (h.numbers l hl)
      · rw [List.mem_singleton.mp hl]
        exact Nat.lt_succ_self d.made
    · intro l hl l' hl' heq
      -- The new number is greater than all numbers so far.
      rcases List.mem_append.mp hl with hl | hl <;> rcases List.mem_append.mp hl' with hl' | hl'
      · exact h.same l hl l' hl' heq
      · have hless := h.numbers l hl
        rw [List.mem_singleton.mp hl'] at heq
        exact absurd heq (Nat.ne_of_lt hless)
      · have hless := h.numbers l' hl'
        rw [List.mem_singleton.mp hl] at heq
        exact absurd heq.symm (Nat.ne_of_lt hless)
      · rw [List.mem_singleton.mp hl, List.mem_singleton.mp hl']

theorem current_after (room : Nat) (history : List Request) :
    Current room history (after room history) := by
  induction history using List.reverseRecOn with
  | nil => exact current_start room
  | append_singleton history r ih =>
    rw [after_concat]
    cases r with
    | add f => exact ih.add f
    | build => exact ih.build

/-- After any history of files and builds, a build hands out a program with the content that a new
    indexer gives it to which the same files were added. It is the program that was handed out last
    exactly if there is one and no file came since, and otherwise none that was handed out. -/
theorem build_after_history (room : Nat) (history : List Request) :
    ∃ h, (after room (history ++ [.build])).handouts = (after room history).handouts ++ [h] ∧
      h.build = (Indexer.ofFiles room (Request.files history)).build.1 ∧
      ((after room history).handouts.getLast? = some h ↔ UpToDate history) ∧
      ∀ old ∈ (after room history).handouts,
        old.number = h.number → UpToDate history ∧ old = h := by
  have hcurrent := current_after room history
  have hbatch : (after room history).indexer.catalog.build =
      (Indexer.ofFiles room (Request.files history)).build.1 := by
    rw [Indexer.build_ofFiles, hcurrent.catalog]
  rw [after_concat]
  cases hb : (after room history).indexer.built with
  | some b =>
    obtain ⟨hcontent, hlast⟩ := hcurrent.kept b hb
    have hdate : UpToDate history := hcurrent.keeps.mp (by rw [hb]; rfl)
    rw [build_of_built hb]
    exact ⟨_, rfl, hcontent.trans hbatch, iff_of_true hlast hdate, fun old hold heq =>
      ⟨hdate, hcurrent.same old hold _ (List.mem_of_getLast? hlast) heq⟩⟩
  | none =>
    have hdate : ¬ UpToDate history := by
      rw [← hcurrent.keeps, hb]
      exact Bool.false_ne_true
    have hnew : ∀ old ∈ (after room history).handouts, old.number ≠ (after room history).made :=
      fun old hold => Nat.ne_of_lt (hcurrent.numbers old hold)
    rw [build_of_not_built hb]
    refine ⟨_, rfl, hbatch, iff_of_false (fun hlast => ?_) hdate,
      fun old hold heq => absurd heq (hnew old hold)⟩
    exact hnew _ (List.mem_of_getLast? hlast) rfl

end Desk
end ServiceReach.Index
