import ServiceReach.Workspace.Basic

/-
  What is written to a file is what is read from it. Writing puts files where no directory stands,
  so every directory stays (`Keeps`), and a path that could be followed leads to the same place
  afterwards. The one exception is a device that holds nothing (`Discards`).
-/

namespace ServiceReach.Workspace

variable {w w' w'' : Workspace} {place other : Location} {path text : String}

/-! ## One place -/

theorem lookup_filter_ne (entries : List (Location × Entry)) (h : other ≠ place) :
    (entries.filter (·.1 != place)).lookup other = entries.lookup other := by
  induction entries with
  | nil => rfl
  | cons e entries ih =>
    by_cases he : e.1 = place
    · have hother : (other == e.1) = false := beq_false_of_ne fun hsame => h (hsame.trans he)
      rw [List.filter_cons_of_neg (by simpa using he), ih, List.lookup_cons, hother]
    · rw [List.filter_cons_of_pos (by simpa using he), List.lookup_cons, List.lookup_cons, ih]

theorem lookup_filter_self (entries : List (Location × Entry)) :
    (entries.filter (·.1 != place)).lookup place = none := by
  rw [List.lookup_eq_none_iff]
  intro e he
  have hne : e.1 ≠ place := by simpa using (List.mem_filter.mp he).2
  exact bne_iff_ne.mpr (Ne.symm hne)

@[simp] theorem lookup_put_self (w : Workspace) (place : Location) (content : List UInt8) :
    (w.put place content).lookup place = some (.file content none) := by
  simp [lookup, put, List.lookup_append, lookup_filter_self]

/-- A directory stays if a file is put where no directory stands. -/
theorem lookup_put_directory (content : List UInt8) (hplace : w.lookup place ≠ some .directory)
    (hother : w.lookup other = some .directory) :
    (w.put place content).lookup other = some .directory := by
  have hne : other ≠ place := fun h => hplace (h ▸ hother)
  have hlookup : (w.put place content).entries.lookup other = w.entries.lookup other := by
    simp [put, List.lookup_append, lookup_filter_ne _ hne, List.lookup_cons, beq_false_of_ne hne]
  -- what lay below a directory lies there still, or has been put there again
  have hbelow : (w.entries.any fun e => other.isPrefixOf e.1) = true →
      ((w.put place content).entries.any fun e => other.isPrefixOf e.1) = true := by
    intro hany
    obtain ⟨e, he, hbelow⟩ := List.any_eq_true.mp hany
    refine List.any_eq_true.mpr ?_
    by_cases hsame : e.1 = place
    · exact ⟨_, List.mem_append_right _ List.mem_cons_self, hsame ▸ hbelow⟩
    · exact ⟨e, List.mem_append_left _ (List.mem_filter.mpr ⟨he, by simpa using hsame⟩), hbelow⟩
  unfold lookup at hother ⊢
  rw [hlookup]
  cases hentry : w.entries.lookup other with
  | some entry => rwa [hentry] at hother
  | none =>
    rw [hentry] at hother
    dsimp only at hother ⊢
    split
    case isTrue => rfl
    case isFalse hnone =>
      rw [Bool.or_eq_true, not_or] at hnone
      rw [if_neg] at hother
      · exact hother
      · rw [Bool.or_eq_true, not_or]
        exact ⟨hnone.1, fun hany => hnone.2 (hbelow hany)⟩

/-! ## Directories that stay -/

/-- Every directory of the one workspace is one of the other. -/
structure Keeps (w w' : Workspace) : Prop where
  directory : w'.directory = w.directory
  lookup : ∀ place, w.lookup place = some .directory → w'.lookup place = some .directory

theorem Keeps.refl (w : Workspace) : w.Keeps w :=
  ⟨rfl, fun _ h => h⟩

theorem Keeps.trans (h : w.Keeps w') (h' : w'.Keeps w'') : w.Keeps w'' :=
  ⟨h'.directory.trans h.directory, fun place hplace => h'.lookup place (h.lookup place hplace)⟩

theorem keeps_put (content : List UInt8) (h : w.lookup place ≠ some .directory) :
    w.Keeps (w.put place content) :=
  ⟨rfl, fun _ => lookup_put_directory content h⟩

theorem update_of_file {content : List UInt8} {parsed : Option Source.Parsed}
    (next : List UInt8 → List UInt8) (h : w.lookup place = some (.file content parsed)) :
    w.update place next = w.put place (next content) := by
  rw [update, h]

/-- Bytes that are written from the end of a file on are added to it. -/
theorem lookup_overwrite_end {content : List UInt8} {parsed : Option Source.Parsed}
    (h : w.lookup place = some (.file content parsed)) (bytes : List UInt8) :
    (w.overwrite place content.length bytes).lookup place =
      some (.file (content ++ bytes) none) := by
  rw [overwrite, update_of_file _ h, lookup_put_self, List.take_length,
    List.drop_eq_nil_of_le (Nat.le_add_right _ _), List.append_nil]

theorem keeps_update (place : Location) (next : List UInt8 → List UInt8) :
    w.Keeps (w.update place next) := by
  unfold update
  split
  case h_1 content parsed hfile => exact keeps_put _ (by rw [hfile]; simp)
  case h_2 => exact .refl w

theorem Keeps.follow (h : w.Keeps w') {start : Location} {parts : List String}
    {found : Location × Option String} (hfollow : w.follow start parts = .ok found) :
    w'.follow start parts = .ok found := by
  fun_induction Workspace.follow w start parts with
  | case1 place => exact hfollow
  | case2 place rest ih => exact ih hfollow
  | case3 place rest ih => exact ih hfollow
  | case4 place last hdot hdots => rwa [Workspace.follow.eq_4 _ _ _ hdot hdots]
  | case5 => cases hfollow
  | case6 place part rest hdot hdots hlast hshort hdir ih =>
    rw [Workspace.follow.eq_5 _ _ _ _ hdot hdots hlast, if_neg hshort, h.lookup _ hdir]
    exact ih hfollow
  | case7 => cases hfollow
  | case8 => cases hfollow
  | case9 => cases hfollow
  | case10 => cases hfollow

theorem Keeps.approach (h : w.Keeps w') {found : Location × Option String}
    (happroach : w.approach path = .ok found) : w'.approach path = .ok found := by
  unfold Workspace.approach at happroach ⊢
  split at happroach
  case isTrue => cases happroach
  case isFalse hnul =>
    rw [if_neg hnul]
    split at happroach
    case isTrue => cases happroach
    case isFalse hshort =>
      rw [if_neg hshort]
      split at happroach
      case isTrue => cases happroach
      case isFalse hnamed =>
        rw [if_neg hnamed, h.directory]
        exact h.follow happroach

theorem locate_eq_ok_iff :
    w.locate path = .ok place ↔
      ∃ found, w.approach path = .ok found ∧ arrive found.1 found.2 = .ok place := by
  unfold locate
  cases w.approach path with
  | error e => simp [bind, Except.bind]
  | ok found => simp [bind, Except.bind]

theorem Keeps.locate (h : w.Keeps w') (hlocate : w.locate path = .ok place) :
    w'.locate path = .ok place := by
  obtain ⟨found, happroach, harrive⟩ := locate_eq_ok_iff.mp hlocate
  exact locate_eq_ok_iff.mpr ⟨found, h.approach happroach, harrive⟩

/-! ## Writing and reading -/

/-- A path names a device that holds nothing. -/
def Discards (w : Workspace) (path : String) : Prop :=
  ∃ place, w.locate path = .ok place ∧ w.lookup place = some .sink

theorem not_discards (hlocate : w.locate path = .ok place) (hplace : w.lookup place ≠ some .sink) :
    ¬ w.Discards path := by
  rintro ⟨there, hthere, hsink⟩
  cases hlocate.symm.trans hthere
  exact hplace hsink

/-- A file that is open at a place: the path leads there, and there is a file unless what is
written there is discarded. -/
structure Opened (w : Workspace) (path : String) (place : Location) (w' : Workspace) : Prop where
  locate : w.locate path = .ok place
  file : Path.namesDirectory path = false
  keeps : w.Keeps w'
  content : ¬ w.Discards path → ∃ content parsed, w'.lookup place = some (.file content parsed)

theorem opened_openFile (h : w.openFile path = .ok (place, w')) : w.Opened path place w' := by
  unfold openFile at h
  cases happroach : w.approach path with
  | error e => simp [happroach, bind, Except.bind] at h
  | ok found =>
    cases hfile : Path.namesDirectory path with
    | true => simp [happroach, hfile, bind, Except.bind, throw, throwThe, MonadExceptOf.throw] at h
    | false =>
      cases harrive : arrive found.1 found.2 with
      | error e => simp [happroach, hfile, harrive, bind, Except.bind] at h
      | ok there =>
        have hlocate : w.locate path = .ok there := locate_eq_ok_iff.mpr ⟨found, happroach, harrive⟩
        simp only [happroach, hfile, harrive, bind, Except.bind, pure, Except.pure] at h
        cases hentry : w.lookup there with
        | none =>
          simp only [hentry] at h
          cases h
          exact ⟨hlocate, hfile, keeps_put _ (by rw [hentry]; simp),
            fun _ => ⟨_, _, lookup_put_self ..⟩⟩
        | some entry =>
          cases entry with
          | directory => simp [hentry, throw, throwThe, MonadExceptOf.throw] at h
          | dangling => simp [hentry, throw, throwThe, MonadExceptOf.throw] at h
          | file content parsed =>
            simp only [hentry] at h
            cases h
            exact ⟨hlocate, hfile, .refl w, fun _ => ⟨_, _, hentry⟩⟩
          | sink =>
            simp only [hentry] at h
            cases h
            exact ⟨hlocate, hfile, .refl w, fun hkept => absurd ⟨_, hlocate, hentry⟩ hkept⟩

theorem create_eq_ok_iff :
    w.create path = .ok (place, w') ↔
      ∃ w₁, w.openFile path = .ok (place, w₁) ∧ w' = w₁.update place fun _ => [] := by
  unfold create
  cases w.openFile path with
  | error e => simp [bind, Except.bind]
  | ok opened =>
    obtain ⟨there, w₁⟩ := opened
    simp only [bind, Except.bind, pure, Except.pure, Except.ok.injEq, Prod.mk.injEq]
    constructor
    · rintro ⟨rfl, rfl⟩
      exact ⟨w₁, ⟨rfl, rfl⟩, rfl⟩
    · rintro ⟨w₂, ⟨rfl, rfl⟩, rfl⟩
      exact ⟨rfl, rfl⟩

/-- A file is empty when it has been created. -/
theorem lookup_create (h : w.create path = .ok (place, w')) (hkept : ¬ w.Discards path) :
    w'.lookup place = some (.file [] none) := by
  obtain ⟨w₁, hopen, rfl⟩ := create_eq_ok_iff.mp h
  obtain ⟨content, parsed, hfile⟩ := (opened_openFile hopen).content hkept
  rw [update_of_file _ hfile, lookup_put_self]

theorem opened_create (h : w.create path = .ok (place, w')) : w.Opened path place w' := by
  have hempty := lookup_create h
  obtain ⟨w₁, hopen, rfl⟩ := create_eq_ok_iff.mp h
  have hopened := opened_openFile hopen
  exact ⟨hopened.locate, hopened.file, hopened.keeps.trans (keeps_update place _),
    fun hkept => ⟨_, _, hempty hkept⟩⟩

theorem read_of_opened {content : List UInt8} {parsed : Option Source.Parsed}
    (hopen : w.Opened path place w') (hkeeps : w'.Keeps w'')
    (hcontent : w''.lookup place = some (.file content parsed)) : w''.read path = .ok content := by
  have hlocate := (hopen.keeps.trans hkeeps).locate hopen.locate
  simp [read, hlocate, hcontent, hopen.file, bind, Except.bind, pure, Except.pure]

/-- A file that was created holds what is written to it. -/
theorem read_append_of_create (h : w.create path = .ok (place, w')) (hkept : ¬ w.Discards path)
    (bytes : List UInt8) : (w'.append place bytes).read path = .ok bytes := by
  have hwritten : (w'.append place bytes).lookup place = some (.file bytes none) := by
    rw [append, update_of_file _ (lookup_create h hkept), lookup_put_self, List.nil_append]
  exact read_of_opened (opened_create h) (keeps_update place _) hwritten

/-- A text that has been written can be read again. -/
theorem read_write (h : w.write path text = .ok w') (hkept : ¬ w.Discards path) :
    w'.read path = .ok (Text.Utf8.encode text) := by
  unfold write at h
  cases hcreate : w.create path with
  | error e => simp [hcreate, bind, Except.bind] at h
  | ok created =>
    simp only [hcreate, bind, Except.bind, pure, Except.pure, Except.ok.injEq] at h
    exact h ▸ read_append_of_create hcreate hkept _

end ServiceReach.Workspace
