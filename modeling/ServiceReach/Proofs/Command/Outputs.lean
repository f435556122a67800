import ServiceReach.Command.Run
import ServiceReach.Proofs.Text.Utf8
import ServiceReach.Proofs.Workspace.Files

/-
  What the outputs of a run hold. An output that could be saved holds the text that was saved, and
  nothing else (`read_of_save`). The file for traces is written in batches; each goes right after
  the one before it, so the file holds the text of all of them (`read_of_dumpTraces`).
-/

namespace ServiceReach

theorem Text.Utf8.encode_append (s t : String) : encode (s ++ t) = encode s ++ encode t := by
  simp [encode_eq_flatMap]

theorem Trace.encode_render_nil : Text.Utf8.encode (render []) = [] := by
  rw [Text.Utf8.encode_eq_flatMap]
  rfl

theorem Trace.render_append (ts us : List Trace) : render (ts ++ us) = render ts ++ render us := by
  simp [render, Text.unlines]

namespace Command

variable {r r' : Run} {path text : String} {place : Location}

/-! ## Jobs -/

section Jobs

variable {α β : Type} {x : Job α} {f : α → Job β}

theorem run_bind (x : Job α) (f : α → Job β) (r : Run) :
    (x >>= f).run r = (ExceptT.bindCont f (x.run r).1) (x.run r).2 :=
  rfl

theorem run_bind_of_ok {a : α} (h : x.run r = (.ok a, r')) :
    (x >>= f).run r = (f a).run r' := by
  rw [run_bind, h]
  rfl

theorem exists_of_run_bind {b : β} (h : (x >>= f).run r = (.ok b, r')) :
    ∃ a r₁, x.run r = (.ok a, r₁) ∧ (f a).run r₁ = (.ok b, r') := by
  rw [run_bind] at h
  cases hx : (x.run r).1 with
  | error e =>
    rw [hx] at h
    cases h
  | ok a =>
    rw [hx] at h
    exact ⟨a, (x.run r).2, Prod.ext hx rfl, h⟩

theorem run_get_bind (f : Run → Job α) (r : Run) : ((get : Job Run) >>= f).run r = (f r).run r :=
  rfl

end Jobs

/-! ## One text -/

/-- An output that is open has been created. -/
theorem create_of_openOutput {s : Setting}
    (h : (openOutput s (.text path)).run r = (.ok (.ok place), r')) :
    r.workspace.create path = .ok (place, r'.workspace) := by
  rw [openOutput, run_get_bind] at h
  cases hcreate : r.workspace.create path with
  | error e =>
    rw [hcreate] at h
    cases e <;> cases h
  | ok created =>
    rw [hcreate] at h
    cases h
    rfl

/-- A text that a run could save is what its output holds. -/
theorem read_of_save {s : Setting} (h : (save s (.text path) text).run r = (.ok none, r'))
    (hkept : ¬ r.workspace.Discards path) :
    r'.workspace.read path = .ok (Text.Utf8.encode text) := by
  obtain ⟨opened, r₁, hopen, hsave⟩ := exists_of_run_bind h
  cases opened with
  | error e => cases hsave
  | ok place =>
    cases hsave
    exact Workspace.read_append_of_create (create_of_openOutput hopen) hkept _

/-! ## Batches of traces -/

/-- Writes batches of traces to a file of their own. -/
def dumpTraces (path : String) (batches : List (List Trace)) : Job (Option PathError) := do
  match ← openOutput .pathsFile (.text path) with
  | .error e => return some e
  | .ok place =>
    let _ ← batches.foldlM PathsFile.save { path, place }
    return none

/-- Batches that are written from the end of a file on are added to it. -/
theorem run_saves (batches : List (List Trace)) (file : PathsFile) {written : List UInt8}
    {parsed : Option Source.Parsed}
    (hfile : r.workspace.lookup file.place = some (.file written parsed))
    (hoffset : file.offset = written.length) :
    ∃ file' r' parsed', (batches.foldlM PathsFile.save file).run r = (.ok file', r') ∧
      r.workspace.Keeps r'.workspace ∧
      r'.workspace.lookup file.place =
        some (.file (written ++ Text.Utf8.encode (Trace.render batches.flatten)) parsed') := by
  induction batches generalizing r file written parsed with
  | nil =>
    refine ⟨file, r, parsed, rfl, .refl _, ?_⟩
    rw [hfile, List.flatten_nil, Trace.encode_render_nil, List.append_nil]
  | cons batch batches ih =>
    -- the offset stays the length of the file, so the next batch goes after this one
    have hnext := Workspace.lookup_overwrite_end hfile (Text.Utf8.encode (Trace.render batch))
    rw [← hoffset] at hnext
    obtain ⟨file', r', parsed', hrun, hkeeps, hlookup⟩ :=
      ih { file with offset := file.offset + (Text.Utf8.encode (Trace.render batch)).length }
        (r := { r with workspace := _ }) hnext (by rw [hoffset, List.length_append])
    refine ⟨file', r', parsed', hrun, (Workspace.keeps_update _ _).trans hkeeps, ?_⟩
    rw [hlookup, List.flatten_cons, Trace.render_append, Text.Utf8.encode_append,
      List.append_assoc]

/-- A file of traces holds the text of all of them, in order. -/
theorem read_of_dumpTraces {batches : List (List Trace)}
    (h : (dumpTraces path batches).run r = (.ok none, r')) (hkept : ¬ r.workspace.Discards path) :
    r'.workspace.read path = .ok (Text.Utf8.encode (Trace.render batches.flatten)) := by
  obtain ⟨opened, r₁, hopen, hdump⟩ := exists_of_run_bind h
  cases opened with
  | error e => cases hdump
  | ok place =>
    have hcreate := create_of_openOutput hopen
    obtain ⟨file', r₂, parsed, hrun, hkeeps, hlookup⟩ :=
      run_saves batches { path, place } (Workspace.lookup_create hcreate hkept) rfl
    rw [run_bind_of_ok hrun] at hdump
    cases hdump
    exact Workspace.read_of_opened (Workspace.opened_create hcreate) hkeeps hlookup

/-- A run in an empty working directory. -/
def blankRun : Run :=
  { workspace := {}, time := {}, level := 0, room := 1000 }

end Command
end ServiceReach
