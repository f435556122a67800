import ServiceReach.Proofs.Model.Store
import ServiceReach.Proofs.Trace.Restriction

/-
  Traces through a model that only forwards. A program finds an application type by its key; a model
  that only forwards the questions which every model has to answer goes through the list of the
  application types instead. In a program that was reached by any declarations and questions, no two
  declared types have one name, and a name stands for the type first declared under it. So the key
  and the list agree on every name but the empty one, which is no key (`isApplication_eq_any`). A
  walk over a call graph asks a view for nothing else (`step_congr`, `run_congr`), so both deliver
  the same traces.
-/

namespace ServiceReach

/-- The view of a program through the questions that every model has to answer. -/
def View.forwarding (p : Program) : View :=
  { program := p, keyed := false }

/-- Whether the name is that of an application type, asked as a question for the list of them. -/
def Store.listed (name : Option String) : Access Bool := do
  let types : List TypeDecl ← answer .applicationTypes
  return types.any fun t => some t.name == name

/-! ## The key and the list -/

namespace Program

variable {p : Program} {name : String}

theorem find?_declare (p : Program) (t : TypeDecl) (name : String) :
    (p.declare t).find? name =
      (p.find? name).or (if t.name == name then some t else none) := by
  unfold declare
  split
  · rename_i htaken
    obtain ⟨u, hu, hname⟩ := List.mem_map.mp htaken
    by_cases heq : t.name = name
    · rw [find?_eq_some_iff.mpr ⟨hu, hname.trans heq⟩, Option.some_or]
    · rw [if_neg (mt beq_iff_eq.mp heq), Option.or_none]
  · unfold find?
    rw [List.find?_append, List.find?_singleton]

/-- A name stands for the type that was first declared under it. -/
theorem find?_foldl_declare (types : List TypeDecl) (p : Program) (name : String) :
    (types.foldl declare p).find? name =
      (p.find? name).or (types.find? fun t => t.name == name) := by
  induction types generalizing p with
  | nil => rw [List.foldl_nil, List.find?_nil, Option.or_none]
  | cons t types ih =>
    rw [List.foldl_cons, ih, find?_declare, Option.or_assoc, List.find?_cons]
    cases t.name == name with
    | true => rfl
    | false => rfl

theorem isApplication_iff (hnames : ∀ t ∈ p.types, t.name ≠ "") (name : Option String) :
    p.isApplication name = true ↔
      ∃ t, name = some t.name ∧ p.find? t.name = some t ∧ t.isApplication = true := by
  unfold isApplication get?
  constructor
  · intro h
    split at h
    · cases h
    · rename_i t ht
      obtain ⟨n, hn, ht⟩ := Option.bind_eq_some_iff.mp ht
      obtain ⟨hmem, rfl⟩ := find?_eq_some_iff.mp ht
      exact ⟨t, (Option.filter_eq_some_iff.mp hn).1, ht, h⟩
  · rintro ⟨t, rfl, ht, happ⟩
    have hpresent : present? (some t.name) = some t.name := by
      simpa [present?] using hnames t (find?_eq_some_iff.mp ht).1
    rw [hpresent, Option.bind_some, ht]
    exact happ

/-- Where no declared type has the empty name, finding an application type by its key and searching
    the list of the application types are the same. -/
theorem isApplication_eq_any (hnames : ∀ t ∈ p.types, t.name ≠ "") (name : Option String) :
    p.isApplication name = p.applicationTypes.any fun t => some t.name == name := by
  rw [Bool.eq_iff_iff, isApplication_iff hnames, List.any_eq_true]
  constructor
  · rintro ⟨t, rfl, ht, happ⟩
    exact ⟨t, List.mem_filter.mpr ⟨(find?_eq_some_iff.mp ht).1, happ⟩, beq_self_eq_true _⟩
  · rintro ⟨t, ht, hname⟩
    obtain ⟨hmem, happ⟩ := List.mem_filter.mp ht
    exact ⟨t, (beq_iff_eq.mp hname).symm, find?_eq_some_iff.mpr ⟨hmem, rfl⟩, happ⟩

/-- The empty name is no key. -/
example : let p := ofTypes [{ name := "", isApplication := true }]
    p.isApplication (some "") = false ∧
      (p.applicationTypes.any fun t => some t.name == some "") = true := by
  decide

end Program

/-- After any history a name stands for the type that was first declared under it. -/
theorem Store.find?_after (history : List Operation) (name : String) :
    (after history).program.find? name =
      (history.filterMap Operation.declared?).find? fun t => t.name == name := by
  rw [after, (sound_empty.foldl_perform history).2, Program.find?_foldl_declare]
  rfl

/-! ## Walks -/

namespace Extraction

variable {v v' : View} {g : CallGraph} {entry : Method}

/-- The two views tell the same types to be of the application. -/
def SameApplication (v v' : View) : Prop :=
  ∀ name, v.isApplication name = v'.isApplication name

theorem callees_congr (h : SameApplication v v') (g : CallGraph) :
    callees v g = callees v' g := by
  funext i
  unfold callees
  exact List.filter_congr fun m _ => h (some m.owner)

theorem step_congr (h : SameApplication v v') (s : State) :
    step v g entry s = step v' g entry s := by
  unfold step
  rw [callees_congr h]

theorem run_congr (h : SameApplication v v') (fuel : Nat) (s : State) :
    run v g entry fuel s = run v' g entry fuel s := by
  induction fuel generalizing s with
  | zero => rfl
  | succ fuel ih =>
    rw [run, run, step_congr h]
    cases step v' g entry s with
    | none => rfl
    | some s' => exact ih s'

theorem finalState_congr (h : SameApplication v v') (g : CallGraph) (entry : Method) :
    finalState v g entry = finalState v' g entry := by
  unfold finalState
  rw [run_congr h]
  unfold stepBound ownSteps
  rw [callees_congr h]

/-- The traces, and how many of them are counted, depend on a view only in what it tells to be of
    the application. -/
theorem extractAll_congr (h : SameApplication v v') (g : CallGraph) (entries : List Method) :
    extractAll v g entries = extractAll v' g entries ∧
      extractAllCount v g entries = extractAllCount v' g entries := by
  unfold extractAll extractEach extract extractAllCount extractCount
  simp only [finalState_congr h, and_self]

/-- After any history in which no type was declared under the empty name, a store and a model that
    forwards to it answer alike, for every name, whether it is that of an application type: it is
    exactly if the first type declared under it is one. Neither changes the store. So over any call
    graph and from any entry methods both deliver the same traces, in the same order, and count them
    alike. -/
theorem extractAll_forwarding (history : List Store.Operation)
    (hnames : ∀ t ∈ (Store.after history).program.types, t.name ≠ "") :
    let s := Store.after history
    (∀ name,
      Store.answer (.isApplication name) s = ((View.ofProgram s.program).isApplication name, s) ∧
      Store.listed name s = ((View.forwarding s.program).isApplication name, s) ∧
      Store.listed name s = Store.answer (.isApplication name) s ∧
      ((View.ofProgram s.program).isApplication name = true ↔
        ∃ t, name = some t.name ∧ t.isApplication = true ∧
          (history.filterMap Store.Operation.declared?).find? (fun u => u.name == t.name) =
            some t)) ∧
    ∀ (g : CallGraph) (entries : List Method),
      extractAll (.ofProgram s.program) g entries = extractAll (.forwarding s.program) g entries ∧
      extractAllCount (.ofProgram s.program) g entries =
        extractAllCount (.forwarding s.program) g entries := by
  intro s
  have hsame : SameApplication (.ofProgram s.program) (.forwarding s.program) :=
    Program.isApplication_eq_any hnames
  refine ⟨fun name => ⟨rfl, rfl, ?_, ?_⟩, extractAll_congr hsame⟩
  · exact Prod.ext (hsame name).symm rfl
  · refine (Program.isApplication_iff hnames name).trans (exists_congr fun t => ?_)
    rw [Store.find?_after, and_comm (a := t.isApplication = true)]

/-- A method of a type that is not of the application. -/
def strayMethod : Method :=
  { owner := "lib.B"
    name := "stray"
    hasBody := true
    code := [{ position := 0, text := "return", kind := .return }] }

/-- A type of the application is declared and a name is looked up; then the type is declared again,
    as one that is not of the application. -/
def forwardedHistory : List Store.Operation :=
  [.declare { name := "A", isApplication := true, methods := [bounce "ping" "pong"] },
   .ask (.resolve (some "lib.B")),
   .declare { name := "A" }]

/-- A graph in which the first call of `ping` may go to `pong` or to a method of a phantom. -/
def forwardedGraph : CallGraph :=
  { sites := (bounce "ping" "pong").sites.map fun s => (s, [strayMethod, bounce "pong" "ping"]) }

theorem extractAll_forwardedHistory :
    (∀ t ∈ (Store.after forwardedHistory).program.types, t.name ≠ "") ∧
      (Store.after forwardedHistory).phantoms.map TypeDecl.name = ["lib.B"] ∧
      (extractAll (.ofProgram (Store.after forwardedHistory).program) forwardedGraph
        [bounce "ping" "pong"]).map Trace.steps =
        [["pong()", "ping()", "return"], ["pong()", "return"]] ∧
      extractAll (.ofProgram (Store.after forwardedHistory).program) forwardedGraph
          [bounce "ping" "pong"] =
        extractAll (.forwarding (Store.after forwardedHistory).program) forwardedGraph
          [bounce "ping" "pong"] := by
  have hnames : ∀ t ∈ (Store.after forwardedHistory).program.types, t.name ≠ "" := by
    decide +kernel
  obtain ⟨_, hextract⟩ := extractAll_forwarding forwardedHistory hnames
  exact ⟨hnames, by decide +kernel, by decide +kernel, (hextract forwardedGraph _).1⟩

end Extraction
end ServiceReach
