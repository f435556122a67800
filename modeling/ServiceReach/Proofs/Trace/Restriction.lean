import ServiceReach.Proofs.CallGraph.Closure
import ServiceReach.Proofs.Trace.Machine

/-
  The traces of an entry method do not depend on what else the call graph was built from. A walk
  takes a call site without recorded targets for one that calls nothing, so this is about coverage:
  every call site that the walk looks at belongs to a reached method, and for those the graph holds
  exactly the targets of the site (`callees_build`). Two graphs that agree on a set of methods from
  which the walk never leaves have the same walks there (`walk_congr`). Signatures have to be unique
  in the program: a graph expands only one of two methods of one signature, and which one depends on
  the entry methods.
-/

namespace ServiceReach

/-- No two methods of the program have the same signature. -/
def Program.UniqueSignatures (p : Program) : Prop :=
  ∀ m ∈ p.methods, ∀ n ∈ p.methods, m.signature = n.signature → m = n

instance (p : Program) : Decidable p.UniqueSignatures :=
  inferInstanceAs (Decidable (∀ m ∈ p.methods, ∀ n ∈ p.methods, _))

namespace Extraction

variable {v : View} {g g' : CallGraph} {entry : Method}

/-! ## Graphs that agree -/

/-- At the methods in `S` the two graphs have the same callees, and these are in `S`. -/
def AgreeOn (v : View) (g g' : CallGraph) (S : Method → Prop) : Prop :=
  ∀ m, S m → ∀ i ∈ m.instructions,
    callees v g i = callees v g' i ∧ ∀ c ∈ callees v g i, S c

theorem scan_congr {f f' : List String → Instruction → List Trace} {code : List Instruction}
    (h : ∀ i ∈ code, ∀ trace, f trace i = f' trace i) (trace : List String) :
    scan f trace code = scan f' trace code := by
  induction code generalizing trace with
  | nil => rfl
  | cons i code ih =>
    rw [scan, scan, h i List.mem_cons_self, ih fun j hj => h j (List.mem_cons_of_mem i hj)]

theorem walk_congr {S : Method → Prop} (h : AgreeOn v g g' S) {m : Method} (hm : S m)
    (trace opened : List String) :
    walk v g entry m trace opened = walk v g' entry m trace opened := by
  induction hd : depthLeft g m opened using Nat.strongRecOn generalizing m trace opened with
  | ind d ih =>
    by_cases hleaf : m.signature ∈ opened ∨ m.instructions = []
    · rw [walk_of_leaf hleaf, walk_of_leaf hleaf]
    · rw [walk_of_enter hleaf, walk_of_enter hleaf]
      refine scan_congr (fun i hi trace => ?_) trace
      obtain ⟨hsame, hstay⟩ := h m hm i hi
      unfold visit
      rw [← hsame]
      congr 1
      refine List.flatMap_congr fun c hc => ?_
      have hlt := depthLeft_lt (fun ho => hleaf (Or.inl ho)) hc
      exact ih _ (hd ▸ hlt) (hstay c hc) trace _ rfl

/-! ## Built graphs -/

variable {p : Program} {entries entries' : List Method}

/-- At an instruction of a reached method, a built graph has the callees of the program. -/
theorem callees_build {m : Method} (hm : m ∈ (CallGraph.build p entries).reachable)
    {i : Instruction} (hi : i ∈ m.instructions) :
    callees v (CallGraph.build p entries) i =
      (i.calls.flatMap fun s => (p.targets s).value).filter
        fun c => v.isApplication (some c.owner) := by
  unfold callees
  congr 1
  refine List.flatMap_congr fun s hs => ?_
  have hsite : s ∈ m.sites := List.mem_flatMap.mpr ⟨i, hi, hs⟩
  exact CallGraph.targets_eq (CallGraph.invariant_build p entries).records
    (List.mem_flatMap.mpr ⟨m, hm, hsite⟩)

/-- With unique signatures, the object that is stored for a reached signature is the method. -/
theorem mem_reachable_build (hu : p.UniqueSignatures) (hentries : ∀ m ∈ entries, m ∈ p.methods)
    {t : Method} (ht : t ∈ p.methods) (hr : (CallGraph.build p entries).isReachable t = true) :
    t ∈ (CallGraph.build p entries).reachable := by
  obtain ⟨n, hn, heq⟩ := CallGraph.isReachable_iff.mp hr
  have hpool : n ∈ p.methods := by
    rcases List.mem_append.mp ((CallGraph.invariant_build p entries).mem_pool hn) with h | h
    · exact hentries n h
    · exact h
  rwa [← hu n hpool t ht heq]

theorem callee_mem_reachable_build (hu : p.UniqueSignatures)
    (hentries : ∀ m ∈ entries, m ∈ p.methods) {m : Method}
    (hm : m ∈ (CallGraph.build p entries).reachable) {i : Instruction} (hi : i ∈ m.instructions)
    {s : CallSite} (hs : s ∈ i.calls) {c : Method} (hc : c ∈ (p.targets s).value) :
    c ∈ (CallGraph.build p entries).reachable := by
  have hsite : s ∈ m.sites := List.mem_flatMap.mpr ⟨i, hi, hs⟩
  have hclosed := (CallGraph.leastClosed_of_invariant
    (CallGraph.invariant_build p entries)).closed m hm s hsite c hc
  exact mem_reachable_build hu hentries (Program.mem_methods_of_mem_targets hc) hclosed.2

theorem entry_mem_reachable_build (hu : p.UniqueSignatures)
    (hentries : ∀ m ∈ entries, m ∈ p.methods) {e : Method} (he : e ∈ entries) :
    e ∈ (CallGraph.build p entries).reachable := by
  have hr := (CallGraph.leastClosed_of_invariant
    (CallGraph.invariant_build p entries)).entry e he
  exact mem_reachable_build hu hentries (hentries e he) hr

/-- Two built graphs agree on the methods that both of them reach. -/
theorem agreeOn_build (v : View) (hu : p.UniqueSignatures)
    (hentries : ∀ m ∈ entries, m ∈ p.methods) (hentries' : ∀ m ∈ entries', m ∈ p.methods) :
    AgreeOn v (CallGraph.build p entries) (CallGraph.build p entries') fun m =>
      m ∈ (CallGraph.build p entries).reachable ∧ m ∈ (CallGraph.build p entries').reachable := by
  intro m hm i hi
  rw [callees_build hm.1 hi, callees_build hm.2 hi]
  refine ⟨rfl, fun c hc => ?_⟩
  obtain ⟨s, hs, hc⟩ := List.mem_flatMap.mp (List.mem_filter.mp hc).1
  exact ⟨callee_mem_reachable_build hu hentries hm.1 hi hs hc,
    callee_mem_reachable_build hu hentries' hm.2 hi hs hc⟩

theorem extract_build_eq (v : View) (hu : p.UniqueSignatures)
    (hentries : ∀ m ∈ entries, m ∈ p.methods) (hentries' : ∀ m ∈ entries', m ∈ p.methods)
    {e : Method} (he : e ∈ entries) (he' : e ∈ entries') :
    extract v (CallGraph.build p entries) e = extract v (CallGraph.build p entries') e := by
  rw [extract_eq_walk, extract_eq_walk]
  exact walk_congr (agreeOn_build v hu hentries hentries')
    ⟨entry_mem_reachable_build hu hentries he, entry_mem_reachable_build hu hentries' he'⟩ [] []

/-- The traces of an entry method are the same, in the same order, over the graph built from any
    methods of the program among which it is: from all methods, from it alone or from any others
    with it. -/
theorem extract_independent_of_entries (v : View) (hu : v.program.UniqueSignatures)
    (entries : List Method) (hentries : ∀ m ∈ entries, m ∈ v.program.methods) (e : Method)
    (he : e ∈ entries) :
    extract v (CallGraph.build v.program entries) e =
        extract v (CallGraph.build v.program v.program.methods) e ∧
      ∀ entries' : List Method, (∀ m ∈ entries', m ∈ v.program.methods) → e ∈ entries' →
        extract v (CallGraph.build v.program entries) e =
          extract v (CallGraph.build v.program entries') e :=
  ⟨extract_build_eq v hu hentries (fun _ hm => hm) he (hentries e he),
    fun _ hentries' he' => extract_build_eq v hu hentries hentries' he he'⟩

/-- A static method of `A` that calls another one and returns. -/
def bounce (name other : String) : Method where
  owner := "A"
  name := name
  hasBody := true
  code :=
    [{ position := 0
       text := other ++ "()"
       calls :=
        [{ caller := some ("<A: void " ++ name ++ "()>")
           position := 0
           ordinal := 0
           name := other
           args := []
           receiver := some "A"
           dispatch := .static
           target := "<A: void " ++ other ++ "()>" }] },
     { position := 1
       text := "return"
       kind := .return }]

/-- The program of two methods that call each other. -/
def pingPong : Program where
  types := [{
    name := "A"
    isApplication := true
    methods := [bounce "ping" "pong", bounce "pong" "ping"] }]
  nodup := List.nodup_singleton "A"

theorem extract_independent_pingPong :
    (extract (.ofProgram pingPong) (CallGraph.build pingPong [bounce "ping" "pong"])
        (bounce "ping" "pong")).map Trace.steps =
        [["pong()", "ping()", "return"], ["pong()", "return"]] ∧
      extract (.ofProgram pingPong) (CallGraph.build pingPong [bounce "ping" "pong"])
          (bounce "ping" "pong") =
        extract (.ofProgram pingPong) (CallGraph.build pingPong pingPong.methods)
          (bounce "ping" "pong") ∧
      extract (.ofProgram pingPong) (CallGraph.build pingPong [bounce "ping" "pong"])
          (bounce "ping" "pong") =
        extract (.ofProgram pingPong)
          (CallGraph.build pingPong [bounce "pong" "ping", bounce "ping" "pong"])
          (bounce "ping" "pong") := by
  have h := extract_independent_of_entries (.ofProgram pingPong) (by decide +kernel)
    [bounce "ping" "pong"] (by decide +kernel) (bounce "ping" "pong") (by decide +kernel)
  refine ⟨by decide +kernel, h.1, ?_⟩
  exact h.2 [bounce "pong" "ping", bounce "ping" "pong"] (by decide +kernel) (by decide +kernel)

end Extraction
end ServiceReach
