import Mathlib.Data.Finset.Basic
import Mathlib.Data.List.Sigma
import ServiceReach.Proofs.Trace.Machine

/-
  The traces of an entry method are those of its acyclic call chains, one for each chain. A chain
  names the methods on the way down, and in each of them the instruction at which it is left and
  which of the callees there is entered. `chains` lists the chains in the order in which the walk
  meets them: it lists each acyclic chain (`mem_chains`), none twice (`nodup_chains`), and the walk
  completes the traces of that list (`walk_eq_map_chains`). Nothing is assumed of the graph: two
  call sites, or one call site twice, may lead to the same method, and each way is a chain of its
  own.
-/

namespace ServiceReach.Extraction

/-- A way down from a method to a return. -/
inductive Chain where
  /-- The chain ends in `m`, at the instruction with this index. -/
  | done (m : Method) (index : Nat)
  /-- The chain leaves `m` at the instruction with this index, for one of the callees there. -/
  | call (m : Method) (index choice : Nat) (rest : Chain)
deriving DecidableEq

namespace Chain

/-- The method in which the chain starts. -/
def head : Chain → Method
  | done m _ => m
  | call m _ _ _ => m

/-- The method in which the chain ends. -/
def terminus : Chain → Method
  | done m _ => m
  | call _ _ _ rest => rest.terminus

/-- The methods of the chain, from the first to the last. -/
def methods : Chain → List Method
  | done m _ => [m]
  | call m _ _ rest => m :: rest.methods

/-- The texts of the instructions of a method up to an index, the one at the index included. -/
def textsTo (m : Method) (index : Nat) : List String :=
  (m.instructions.take (index + 1)).map Instruction.text

/-- The texts of the instructions along the chain. -/
def steps : Chain → List String
  | done m index => textsTo m index
  | call m index _ rest => textsTo m index ++ rest.steps

/-- The trace of the chain. -/
def trace (c : Chain) : Trace :=
  ⟨c.head, c.terminus, c.steps⟩

/-- Every index of the chain is that of an instruction of its method, every choice is that of a
    callee of the instruction and the callee is the next method, and the last instruction is a
    return. -/
def Follows (v : View) (g : CallGraph) : Chain → Prop
  | done m index => ∃ i, m.instructions[index]? = some i ∧ i.isReturn = true
  | call m index choice rest =>
    ∃ i, m.instructions[index]? = some i ∧
      (callees v g i)[choice]? = some rest.head ∧ rest.Follows v g

/-- The chain is a call chain of `entry` in which no method is met twice. -/
structure IsAcyclicFrom (v : View) (g : CallGraph) (entry : Method) (c : Chain) : Prop where
  head_eq : c.head = entry
  follows : c.Follows v g
  nodup : (c.methods.map Method.signature).Nodup

/-- The index at which the first method is left, or at which the chain ends in it. -/
def index : Chain → Nat
  | done _ index => index
  | call _ index _ _ => index

/-- The number of the callee that the first call chooses. -/
def choice : Chain → Nat
  | done _ _ => 0
  | call _ _ choice _ => choice

end Chain

variable {v : View} {g : CallGraph} {entry m : Method} {opened : List String}

/-! ## All chains -/

/-- The acyclic chains from `m` on that avoid the open methods. -/
def chains (v : View) (g : CallGraph) (m : Method) (opened : List String) : List Chain :=
  if _h : m.signature ∈ opened then []
  else
    m.instructions.zipIdx.flatMap fun ik =>
      ((callees v g ik.1).zipIdx.attach.flatMap fun cj =>
        (chains v g cj.1.1 (m.signature :: opened)).map (Chain.call m ik.2 cj.1.2)) ++
      if ik.1.isReturn then [Chain.done m ik.2] else []
termination_by depthLeft g m opened
decreasing_by exact depthLeft_lt _h (List.fst_mem_of_mem_zipIdx cj.2)

/-- The chains from `m` on that leave it at the instruction with the index `k` for a callee, which
    is given with its number. -/
def chainsVia (v : View) (g : CallGraph) (m : Method) (opened : List String) (k : Nat)
    (cj : Method × Nat) : List Chain :=
  (chains v g cj.1 (m.signature :: opened)).map (Chain.call m k cj.2)

/-- The chains from `m` on that leave it, or end, at an instruction. -/
def chainsAt (v : View) (g : CallGraph) (m : Method) (opened : List String)
    (ik : Instruction × Nat) : List Chain :=
  (callees v g ik.1).zipIdx.flatMap (chainsVia v g m opened ik.2) ++
    if ik.1.isReturn then [Chain.done m ik.2] else []

theorem chains_of_open (h : m.signature ∈ opened) : chains v g m opened = [] := by
  rw [chains, dif_pos h]

theorem chains_of_closed (h : m.signature ∉ opened) :
    chains v g m opened = m.instructions.zipIdx.flatMap (chainsAt v g m opened) := by
  rw [chains, dif_neg h]
  congr 1
  funext ik
  unfold chainsAt
  congr 1
  rw [List.flatMap_subtype (g := chainsVia v g m opened ik.2) (fun cj _ => rfl),
    List.unattach_attach]

theorem mem_chainsAt {ik : Instruction × Nat} {c : Chain} :
    c ∈ chainsAt v g m opened ik ↔
      (∃ n j rest, (callees v g ik.1)[j]? = some n ∧
        rest ∈ chains v g n (m.signature :: opened) ∧ c = .call m ik.2 j rest) ∨
      (ik.1.isReturn = true ∧ c = .done m ik.2) := by
  unfold chainsAt chainsVia
  rw [List.mem_append, List.mem_flatMap]
  refine or_congr ?_ ?_
  · constructor
    · rintro ⟨⟨n, j⟩, hnj, hc⟩
      obtain ⟨rest, hrest, rfl⟩ := List.mem_map.mp hc
      exact ⟨n, j, rest, List.mk_mem_zipIdx_iff_getElem?.mp hnj, hrest, rfl⟩
    · rintro ⟨n, j, rest, hnj, hrest, rfl⟩
      exact ⟨(n, j), List.mk_mem_zipIdx_iff_getElem?.mpr hnj, List.mem_map.mpr ⟨rest, hrest, rfl⟩⟩
  · by_cases hret : ik.1.isReturn = true
    · simp [hret]
    · simp [hret]

theorem mem_chains_of_closed (h : m.signature ∉ opened) {c : Chain} :
    c ∈ chains v g m opened ↔
      ∃ i k, m.instructions[k]? = some i ∧ c ∈ chainsAt v g m opened (i, k) := by
  rw [chains_of_closed h, List.mem_flatMap]
  constructor
  · rintro ⟨⟨i, k⟩, hik, hc⟩
    exact ⟨i, k, List.mk_mem_zipIdx_iff_getElem?.mp hik, hc⟩
  · rintro ⟨i, k, hik, hc⟩
    exact ⟨(i, k), List.mk_mem_zipIdx_iff_getElem?.mpr hik, hc⟩

theorem done_mem_chains {m' : Method} {k : Nat} :
    Chain.done m' k ∈ chains v g m opened ↔
      m' = m ∧ m.signature ∉ opened ∧ ∃ i, m.instructions[k]? = some i ∧ i.isReturn = true := by
  by_cases h : m.signature ∈ opened
  · simp [chains_of_open h, h]
  · rw [mem_chains_of_closed h]
    constructor
    · rintro ⟨i, k', hi, hc⟩
      rcases mem_chainsAt.mp hc with ⟨_, _, _, _, _, heq⟩ | ⟨hret, heq⟩
      · cases heq
      · cases heq
        exact ⟨rfl, h, i, hi, hret⟩
    · rintro ⟨rfl, _, i, hi, hret⟩
      exact ⟨i, k, hi, mem_chainsAt.mpr (Or.inr ⟨hret, rfl⟩)⟩

theorem call_mem_chains {m' : Method} {k j : Nat} {rest : Chain} :
    Chain.call m' k j rest ∈ chains v g m opened ↔
      m' = m ∧ m.signature ∉ opened ∧ ∃ i n, m.instructions[k]? = some i ∧
        (callees v g i)[j]? = some n ∧ rest ∈ chains v g n (m.signature :: opened) := by
  by_cases h : m.signature ∈ opened
  · simp [chains_of_open h, h]
  · rw [mem_chains_of_closed h]
    constructor
    · rintro ⟨i, k', hi, hc⟩
      rcases mem_chainsAt.mp hc with ⟨n, _, _, hj, hrest, heq⟩ | ⟨_, heq⟩
      · cases heq
        exact ⟨rfl, h, i, n, hi, hj, hrest⟩
      · cases heq
    · rintro ⟨rfl, _, i, n, hi, hj, hrest⟩
      exact ⟨i, k, hi, mem_chainsAt.mpr (Or.inl ⟨n, j, rest, hj, hrest, rfl⟩)⟩

/-- The list holds exactly the acyclic chains that avoid the open methods. -/
theorem mem_chains (c : Chain) (m : Method) (opened : List String) :
    c ∈ chains v g m opened ↔
      c.IsAcyclicFrom v g m ∧ ∀ n ∈ c.methods, n.signature ∉ opened := by
  -- On the chain: what follows a call avoids the open methods and the method that was left.
  induction c generalizing m opened with
  | done m' k =>
    rw [done_mem_chains]
    constructor
    · rintro ⟨rfl, hopen, hret⟩
      refine ⟨⟨rfl, hret, List.nodup_singleton _⟩, fun n hn => ?_⟩
      rwa [List.mem_singleton.mp hn]
    · rintro ⟨⟨rfl, hret, _⟩, havoid⟩
      exact ⟨rfl, havoid _ (List.mem_singleton.mpr rfl), hret⟩
  | call m' k j rest ih =>
    rw [call_mem_chains]
    constructor
    · rintro ⟨rfl, hopen, i, c, hi, hj, hrest⟩
      obtain ⟨⟨rfl, hfollows, hnodup⟩, havoid⟩ := (ih c _).mp hrest
      have hfresh : m'.signature ∉ rest.methods.map Method.signature := by
        intro hmem
        obtain ⟨n, hn, heq⟩ := List.mem_map.mp hmem
        exact havoid n hn (heq ▸ List.mem_cons_self)
      refine ⟨⟨rfl, ⟨i, hi, hj, hfollows⟩, List.nodup_cons.mpr ⟨hfresh, hnodup⟩⟩, ?_⟩
      intro n hn
      rcases List.mem_cons.mp hn with rfl | hn
      · exact hopen
      · exact fun h => havoid n hn (List.mem_cons_of_mem _ h)
    · rintro ⟨⟨rfl, ⟨i, hi, hj, hfollows⟩, hnodup⟩, havoid⟩
      obtain ⟨hfresh, hnodup⟩ := List.nodup_cons.mp hnodup
      refine ⟨rfl, havoid _ List.mem_cons_self, i, rest.head, hi, hj, ?_⟩
      refine (ih _ _).mpr ⟨⟨rfl, hfollows, hnodup⟩, fun n hn hopen => ?_⟩
      rcases List.mem_cons.mp hopen with heq | hopen
      · exact hfresh (List.mem_map.mpr ⟨n, hn, heq⟩)
      · exact havoid n (List.mem_cons_of_mem _ hn) hopen

/-! ## No chain is listed twice -/

/-- Lists that are put together by position have no duplicates if none of them has and if the
    position can be read off their elements. -/
theorem nodup_flatMap_zipIdx {α β : Type} {l : List α} {f : α × Nat → List β} (key : β → Nat)
    (hf : ∀ x ∈ l.zipIdx, (f x).Nodup) (hkey : ∀ x ∈ l.zipIdx, ∀ b ∈ f x, key b = x.2) :
    (l.zipIdx.flatMap f).Nodup := by
  rw [List.nodup_flatMap]
  refine ⟨hf, ?_⟩
  have hpos : l.zipIdx.Pairwise fun x y => x.2 ≠ y.2 :=
    List.pairwise_map.mp (List.nodup_zipIdx_map_snd l)
  refine hpos.imp_of_mem ?_
  intro x y hx hy hne b hbx hby
  exact hne ((hkey x hx b hbx).symm.trans (hkey y hy b hby))

theorem index_of_mem_chainsAt {ik : Instruction × Nat} {c : Chain}
    (hc : c ∈ chainsAt v g m opened ik) : c.index = ik.2 := by
  rcases mem_chainsAt.mp hc with ⟨_, _, _, _, _, rfl⟩ | ⟨_, rfl⟩
  · rfl
  · rfl

theorem nodup_chainsAt {ik : Instruction × Nat}
    (hcs : ∀ c ∈ callees v g ik.1, (chains v g c (m.signature :: opened)).Nodup) :
    (chainsAt v g m opened ik).Nodup := by
  have hcalls : ((callees v g ik.1).zipIdx.flatMap (chainsVia v g m opened ik.2)).Nodup := by
    refine nodup_flatMap_zipIdx Chain.choice ?_ ?_
    · intro cj hcj
      refine (hcs cj.1 (List.fst_mem_of_mem_zipIdx hcj)).map ?_
      intro a b hab
      injection hab
    · intro cj _ c hc
      obtain ⟨rest, _, rfl⟩ := List.mem_map.mp hc
      rfl
  unfold chainsAt
  split
  · refine hcalls.append (List.nodup_singleton _) ?_
    intro c hc hdone
    obtain ⟨cj, _, hc⟩ := List.mem_flatMap.mp hc
    obtain ⟨rest, _, rfl⟩ := List.mem_map.mp hc
    cases List.mem_singleton.mp hdone
  · rwa [List.append_nil]

theorem nodup_chains (v : View) (g : CallGraph) (m : Method) (opened : List String) :
    (chains v g m opened).Nodup := by
  induction hd : depthLeft g m opened using Nat.strongRecOn generalizing m opened with
  | ind d ih =>
    by_cases h : m.signature ∈ opened
    · rw [chains_of_open h]
      exact List.nodup_nil
    · rw [chains_of_closed h]
      refine nodup_flatMap_zipIdx Chain.index ?_ fun _ _ _ => index_of_mem_chainsAt
      intro ik _
      refine nodup_chainsAt fun c hc => ?_
      exact ih _ (hd ▸ depthLeft_lt h hc) c _ rfl

/-! ## The walk goes through the list -/

theorem scan_eq_flatMap (f : List String → Instruction → List Trace) (trace : List String)
    (code : List Instruction) :
    scan f trace code = code.zipIdx.flatMap fun ik =>
      f (trace ++ (code.take (ik.2 + 1)).map Instruction.text) ik.1 := by
  induction code generalizing trace with
  | nil => rfl
  | cons i code ih =>
    rw [scan, ih, List.zipIdx_cons', List.flatMap_cons, List.flatMap_map]
    simp

/-- The trace of a chain on which a walk comes to the first method with a trace so far. -/
def Chain.traceAfter (entry : Method) (trace : List String) (c : Chain) : Trace :=
  ⟨entry, c.terminus, trace ++ c.steps⟩

theorem Chain.traceAfter_call (entry m : Method) (trace : List String) (k j : Nat) (rest : Chain) :
    Chain.traceAfter entry trace (.call m k j rest) =
      Chain.traceAfter entry (trace ++ Chain.textsTo m k) rest := by
  simp [Chain.traceAfter, Chain.terminus, Chain.steps]

theorem visit_eq_map_chainsAt (trace : List String) {ik : Instruction × Nat}
    (hcs : ∀ c ∈ callees v g ik.1, ∀ trace : List String,
      walk v g entry c trace (m.signature :: opened) =
        (chains v g c (m.signature :: opened)).map (Chain.traceAfter entry trace)) :
    visit v g entry m opened (trace ++ Chain.textsTo m ik.2) ik.1 =
      (chainsAt v g m opened ik).map (Chain.traceAfter entry trace) := by
  unfold visit chainsAt completed
  rw [List.map_append, List.map_flatMap]
  congr 1
  · -- The walk goes through the callees, the list through the callees with their numbers.
    conv_lhs => rw [← List.zipIdx_map_fst 0 (callees v g ik.1), List.flatMap_map]
    refine List.flatMap_congr fun cj hcj => ?_
    unfold chainsVia
    rw [hcs cj.1 (List.fst_mem_of_mem_zipIdx hcj), List.map_map]
    refine List.map_congr_left fun rest _ => ?_
    exact (Chain.traceAfter_call entry m trace ik.2 cj.2 rest).symm
  · split
    · rfl
    · rfl

theorem walk_eq_map_chains (v : View) (g : CallGraph) (entry m : Method)
    (trace opened : List String) :
    walk v g entry m trace opened = (chains v g m opened).map (Chain.traceAfter entry trace) := by
  induction hd : depthLeft g m opened using Nat.strongRecOn generalizing m trace opened with
  | ind d ih =>
    by_cases hopen : m.signature ∈ opened
    · rw [walk_of_leaf (Or.inl hopen), chains_of_open hopen]
      rfl
    · by_cases hcode : m.instructions = []
      · rw [walk_of_leaf (Or.inr hcode), chains_of_closed hopen, hcode]
        rfl
      · rw [walk_of_enter (by simp [hopen, hcode]), chains_of_closed hopen, scan_eq_flatMap,
          List.map_flatMap]
        refine List.flatMap_congr fun ik _ => visit_eq_map_chainsAt trace ?_
        intro c hc trace
        exact ih _ (hd ▸ depthLeft_lt hopen hc) c trace _ rfl

/-- The traces that are delivered for an entry method are, with multiplicity, the traces of its
    acyclic call chains: one for each chain, none missing and nothing else. -/
theorem extract_eq_traces_of_acyclic_chains (v : View) (g : CallGraph) (entry : Method) :
    ∃ cs : Finset Chain, (∀ c, c ∈ cs ↔ c.IsAcyclicFrom v g entry) ∧
      (extract v g entry : Multiset Trace) = cs.val.map Chain.trace := by
  refine ⟨⟨chains v g entry [], Multiset.coe_nodup.mpr (nodup_chains v g entry [])⟩, ?_, ?_⟩
  · intro c
    refine (mem_chains c entry []).trans (and_iff_left ?_)
    intro n _
    exact List.not_mem_nil
  · have htrace : ∀ c ∈ chains v g entry [], Chain.traceAfter entry [] c = c.trace := by
      intro c hc
      rw [Chain.trace, ((mem_chains c entry []).mp hc).1.head_eq]
      rfl
    rw [extract_eq_walk, walk_eq_map_chains, List.map_congr_left htrace]
    rfl

end ServiceReach.Extraction
