import Mathlib.Algebra.Group.Nat.Defs
import ServiceReach.Proofs.Trace.Walk

/-
  The frame-stack machine carries out `walk`. Entering a method from any state leads, after finitely
  many steps, back to exactly that state (same stack, buffer and open methods) with the traces of
  `walk` delivered (`returns_of_callees` for one method, `returns` for all of them by induction on
  the room that is left). A method takes at most `ownSteps` steps of its own and each callee less
  than the bound of the next level, so `stepBound` is never used up and `extract` is the walk from
  the entry method.
-/

namespace ServiceReach.Extraction

variable {v : View} {g : CallGraph} {entry : Method}

/-! ## Steps -/

/-- `n` steps of the walk lead from one state to another. -/
inductive Steps (v : View) (g : CallGraph) (entry : Method) : Nat → State → State → Prop
  | refl (s : State) : Steps v g entry 0 s s
  | head {n : Nat} {s t u : State} (h : step v g entry s = some t) (hs : Steps v g entry n t u) :
      Steps v g entry (n + 1) s u

theorem Steps.trans {n k : Nat} {s t u : State} (h₁ : Steps v g entry n s t)
    (h₂ : Steps v g entry k t u) : Steps v g entry (n + k) s u := by
  induction h₁ with
  | refl => rwa [Nat.zero_add]
  | @head n _ _ _ hstep _ ih =>
    rw [Nat.add_right_comm]
    exact .head hstep (ih h₂)

theorem Steps.tail {n : Nat} {s t u : State} (hs : Steps v g entry n s t)
    (h : step v g entry t = some u) : Steps v g entry (n + 1) s u :=
  hs.trans (.head h (.refl u))

theorem run_of_steps {n k : Nat} {s t : State} (h : Steps v g entry n s t) :
    run v g entry (n + k) s = run v g entry k t := by
  induction h with
  | refl => rw [Nat.zero_add]
  | @head n _ _ _ hstep _ ih =>
    rw [Nat.add_right_comm, run, hstep]
    exact ih

theorem run_of_halted {s : State} (h : step v g entry s = none) (k : Nat) :
    run v g entry k s = s := by
  cases k with
  | zero => rfl
  | succ k => rw [run, h]

/-! ## Delivered traces -/

/-- The state with more traces completed. -/
def State.deliver (s : State) (traces : List Trace) : State :=
  { s with
    emitted := traces.reverse ++ s.emitted
    count := s.count + traces.length }

theorem State.deliver_nil (s : State) : s.deliver [] = s := rfl

theorem State.deliver_deliver (s : State) (a b : List Trace) :
    (s.deliver a).deliver b = s.deliver (a ++ b) := by
  unfold State.deliver
  simp [Nat.add_assoc]

theorem complete_eq_deliver (m : Method) (i : Instruction) (s : State) :
    complete entry m i s = s.deliver (completed entry m s.buffer i) := by
  unfold complete completed
  split
  · rfl
  · rfl

/-! ## Inside a method -/

/-- The state inside the method `m`, entered from `s`, at the instruction `k`. -/
def State.within (s : State) (m : Method) (k : Nat) (pending : Option (List Method))
    (buffer : List String) : State :=
  { s with
    stack := ⟨m, m.instructions, s.buffer.length, k, pending⟩ :: s.stack
    buffer := buffer
    opened := m.signature :: s.opened }

theorem State.deliver_within (s : State) (m : Method) (k : Nat) (pending : Option (List Method))
    (buffer : List String) (traces : List Trace) :
    (s.within m k pending buffer).deliver traces =
      (s.deliver traces).within m k pending buffer := rfl

theorem enter_of_leaf {s : State} {m : Method}
    (h : m.signature ∈ s.opened ∨ m.instructions = []) : enter s m = s := by
  unfold enter
  rw [if_pos (by simpa using h)]

theorem enter_of_enter {s : State} {m : Method}
    (h : ¬ (m.signature ∈ s.opened ∨ m.instructions = [])) :
    enter s m = s.within m 0 none s.buffer := by
  unfold enter
  rw [if_neg (by simpa using h)]
  rfl

/-- The end of a method: its part of the buffer and its signature are forgotten. -/
theorem step_leave (s : State) (m : Method) (pending : Option (List Method)) (k : Nat)
    (hk : m.instructions.length ≤ k) (texts : List String) :
    step v g entry (s.within m k pending (s.buffer ++ texts)) = some s := by
  simp [step, State.within, List.getElem?_eq_none hk]

theorem step_callee (s : State) (m c : Method) (rest : List Method) {k : Nat} {i : Instruction}
    (hi : m.instructions[k]? = some i) (buffer : List String) :
    step v g entry (s.within m k (some (c :: rest)) buffer) =
      some (enter (s.within m k (some rest) buffer) c) := by
  simp [step, State.within, hi]

theorem step_return (s : State) (m : Method) {k : Nat} {i : Instruction}
    (hi : m.instructions[k]? = some i) (buffer : List String) :
    step v g entry (s.within m k (some []) buffer) =
      some ((s.within m (k + 1) none buffer).deliver (completed entry m buffer i)) := by
  simp [step, State.within, hi, complete_eq_deliver]

theorem step_plain (s : State) (m : Method) {k : Nat} {i : Instruction}
    (hi : m.instructions[k]? = some i) (hc : i.calls = []) (buffer : List String) :
    step v g entry (s.within m k none buffer) =
      some ((s.within m (k + 1) none (buffer ++ [i.text])).deliver
        (completed entry m (buffer ++ [i.text]) i)) := by
  simp [step, State.within, hi, hc, complete_eq_deliver]

theorem step_call (s : State) (m : Method) {k : Nat} {i : Instruction}
    (hi : m.instructions[k]? = some i) (hc : i.calls ≠ []) (buffer : List String) :
    step v g entry (s.within m k none buffer) =
      some (s.within m k (some (callees v g i)) (buffer ++ [i.text])) := by
  simp [step, State.within, hi, hc]

/-! ## From callees to a method -/

/-- Entering `m` with these methods open takes less than `bound` steps, which change nothing but
    that the traces of the recursion are delivered. -/
def Returns (v : View) (g : CallGraph) (entry : Method) (bound : Nat) (m : Method)
    (opened : List String) : Prop :=
  ∀ s : State, s.opened = opened → ∃ n, n < bound ∧
    Steps v g entry n (enter s m) (s.deliver (walk v g entry m s.buffer opened))

theorem steps_pending (m : Method) {k : Nat} {i : Instruction}
    (hi : m.instructions[k]? = some i) (buffer : List String) {bound : Nat} (cs : List Method)
    (s : State) (hcs : ∀ c ∈ cs, Returns v g entry bound c (m.signature :: s.opened)) :
    ∃ n, n ≤ cs.length * bound ∧ Steps v g entry n (s.within m k (some cs) buffer)
      ((s.within m k (some []) buffer).deliver
        (cs.flatMap fun c => walk v g entry c buffer (m.signature :: s.opened))) := by
  induction cs generalizing s with
  | nil => exact ⟨0, Nat.zero_le _, .refl _⟩
  | cons c cs ih =>
    obtain ⟨n, hn, hsteps⟩ := hcs c List.mem_cons_self (s.within m k (some cs) buffer) rfl
    rw [State.deliver_within] at hsteps
    -- The callee has returned to where it was entered, so the others go on from there.
    obtain ⟨n', hn', hsteps'⟩ := ih (s.deliver _) fun d hd => hcs d (List.mem_cons_of_mem c hd)
    refine ⟨n + 1 + n', ?_, ?_⟩
    · rw [List.length_cons, Nat.succ_mul]
      omega
    · rw [List.flatMap_cons, ← State.deliver_deliver]
      exact (Steps.head (step_callee s m c cs hi buffer) hsteps).trans hsteps'

theorem steps_instruction (m : Method) {k : Nat} {i : Instruction}
    (hi : m.instructions[k]? = some i) (buffer : List String) {bound : Nat} (hb : 0 < bound)
    (s : State) (hcs : ∀ c ∈ callees v g i, Returns v g entry bound c (m.signature :: s.opened)) :
    ∃ n, n ≤ ((callees v g i).length + 2) * bound ∧
      Steps v g entry n (s.within m k none buffer)
        ((s.within m (k + 1) none (buffer ++ [i.text])).deliver
          (visit v g entry m s.opened (buffer ++ [i.text]) i)) := by
  by_cases hc : i.calls = []
  · have hnone : callees v g i = [] := by simp [callees, hc]
    refine ⟨1, ?_, ?_⟩
    · rw [hnone, List.length_nil]
      omega
    · unfold visit
      rw [hnone]
      exact .head (step_plain s m hi hc buffer) (.refl _)
  · obtain ⟨n, hn, hsteps⟩ := steps_pending m hi (buffer ++ [i.text]) (callees v g i) s hcs
    rw [State.deliver_within] at hsteps
    refine ⟨n + 1 + 1, ?_, ?_⟩
    · rw [Nat.add_mul]
      omega
    · unfold visit
      rw [← State.deliver_deliver]
      exact (Steps.head (step_call s m hi hc buffer) hsteps).tail (step_return _ m hi _)

/-- The instructions `code` of `m` that follow the instructions `before`. -/
theorem steps_code (m : Method) {bound : Nat} (hb : 0 < bound) (code before : List Instruction)
    (hm : m.instructions = before ++ code) (buffer : List String) (s : State)
    (hcs : ∀ i ∈ code, ∀ c ∈ callees v g i,
      Returns v g entry bound c (m.signature :: s.opened)) :
    ∃ n, n + bound ≤ code.foldr (fun i total => (callees v g i).length + 2 + total) 1 * bound ∧
      Steps v g entry n (s.within m before.length none buffer)
        ((s.within m m.instructions.length none (buffer ++ code.map Instruction.text)).deliver
          (scan (visit v g entry m s.opened) buffer code)) := by
  induction code generalizing before buffer s with
  | nil =>
    refine ⟨0, Nat.le_of_eq (by rw [List.foldr_nil, Nat.zero_add, Nat.one_mul]), ?_⟩
    rw [hm, List.append_nil, List.map_nil, List.append_nil]
    exact .refl _
  | cons i code ih =>
    have hi : m.instructions[before.length]? = some i := by simp [hm]
    obtain ⟨n, hn, hsteps⟩ := steps_instruction m hi buffer hb s (hcs i List.mem_cons_self)
    rw [State.deliver_within] at hsteps
    obtain ⟨n', hn', hsteps'⟩ := ih (before ++ [i]) (by simp [hm]) (buffer ++ [i.text])
      (s.deliver _) fun j hj => hcs j (List.mem_cons_of_mem i hj)
    rw [List.length_append, List.length_singleton] at hsteps'
    refine ⟨n + n', ?_, ?_⟩
    · rw [List.foldr_cons, Nat.add_mul]
      omega
    · rw [scan, ← State.deliver_deliver, List.map_cons, List.append_cons]
      exact hsteps.trans hsteps'

/-- A method returns if its callees do; it adds no more than its own steps to theirs. -/
theorem returns_of_callees {m : Method} {opened : List String} {bound : Nat} (hb : 0 < bound)
    (hm : ¬ (m.signature ∈ opened ∨ m.instructions = []))
    (hcs : ∀ i ∈ m.instructions, ∀ c ∈ callees v g i,
      Returns v g entry bound c (m.signature :: opened)) :
    Returns v g entry ((ownSteps v g m + 1) * bound) m opened := by
  intro s hs
  subst hs
  obtain ⟨n, hn, hsteps⟩ := steps_code m hb m.instructions [] rfl s.buffer s hcs
  rw [State.deliver_within] at hsteps
  refine ⟨n + 1, ?_, ?_⟩
  · unfold ownSteps
    rw [Nat.add_mul]
    omega
  · rw [enter_of_enter hm, walk_of_enter hm]
    exact hsteps.tail (step_leave _ m none _ (Nat.le_refl _) _)

/-! ## All methods -/

/-- One more than the greatest number of own steps of a method that a walk can meet. -/
def width (v : View) (g : CallGraph) (entry : Method) : Nat :=
  (((candidates g entry).map (ownSteps v g)).max?).getD 0 + 1

theorem stepBound_eq (v : View) (g : CallGraph) (entry : Method) :
    stepBound v g entry = width v g entry ^ ((candidates g entry).length + 1) := rfl

theorem ownSteps_lt_width {m : Method} (hm : m ∈ candidates g entry) :
    ownSteps v g m < width v g entry := by
  unfold width
  have hmem : ownSteps v g m ∈ (candidates g entry).map (ownSteps v g) :=
    List.mem_map.mpr ⟨m, hm, rfl⟩
  cases hmax : ((candidates g entry).map (ownSteps v g)).max? with
  | none =>
    rw [List.max?_eq_none_iff.mp hmax] at hmem
    cases hmem
  | some top =>
    have := (List.max?_eq_some_iff.mp hmax).2 _ hmem
    rw [Option.getD_some]
    omega

theorem mem_candidates_of_mem_callees {i : Instruction} {c : Method} (h : c ∈ callees v g i) :
    c ∈ candidates g entry := by
  obtain ⟨s, _, hc⟩ := mem_edges_of_mem_callees h
  exact List.mem_cons_of_mem _ (List.mem_map.mpr ⟨(s, c), hc, rfl⟩)

/-- Every method the walk can meet returns, within a power of the width for each level. -/
theorem returns {m : Method} (hm : m ∈ candidates g entry) (opened : List String) :
    Returns v g entry (width v g entry ^ depthLeft g m opened) m opened := by
  have hwidth : 0 < width v g entry := Nat.succ_pos _
  -- On the room that is left: every callee has less of it, so it costs one factor less.
  induction hd : depthLeft g m opened using Nat.strongRecOn generalizing m opened with
  | ind d ih =>
    by_cases hleaf : m.signature ∈ opened ∨ m.instructions = []
    · intro s hs
      refine ⟨0, Nat.pow_pos hwidth, ?_⟩
      rw [walk_of_leaf hleaf, enter_of_leaf (hs ▸ hleaf), State.deliver_nil]
      exact .refl s
    · have hclosed : m.signature ∉ opened := fun h => hleaf (Or.inl h)
      have hcs : ∀ i ∈ m.instructions, ∀ c ∈ callees v g i,
          Returns v g entry (width v g entry ^ (d - 1)) c (m.signature :: opened) := by
        intro i _ c hc s hs
        have hlt := depthLeft_lt hclosed hc
        obtain ⟨n, hn, hsteps⟩ := ih _ (hd ▸ hlt) (mem_candidates_of_mem_callees hc) _ rfl s hs
        refine ⟨n, Nat.lt_of_lt_of_le hn (Nat.pow_le_pow_right hwidth ?_), hsteps⟩
        omega
      have hlevel : (ownSteps v g m + 1) * width v g entry ^ (d - 1) ≤ width v g entry ^ d := by
        have hpos := depthLeft_pos (g := g) hclosed
        calc (ownSteps v g m + 1) * width v g entry ^ (d - 1)
            ≤ width v g entry * width v g entry ^ (d - 1) :=
              Nat.mul_le_mul_right _ (ownSteps_lt_width hm)
          _ = width v g entry ^ (d - 1 + 1) := (Nat.pow_succ').symm
          _ = width v g entry ^ d := by rw [Nat.sub_add_cancel (hd ▸ hpos)]
      intro s hs
      obtain ⟨n, hn, hsteps⟩ := returns_of_callees (Nat.pow_pos hwidth) hleaf hcs s hs
      exact ⟨n, Nat.lt_of_lt_of_le hn hlevel, hsteps⟩

/-! ## The walk from an entry method -/

/-- The machine halts by itself, within its bound, in the state with the traces of the recursion. -/
theorem steps_finalState (v : View) (g : CallGraph) (entry : Method) :
    ∃ n, n ≤ stepBound v g entry ∧
      Steps v g entry n (enter {} entry) (finalState v g entry) ∧
      finalState v g entry = ({} : State).deliver (walk v g entry entry [] []) := by
  obtain ⟨n, hn, hsteps⟩ := returns (v := v) (g := g) List.mem_cons_self [] {} rfl
  have hbound : n ≤ stepBound v g entry := by
    rw [stepBound_eq]
    refine Nat.le_trans (Nat.le_of_lt hn) (Nat.pow_le_pow_right (Nat.succ_pos _) ?_)
    exact Nat.le_succ_of_le (depthLeft_le g entry entry [])
  have hfinal : finalState v g entry = ({} : State).deliver (walk v g entry entry [] []) := by
    unfold finalState
    rw [← Nat.add_sub_cancel' hbound, run_of_steps hsteps]
    exact run_of_halted rfl _
  exact ⟨n, hbound, hfinal ▸ hsteps, hfinal⟩

theorem extract_eq_walk (v : View) (g : CallGraph) (entry : Method) :
    extract v g entry = walk v g entry entry [] [] := by
  obtain ⟨_, _, _, hfinal⟩ := steps_finalState v g entry
  unfold extract
  rw [hfinal]
  simp [State.deliver]

theorem extractCount_eq_length (v : View) (g : CallGraph) (entry : Method) :
    extractCount v g entry = (extract v g entry).length := by
  obtain ⟨_, _, _, hfinal⟩ := steps_finalState v g entry
  unfold extractCount extract
  rw [hfinal]
  simp [State.deliver]

theorem extractAll_eq_flatMap (v : View) (g : CallGraph) (entries : List Method) :
    extractAll v g entries = entries.flatMap (extract v g) := by
  unfold extractAll extractEach
  rw [List.flatMap_map]

/-- The running total of the counts is the number of all traces. -/
theorem extractAllCount_eq_length (v : View) (g : CallGraph) (entries : List Method) :
    extractAllCount v g entries = (extractAll v g entries).length := by
  have htotal : ∀ (es : List Method) (total : Nat),
      es.foldl (fun total e => total + extractCount v g e) total =
        total + (es.flatMap (extract v g)).length := by
    intro es
    induction es with
    | nil => intro total; rfl
    | cons e es ih =>
      intro total
      rw [List.foldl_cons, ih, extractCount_eq_length, List.flatMap_cons, List.length_append,
        Nat.add_assoc]
  unfold extractAllCount
  rw [htotal, extractAll_eq_flatMap, Nat.zero_add]

/-- The loop over frames refines the recursion. From every entry method it comes to an end by
    itself, with the traces of the recursion delivered in the same order and counted; over several
    entry methods it delivers the traces of one after the other and adds the counts. -/
theorem extraction_refines_walk (v : View) (g : CallGraph) :
    (∀ entry : Method,
      (∃ n, Steps v g entry n (enter {} entry) (finalState v g entry)) ∧
      step v g entry (finalState v g entry) = none ∧
      extract v g entry = walk v g entry entry [] [] ∧
      extractCount v g entry = (walk v g entry entry [] []).length) ∧
    ∀ entries : List Method,
      extractAll v g entries = entries.flatMap (fun e => walk v g e e [] []) ∧
      extractAllCount v g entries = (extractAll v g entries).length := by
  refine ⟨fun entry => ?_, fun entries => ⟨?_, extractAllCount_eq_length v g entries⟩⟩
  · obtain ⟨n, _, hsteps, hfinal⟩ := steps_finalState v g entry
    refine ⟨⟨n, hsteps⟩, ?_, extract_eq_walk v g entry, ?_⟩
    · rw [hfinal]
      rfl
    · rw [extractCount_eq_length, extract_eq_walk]
  · rw [extractAll_eq_flatMap]
    exact congrArg (fun f => List.flatMap f entries) (funext fun e => extract_eq_walk v g e)

end ServiceReach.Extraction
