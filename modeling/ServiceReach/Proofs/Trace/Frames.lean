import ServiceReach.Proofs.Trace.Machine

/-
  The frames of a walk. `Moves` says once what a step can do. Between any two steps the open methods
  are those of the frames, no two of one signature, and all of them lie in a set of methods that
  holds the entry method and is not left by calls (`Framed`). A trace is completed by a step: the
  method of the innermost frame is its terminus, and the frames are the methods open at that time.
-/

namespace ServiceReach.Extraction

variable {v : View} {g : CallGraph} {entry : Method}

/-- What a step of the walk can do. -/
inductive Moves (v : View) (g : CallGraph) (entry : Method) (s : State) : State → Prop where
  /-- The innermost method is done. -/
  | leave {f : Frame} {rest : List Frame} (hstack : s.stack = f :: rest)
      (hend : f.code[f.index]? = none) :
      Moves v g entry s { s with
        stack := rest
        buffer := s.buffer.take f.saved
        opened := s.opened.erase f.method.signature }
  /-- A pending callee is entered. -/
  | callee {f : Frame} {rest : List Frame} {c : Method} {cs : List Method}
      (hstack : s.stack = f :: rest) (hpending : f.pending = some (c :: cs)) :
      Moves v g entry s (enter { s with stack := { f with pending := some cs } :: rest } c)
  /-- All callees of an instruction are done. -/
  | finish {f : Frame} {rest : List Frame} {i : Instruction} (hstack : s.stack = f :: rest)
      (hcode : f.code[f.index]? = some i) (hpending : f.pending = some []) :
      Moves v g entry s (complete entry f.method i
        { s with stack := { f with pending := none, index := f.index + 1 } :: rest })
  /-- An instruction without calls is passed. -/
  | plain {f : Frame} {rest : List Frame} {i : Instruction} (hstack : s.stack = f :: rest)
      (hcode : f.code[f.index]? = some i) (hpending : f.pending = none) (hcalls : i.calls = []) :
      Moves v g entry s (complete entry f.method i
        { s with
          stack := { f with index := f.index + 1 } :: rest
          buffer := s.buffer ++ [i.text] })
  /-- The callees of an instruction are looked up. -/
  | call {f : Frame} {rest : List Frame} {i : Instruction} (hstack : s.stack = f :: rest)
      (hcode : f.code[f.index]? = some i) (hpending : f.pending = none) (hcalls : i.calls ≠ []) :
      Moves v g entry s
        { s with
          stack := { f with pending := some (callees v g i) } :: rest
          buffer := s.buffer ++ [i.text] }

theorem moves_of_step {s s' : State} (h : step v g entry s = some s') : Moves v g entry s s' := by
  unfold step at h
  split at h
  · cases h
  · rename_i f rest hstack
    split at h
    · rename_i hend
      cases h
      exact .leave hstack hend
    · rename_i i hcode
      split at h
      · rename_i c cs hpending
        cases h
        exact .callee hstack hpending
      · rename_i hpending
        cases h
        exact .finish hstack hcode hpending
      · rename_i hpending
        dsimp only at h
        split at h
        · rename_i hcalls
          cases h
          exact .plain hstack hcode hpending (List.isEmpty_iff.mp hcalls)
        · rename_i hcalls
          cases h
          exact .call hstack hcode hpending (mt List.isEmpty_iff.mpr hcalls)

/-! ## Open methods -/

/-- The open methods are those of the frames, each once. They lie in `S`, and so do the methods
    still to be entered. -/
structure Framed (S : Method → Prop) (s : State) : Prop where
  opened : s.opened = s.stack.map fun f => f.method.signature
  distinct : s.opened.Nodup
  inside : ∀ f ∈ s.stack, S f.method
  pending : ∀ f ∈ s.stack, ∀ cs, f.pending = some cs → ∀ c ∈ cs, S c

namespace Framed

variable {S : Method → Prop} {s s' : State}

theorem empty : Framed S {} :=
  ⟨rfl, List.nodup_nil, fun _ hf => absurd hf List.not_mem_nil,
    fun _ hf => absurd hf List.not_mem_nil⟩

theorem enter (h : Framed S s) {m : Method} (hm : S m) : Framed S (Extraction.enter s m) := by
  by_cases hleaf : m.signature ∈ s.opened ∨ m.instructions = []
  · rwa [enter_of_leaf hleaf]
  · rw [enter_of_enter hleaf]
    refine ⟨?_, List.nodup_cons.mpr ⟨fun ho => hleaf (Or.inl ho), h.distinct⟩, ?_, ?_⟩
    · simp only [State.within, List.map_cons, h.opened]
    · intro f hf
      rcases List.mem_cons.mp hf with rfl | hf
      · exact hm
      · exact h.inside f hf
    · intro f hf cs hcs
      rcases List.mem_cons.mp hf with rfl | hf
      · cases hcs
      · exact h.pending f hf cs hcs

/-- The innermost frame may be replaced by one of the same method. -/
theorem replace (h : Framed S s) {f : Frame} {rest : List Frame} (hstack : s.stack = f :: rest)
    (f' : Frame) (hmethod : f'.method = f.method)
    (hpending : ∀ cs, f'.pending = some cs → ∀ c ∈ cs, S c) (buffer : List String) :
    Framed S { s with stack := f' :: rest, buffer := buffer } := by
  obtain ⟨hopened, hdistinct, hinside, hpend⟩ := h
  rw [hstack] at hopened hinside hpend
  refine ⟨?_, hdistinct, ?_, ?_⟩
  · simp only [hopened, List.map_cons, hmethod]
  · intro k hk
    rcases List.mem_cons.mp hk with rfl | hk
    · exact hmethod ▸ hinside f List.mem_cons_self
    · exact hinside k (List.mem_cons_of_mem f hk)
  · intro k hk
    rcases List.mem_cons.mp hk with rfl | hk
    · exact hpending
    · exact hpend k (List.mem_cons_of_mem f hk)

theorem deliver (h : Framed S s) (traces : List Trace) : Framed S (s.deliver traces) :=
  ⟨h.opened, h.distinct, h.inside, h.pending⟩

theorem step (hcallees : ∀ i, ∀ c ∈ callees v g i, S c) (h : Framed S s)
    (hstep : Extraction.step v g entry s = some s') : Framed S s' := by
  cases moves_of_step hstep with
  | @leave f rest hstack hend =>
    obtain ⟨hopened, hdistinct, hinside, hpending⟩ := h
    rw [hstack] at hopened hinside hpending
    rw [List.map_cons] at hopened
    refine ⟨?_, hdistinct.erase _, fun k hk => hinside k (List.mem_cons_of_mem f hk),
      fun k hk => hpending k (List.mem_cons_of_mem f hk)⟩
    simp only [hopened, List.erase_cons_head]
  | @callee f rest c cs hstack hpending =>
    have hcs := h.pending f (by rw [hstack]; exact List.mem_cons_self) _ hpending
    refine (h.replace hstack { f with pending := some cs } rfl (fun cs' hcs' c' hc' => ?_)
      s.buffer).enter (hcs c List.mem_cons_self)
    cases hcs'
    exact hcs c' (List.mem_cons_of_mem c hc')
  | @finish f rest i hstack hcode hpending =>
    rw [complete_eq_deliver]
    exact (h.replace hstack { f with pending := none, index := f.index + 1 } rfl
      (fun cs hcs => by cases hcs) s.buffer).deliver _
  | @plain f rest i hstack hcode hpending hcalls =>
    rw [complete_eq_deliver]
    refine (h.replace hstack { f with index := f.index + 1 } rfl (fun cs hcs => ?_) _).deliver _
    rw [hpending] at hcs
    cases hcs
  | @call f rest i hstack hcode hpending hcalls =>
    refine h.replace hstack { f with pending := some (callees v g i) } rfl (fun cs hcs => ?_) _
    cases hcs
    exact hcallees i

theorem steps (hcallees : ∀ i, ∀ c ∈ callees v g i, S c) (h : Framed S s) {n : Nat}
    (hsteps : Steps v g entry n s s') : Framed S s' := by
  induction hsteps with
  | refl => exact h
  | head hstep _ ih => exact ih (h.step hcallees hstep)

end Framed

/-! ## Completed traces -/

/-- The next step of a walk from `entry` that has come to the state `s` completes the trace. -/
structure CompletedIn (v : View) (g : CallGraph) (entry : Method) (t : Trace) (s : State) :
    Prop where
  reached : ∃ n, Steps v g entry n (enter {} entry) s
  completed : ∃ s', step v g entry s = some s' ∧ s'.emitted = t :: s.emitted

theorem emitted_enter (s : State) (m : Method) : (enter s m).emitted = s.emitted := by
  unfold enter
  split <;> rfl

theorem emitted_step {s s' : State} (h : step v g entry s = some s') :
    s'.emitted = s.emitted ∨
      ∃ f rest buffer, s.stack = f :: rest ∧
        s'.emitted = ⟨entry, f.method, buffer⟩ :: s.emitted := by
  have hcomplete : ∀ (m : Method) (i : Instruction) (u : State),
      (complete entry m i u).emitted = u.emitted ∨
        (complete entry m i u).emitted = ⟨entry, m, u.buffer⟩ :: u.emitted := by
    intro m i u
    unfold complete
    split
    · exact Or.inr rfl
    · exact Or.inl rfl
  cases moves_of_step h with
  | leave => exact Or.inl rfl
  | callee => exact Or.inl (emitted_enter _ _)
  | finish hstack => exact (hcomplete _ _ _).imp_right fun he => ⟨_, _, _, hstack, he⟩
  | plain hstack => exact (hcomplete _ _ _).imp_right fun he => ⟨_, _, _, hstack, he⟩
  | call => exact Or.inl rfl

theorem CompletedIn.terminus {t : Trace} {s : State} (h : CompletedIn v g entry t s) :
    t.entry = entry ∧ ∃ f rest, s.stack = f :: rest ∧ t.terminus = f.method := by
  obtain ⟨s', hstep, hemitted⟩ := h.completed
  rcases emitted_step hstep with hsame | ⟨f, rest, buffer, hstack, hmore⟩
  · exact absurd (hemitted.symm.trans hsame) (List.cons_ne_self t s.emitted)
  · have ht : t = ⟨entry, f.method, buffer⟩ :=
      (List.cons.inj (hemitted.symm.trans hmore)).1
    exact ⟨by rw [ht], f, rest, hstack, by rw [ht]⟩

/-- A trace that was completed on the way was completed by some step. -/
theorem exists_completedIn {n k : Nat} {s s' : State}
    (hbefore : Steps v g entry k (enter {} entry) s) (h : Steps v g entry n s s') {t : Trace}
    (ht : t ∈ s'.emitted) : t ∈ s.emitted ∨ ∃ u, CompletedIn v g entry t u := by
  induction h generalizing k with
  | refl => exact Or.inl ht
  | head hstep _ ih =>
    rcases ih (hbefore.tail hstep) ht with hmem | hlater
    · rcases emitted_step hstep with hsame | ⟨f, rest, buffer, _, hmore⟩
      · exact Or.inl (hsame ▸ hmem)
      · rw [hmore] at hmem
        rcases List.mem_cons.mp hmem with rfl | hmem
        · exact Or.inr ⟨_, ⟨k, hbefore⟩, _, hstep, hmore⟩
        · exact Or.inl hmem
    · exact Or.inr hlater

/-- Every trace of an entry method is completed in some state of the walk. -/
theorem completedIn_of_mem_extract {t : Trace} (ht : t ∈ extract v g entry) :
    ∃ s, CompletedIn v g entry t s := by
  obtain ⟨n, _, hsteps, _⟩ := steps_finalState v g entry
  unfold extract at ht
  rcases exists_completedIn (.refl _) hsteps (List.mem_reverse.mp ht) with hstart | hlater
  · rw [emitted_enter] at hstart
    cases hstart
  · exact hlater

theorem CompletedIn.framed {S : Method → Prop} {t : Trace} {s : State}
    (h : CompletedIn v g entry t s) (hentry : S entry)
    (hcallees : ∀ i, ∀ c ∈ callees v g i, S c) : Framed S s := by
  obtain ⟨n, hsteps⟩ := h.reached
  exact (Framed.empty.enter hentry).steps hcallees hsteps

end ServiceReach.Extraction
