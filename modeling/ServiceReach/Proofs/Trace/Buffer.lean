import ServiceReach.Proofs.Trace.Frames
import ServiceReach.Proofs.Trace.Restriction

/-
  The buffer of a walk. Between any two steps the frames account for everything that they share: the
  open methods are theirs, and the buffer holds, from the outermost frame to the innermost, the
  texts of the instructions that each of them has passed (`Accounted`). A step changes the innermost
  frame only, so as long as a frame is there, what lies below it is what its method was entered on
  (`Recalled`); and when it is left, the state is that again, but for the traces completed since.
-/

namespace ServiceReach.Extraction

variable {v : View} {g : CallGraph} {entry : Method}

/-! ## What the frames account for -/

/-- The texts that a frame has put into the buffer: those of the instructions before its index, and
    that of the one at its index while callees of it are pending. -/
def Frame.texts (f : Frame) : List String :=
  (f.code.take f.index).map Instruction.text ++
    if f.pending.isSome then (f.code[f.index]?).toList.map Instruction.text else []

/-- The texts that the frames of a stack have put into the buffer, outermost first. -/
def stackTexts (stack : List Frame) : List String :=
  stack.reverse.flatMap Frame.texts

theorem stackTexts_cons (f : Frame) (rest : List Frame) :
    stackTexts (f :: rest) = stackTexts rest ++ f.texts := by
  simp [stackTexts]

namespace Frame

/-- The frame has gone on to `f'`, and has put some texts into the buffer in doing so. -/
structure GoesOn (f f' : Frame) (added : List String) : Prop where
  method : f'.method = f.method
  saved : f'.saved = f.saved
  texts : f'.texts = f.texts ++ added

variable (f : Frame) {i : Instruction} {pending : List Method}

theorem goesOn_callee (hpending : f.pending = some pending) (others : List Method) :
    f.GoesOn { f with pending := some others } [] :=
  ⟨rfl, rfl, by simp [texts, hpending]⟩

/-- When all callees of an instruction are done, its text is in the buffer already. -/
theorem goesOn_finish (hcode : f.code[f.index]? = some i) (hpending : f.pending = some pending) :
    f.GoesOn { f with pending := none, index := f.index + 1 } [] :=
  ⟨rfl, rfl, by simp [texts, hcode, hpending, List.take_add_one]⟩

theorem goesOn_plain (hcode : f.code[f.index]? = some i) (hpending : f.pending = none) :
    f.GoesOn { f with index := f.index + 1 } [i.text] :=
  ⟨rfl, rfl, by simp [texts, hcode, hpending, List.take_add_one]⟩

theorem goesOn_call (hcode : f.code[f.index]? = some i) (hpending : f.pending = none)
    (callees : List Method) : f.GoesOn { f with pending := some callees } [i.text] :=
  ⟨rfl, rfl, by simp [texts, hcode, hpending]⟩

end Frame

/-- The open methods are those of the frames, each once. The buffer is what the frames have put into
    it, and each of them was entered when it held what the frames below have put there. -/
structure Accounted (s : State) : Prop where
  opened : s.opened = s.stack.map fun f => f.method.signature
  distinct : s.opened.Nodup
  saved : ∀ f rest, f :: rest <:+ s.stack → f.saved = (stackTexts rest).length
  buffer : s.buffer = stackTexts s.stack

namespace Accounted

variable {s s' : State}

theorem empty : Accounted {} :=
  ⟨rfl, List.nodup_nil,
    fun f rest h => absurd (List.suffix_nil.mp h) (List.cons_ne_nil f rest), rfl⟩

theorem deliver (h : Accounted s) (traces : List Trace) : Accounted (s.deliver traces) :=
  ⟨h.opened, h.distinct, h.saved, h.buffer⟩

theorem enter (h : Accounted s) (m : Method) : Accounted (Extraction.enter s m) := by
  by_cases hleaf : m.signature ∈ s.opened ∨ m.instructions = []
  · rwa [enter_of_leaf hleaf]
  · rw [enter_of_enter hleaf]
    refine ⟨?_, List.nodup_cons.mpr ⟨fun ho => hleaf (Or.inl ho), h.distinct⟩, ?_, ?_⟩
    · simp only [State.within, List.map_cons, h.opened]
    · intro f rest hsuffix
      rcases List.suffix_cons_iff.mp hsuffix with heq | hsuffix
      · cases heq
        exact congrArg List.length h.buffer
      · exact h.saved f rest hsuffix
    · change s.buffer = stackTexts (_ :: s.stack)
      rw [stackTexts_cons, ← h.buffer]
      exact (List.append_nil s.buffer).symm

/-- The innermost frame may go on, if the buffer gets the texts that it adds. -/
theorem replace (h : Accounted s) {f f' : Frame} {rest : List Frame}
    (hstack : s.stack = f :: rest) {added : List String} (hframe : f.GoesOn f' added) :
    Accounted { s with stack := f' :: rest, buffer := s.buffer ++ added } := by
  obtain ⟨hopened, hdistinct, hlengths, hbuffer⟩ := h
  rw [hstack] at hopened hlengths hbuffer
  refine ⟨?_, hdistinct, ?_, ?_⟩
  · simp only [hopened, List.map_cons, hframe.method]
  · intro k below hsuffix
    rcases List.suffix_cons_iff.mp hsuffix with heq | hsuffix
    · cases heq
      exact hframe.saved.trans (hlengths f rest (List.suffix_refl _))
    · exact hlengths k below (hsuffix.trans (List.suffix_cons f rest))
  · simp only [hbuffer, stackTexts_cons, hframe.texts, List.append_assoc]

theorem replace_same (h : Accounted s) {f f' : Frame} {rest : List Frame}
    (hstack : s.stack = f :: rest) (hframe : f.GoesOn f' []) :
    Accounted { s with stack := f' :: rest } := by
  have hreplaced := h.replace hstack hframe
  rwa [List.append_nil] at hreplaced

theorem leave (h : Accounted s) {f : Frame} {rest : List Frame} (hstack : s.stack = f :: rest) :
    Accounted { s with
      stack := rest
      buffer := s.buffer.take f.saved
      opened := s.opened.erase f.method.signature } := by
  obtain ⟨hopened, hdistinct, hlengths, hbuffer⟩ := h
  rw [hstack] at hopened hlengths hbuffer
  rw [List.map_cons] at hopened
  refine ⟨?_, hdistinct.erase _, ?_, ?_⟩
  · simp only [hopened, List.erase_cons_head]
  · exact fun k below hsuffix => hlengths k below (hsuffix.trans (List.suffix_cons f rest))
  · simp only [hbuffer, stackTexts_cons, hlengths f rest (List.suffix_refl _), List.take_left']

theorem step (h : Accounted s) (hstep : Extraction.step v g entry s = some s') : Accounted s' := by
  cases moves_of_step hstep with
  | leave hstack hend => exact h.leave hstack
  | @callee f rest c cs hstack hpending =>
    exact (h.replace_same hstack (f.goesOn_callee hpending cs)).enter c
  | @finish f rest i hstack hcode hpending =>
    rw [complete_eq_deliver]
    exact (h.replace_same hstack (f.goesOn_finish hcode hpending)).deliver _
  | @plain f rest i hstack hcode hpending hcalls =>
    rw [complete_eq_deliver]
    exact (h.replace hstack (f.goesOn_plain hcode hpending)).deliver _
  | @call f rest i hstack hcode hpending hcalls =>
    exact h.replace hstack (f.goesOn_call hcode hpending (callees v g i))

theorem steps (h : Accounted s) {n : Nat} (hsteps : Steps v g entry n s s') : Accounted s' := by
  induction hsteps with
  | refl => exact h
  | head hstep _ ih => exact ih (h.step hstep)

/-- Further in, frames were entered on longer buffers. -/
theorem saved_le (h : Accounted s) :
    (s.stack.reverse.map Frame.saved).Pairwise (· ≤ ·) := by
  have hstack : ∀ stack : List Frame,
      (∀ f rest, f :: rest <:+ stack → f.saved = (stackTexts rest).length) →
      (stack.map Frame.saved).Pairwise (· ≥ ·) ∧
        ∀ f ∈ stack, f.saved ≤ (stackTexts stack).length := by
    intro stack
    induction stack with
    | nil => exact fun _ => ⟨List.Pairwise.nil, fun f hf => absurd hf List.not_mem_nil⟩
    | cons f rest ih =>
      intro hsaved
      obtain ⟨hpairwise, hle⟩ :=
        ih fun k below hsuffix => hsaved k below (hsuffix.trans (List.suffix_cons f rest))
      have hf := hsaved f rest (List.suffix_refl _)
      have hlonger : (stackTexts rest).length ≤ (stackTexts (f :: rest)).length := by
        rw [stackTexts_cons, List.length_append]
        omega
      refine ⟨?_, ?_⟩
      · rw [List.map_cons, List.pairwise_cons]
        refine ⟨fun n hn => ?_, hpairwise⟩
        obtain ⟨k, hk, rfl⟩ := List.mem_map.mp hn
        exact hf ▸ hle k hk
      · intro k hk
        rcases List.mem_cons.mp hk with rfl | hk
        · omega
        · exact Nat.le_trans (hle k hk) hlonger
  rw [List.map_reverse, List.pairwise_reverse]
  exact (hstack s.stack h.saved).1

end Accounted

/-! ## What a frame was entered on -/

/-- In the walk from `entry` a method is about to be entered: the entry method at the start, and
    later the next pending callee of the innermost frame. -/
inductive Enters (v : View) (g : CallGraph) (entry : Method) : State → Method → Prop where
  | start : Enters v g entry {} entry
  | callee {n : Nat} {s : State} {f : Frame} {rest : List Frame} {c : Method} {cs : List Method}
      (hsteps : Steps v g entry n (enter {} entry) s) (hstack : s.stack = f :: rest)
      (hpending : f.pending = some (c :: cs))
      (hstep : step v g entry s =
        some (enter { s with stack := { f with pending := some cs } :: rest } c)) :
      Enters v g entry { s with stack := { f with pending := some cs } :: rest } c

/-- The method was entered in the state `before`, which put a frame on the stack, and the walk has
    not left that frame since. -/
inductive Inside (v : View) (g : CallGraph) (entry : Method) (before : State) (m : Method) :
    State → Prop where
  | entered (hpush : (enter before m).stack.length = before.stack.length + 1) :
      Inside v g entry before m (enter before m)
  | later {s s' : State} (h : Inside v g entry before m s)
      (hstep : step v g entry s = some s') (habove : before.stack.length < s'.stack.length) :
      Inside v g entry before m s'

/-- The method of a frame was entered on the frames below it, and is not left since. -/
structure Recalled (v : View) (g : CallGraph) (entry : Method) (s : State) (f : Frame)
    (rest : List Frame) (before : State) : Prop where
  enters : Enters v g entry before f.method
  inside : Inside v g entry before f.method s
  stack : before.stack = rest
  accounted : Accounted before

/-- Each frame of a state was entered on what is below it. -/
def RecallsAll (v : View) (g : CallGraph) (entry : Method) (s : State) : Prop :=
  ∀ f rest, f :: rest <:+ s.stack → ∃ before, Recalled v g entry s f rest before

namespace RecallsAll

variable {s s' : State}

theorem start : RecallsAll v g entry (enter {} entry) := by
  intro f rest hsuffix
  by_cases hleaf : entry.signature ∈ ({} : State).opened ∨ entry.instructions = []
  · rw [enter_of_leaf hleaf] at hsuffix
    cases List.suffix_nil.mp hsuffix
  · have hinside : Inside v g entry {} entry (enter {} entry) :=
      .entered (by rw [enter_of_enter hleaf]; rfl)
    rw [enter_of_enter hleaf] at hsuffix
    rcases List.suffix_cons_iff.mp hsuffix with heq | hsuffix
    · cases heq
      exact ⟨{}, .start, hinside, rfl, .empty⟩
    · cases List.suffix_nil.mp hsuffix

/-- A frame that is still there after a step, or one of the same method in its place, recalls the
    same. -/
theorem keep (h : RecallsAll v g entry s) (hstep : step v g entry s = some s') {f f' : Frame}
    {rest : List Frame} (hmethod : f'.method = f.method) (hbefore : f :: rest <:+ s.stack)
    (hafter : f' :: rest <:+ s'.stack) : ∃ before, Recalled v g entry s' f' rest before := by
  obtain ⟨before, henters, hinside, hstack, haccounted⟩ := h f rest hbefore
  have habove : before.stack.length < s'.stack.length := by
    have hlength := hafter.length_le
    rw [List.length_cons] at hlength
    rw [hstack]
    omega
  exact ⟨before, hmethod ▸ henters, hmethod ▸ hinside.later hstep habove, hstack, haccounted⟩

/-- A step that changes the innermost frame only keeps what the frames recall. -/
theorem replace (h : RecallsAll v g entry s) (hstep : step v g entry s = some s') {f f' : Frame}
    {rest : List Frame} (hstack : s.stack = f :: rest) {added : List String}
    (hframe : f.GoesOn f' added) (hstack' : s'.stack = f' :: rest) : RecallsAll v g entry s' := by
  intro k below hsuffix
  have hsuffix' := hsuffix
  rw [hstack'] at hsuffix'
  rcases List.suffix_cons_iff.mp hsuffix' with heq | hbelow
  · cases heq
    exact h.keep hstep hframe.method (hstack ▸ List.suffix_refl _) hsuffix
  · exact h.keep hstep rfl (hstack ▸ hbelow.trans (List.suffix_cons f rest)) hsuffix

theorem callee (h : RecallsAll v g entry s) (haccounted : Accounted s) {n : Nat}
    (hsteps : Steps v g entry n (enter {} entry) s) {f : Frame} {rest : List Frame} {c : Method}
    {cs : List Method} (hstack : s.stack = f :: rest) (hpending : f.pending = some (c :: cs))
    (hstep : step v g entry s =
      some (enter { s with stack := { f with pending := some cs } :: rest } c)) :
    RecallsAll v g entry (enter { s with stack := { f with pending := some cs } :: rest } c) := by
  have henters := Enters.callee hsteps hstack hpending hstep
  have hframe := f.goesOn_callee hpending cs
  have hbefore := haccounted.replace_same hstack hframe
  by_cases hleaf : c.signature ∈ s.opened ∨ c.instructions = []
  · -- The callee is refused: only the list of pending callees is shorter.
    have hrefused := enter_of_leaf (s := { s with stack := { f with pending := some cs } :: rest })
      hleaf
    exact h.replace hstep hstack hframe (by rw [hrefused])
  · have hpushed := enter_of_enter (s := { s with stack := { f with pending := some cs } :: rest })
      hleaf
    intro k below hsuffix
    have hsuffix' := hsuffix
    rw [hpushed] at hsuffix'
    rcases List.suffix_cons_iff.mp hsuffix' with heq | hbelow
    · cases heq
      exact ⟨_, henters, .entered (by rw [hpushed]; rfl), rfl, hbefore⟩
    · rcases List.suffix_cons_iff.mp hbelow with heq | hbelow
      · cases heq
        exact h.keep hstep (f := f) rfl (hstack ▸ List.suffix_refl _) hsuffix
      · exact h.keep hstep rfl (hstack ▸ hbelow.trans (List.suffix_cons f rest)) hsuffix

theorem step (h : RecallsAll v g entry s) (haccounted : Accounted s) {n : Nat}
    (hsteps : Steps v g entry n (enter {} entry) s)
    (hstep : Extraction.step v g entry s = some s') : RecallsAll v g entry s' := by
  have hmoves := moves_of_step hstep
  cases hmoves with
  | @leave f rest hstack hend =>
    intro k below hsuffix
    exact h.keep hstep rfl (hstack ▸ hsuffix.trans (List.suffix_cons f rest)) hsuffix
  | callee hstack hpending => exact h.callee haccounted hsteps hstack hpending hstep
  | @finish f rest i hstack hcode hpending =>
    refine h.replace hstep hstack (f.goesOn_finish hcode hpending) ?_
    rw [complete_eq_deliver]
    rfl
  | @plain f rest i hstack hcode hpending hcalls =>
    refine h.replace hstep hstack (f.goesOn_plain hcode hpending) ?_
    rw [complete_eq_deliver]
    rfl
  | @call f rest i hstack hcode hpending hcalls =>
    exact h.replace hstep hstack (f.goesOn_call hcode hpending (callees v g i)) rfl

theorem steps {n k : Nat} (h : RecallsAll v g entry s) (haccounted : Accounted s)
    (hbefore : Steps v g entry k (enter {} entry) s) (hsteps : Steps v g entry n s s') :
    RecallsAll v g entry s' := by
  induction hsteps generalizing k with
  | refl => exact h
  | head hstep _ ih =>
    exact ih (h.step haccounted hbefore hstep) (haccounted.step hstep) (hbefore.tail hstep)

end RecallsAll

/-- Between any two steps of a walk, the open methods are those of the frames, no two of which are
    of one signature; the lengths that the frames saved do not decrease from the outermost frame to
    the innermost; and the buffer is what the frames have put into it, the outermost first. A step
    that leaves a frame leads back to the stack, the buffer and the open methods on which the method
    of the frame was entered. -/
theorem frames_account_for_walk (v : View) (g : CallGraph) (entry : Method) {n : Nat} {s : State}
    (hs : Steps v g entry n (enter {} entry) s) :
    (∀ x, x ∈ s.opened ↔ ∃ f ∈ s.stack, f.method.signature = x) ∧
      (s.stack.map fun f => f.method.signature).Nodup ∧
      (s.stack.reverse.map Frame.saved).Pairwise (· ≤ ·) ∧
      s.buffer = s.stack.reverse.flatMap Frame.texts ∧
      ∀ f s', step v g entry s = some s' → s.stack = f :: s'.stack →
        ∃ before, Enters v g entry before f.method ∧ Inside v g entry before f.method s ∧
          s'.stack = before.stack ∧ s'.buffer = before.buffer ∧ s'.opened = before.opened := by
  have hstart : Accounted (enter {} entry) := Accounted.empty.enter entry
  have haccounted := hstart.steps hs
  have hrecalls := RecallsAll.start.steps hstart (.refl _) hs
  refine ⟨fun x => ?_, haccounted.opened ▸ haccounted.distinct, haccounted.saved_le,
    haccounted.buffer, fun f s' hstep hstack => ?_⟩
  · rw [haccounted.opened, List.mem_map]
  · obtain ⟨before, henters, hinside, hbelow, hbefore⟩ :=
      hrecalls f s'.stack (hstack ▸ List.suffix_refl _)
    have hafter := haccounted.step hstep
    -- The stack decides what the buffer and the open methods are.
    refine ⟨before, henters, hinside, hbelow.symm, ?_, ?_⟩
    · rw [hafter.buffer, hbefore.buffer, hbelow]
    · rw [hafter.opened, hbefore.opened, hbelow]

theorem step_run {k : Nat} {s : State} (h : (step v g entry (run v g entry k s)).isSome = true) :
    step v g entry (run v g entry k s) = some (run v g entry (k + 1) s) := by
  induction k generalizing s with
  | zero =>
    obtain ⟨t, ht⟩ := Option.isSome_iff_exists.mp h
    rw [run] at ht ⊢
    rw [run, ht]
    rfl
  | succ k ih =>
    cases ht : step v g entry s with
    | none =>
      rw [run_of_halted ht, ht] at h
      cases h
    | some t =>
      rw [run, ht] at h ⊢
      rw [run, ht]
      exact ih h

theorem steps_run {n : Nat} {s : State}
    (h : ∀ k < n, (step v g entry (run v g entry k s)).isSome = true) :
    Steps v g entry n s (run v g entry n s) := by
  induction n with
  | zero => exact .refl s
  | succ n ih =>
    exact (ih fun k hk => h k (Nat.lt_succ_of_lt hk)).tail (step_run (h n (Nat.lt_succ_self n)))

/-- The walk through the two methods that call each other, after some steps. -/
def pingPongAfter (k : Nat) : State :=
  run (.ofProgram pingPong) (CallGraph.build pingPong pingPong.methods) (bounce "ping" "pong") k
    (enter {} (bounce "ping" "pong"))

/-- After six steps `pong` has refused to call `ping` again and is done; the next step leaves it. -/
theorem frames_account_for_pingPong :
    (pingPongAfter 6).stack.map (fun f => f.method.name) = ["pong", "ping"] ∧
      (pingPongAfter 6).buffer = ["pong()", "ping()", "return"] ∧
      (pingPongAfter 7).buffer = ["pong()"] ∧
      (pingPongAfter 6).buffer = (pingPongAfter 6).stack.reverse.flatMap Frame.texts ∧
      ∃ before, Enters (.ofProgram pingPong) (CallGraph.build pingPong pingPong.methods)
          (bounce "ping" "pong") before (bounce "pong" "ping") ∧
        (pingPongAfter 7).stack = before.stack ∧ (pingPongAfter 7).buffer = before.buffer ∧
        (pingPongAfter 7).opened = before.opened := by
  have hsteps : Steps (.ofProgram pingPong) (CallGraph.build pingPong pingPong.methods)
      (bounce "ping" "pong") 6 (enter {} (bounce "ping" "pong")) (pingPongAfter 6) :=
    steps_run (by decide +kernel)
  have hstep : step (.ofProgram pingPong) (CallGraph.build pingPong pingPong.methods)
      (bounce "ping" "pong") (pingPongAfter 6) = some (pingPongAfter 7) :=
    step_run (by decide +kernel)
  have hstack : (pingPongAfter 6).stack =
      ⟨bounce "pong" "ping", (bounce "pong" "ping").instructions, 1, 2, none⟩ ::
        (pingPongAfter 7).stack := rfl
  obtain ⟨_, _, _, hbuffer, hleave⟩ := frames_account_for_walk _ _ _ hsteps
  obtain ⟨before, henters, _, hrestored⟩ := hleave _ _ hstep hstack
  exact ⟨by decide +kernel, by decide +kernel, by decide +kernel, hbuffer, before, henters,
    hrestored⟩

end ServiceReach.Extraction
