import ServiceReach.Proofs.Index.Course

/-
  How a body ends. A method that returns nothing is given a return at its end unless its last
  instruction leaves it already. Which instruction is the last follows from the statements: it is
  the last one of the statement `u` in which the last statement ends (`Ends`), going down into the
  nested statements. So no return is added where the innermost last statement is a return or a
  throw, although the method may be left at its end all the same: after `if (b) { return; }`.
-/

namespace ServiceReach.Index

open Source Tree Trail Relation

variable {p : Place} {t u : Tree} {b b' : Body} {steps : List Step} {e : Bool}

/-- The statement leaves no instruction. -/
inductive Silent : Tree → Prop
  | intro {t : Tree} (hown : leavesOwn t = false) (h : ∀ c ∈ nested t, Silent c) : Silent t

/-- The last instruction of a statement is one that another one, nested in it, leaves of its own. -/
inductive Ends : Tree → Tree → Prop
  /-- What is nested leaves nothing, or comes before the condition of a `do` statement. -/
  | own {t : Tree} (hown : leavesOwn t = true)
      (h : t.kind = .doStatement ∨ ∀ c ∈ nested t, Silent c) : Ends t t
  | inner {t c u : Tree} {before after : List Tree} (hdo : t.kind ≠ .doStatement)
      (heq : nested t = before ++ c :: after) (hafter : ∀ d ∈ after, Silent d) (h : Ends c u) :
      Ends t u

/-- The last instruction of several statements is one that `u` leaves of its own. -/
def EndsAll (ts : List Tree) (u : Tree) : Prop :=
  ∃ before c after, ts = before ++ c :: after ∧ (∀ d ∈ after, Silent d) ∧ Ends c u

theorem silent_or_endsAll {ts : List Tree} (h : ∀ t ∈ ts, Silent t ∨ ∃ u, Ends t u) :
    (∀ t ∈ ts, Silent t) ∨ ∃ u, EndsAll ts u := by
  induction ts with
  | nil => exact Or.inl fun t ht => absurd ht List.not_mem_nil
  | cons t ts ih =>
    obtain ⟨ht, hts⟩ := List.forall_mem_cons.mp h
    rcases ih hts with hsilent | ⟨u, before, c, after, heq, hafter, hu⟩
    · rcases ht with ht | ⟨u, hu⟩
      · exact Or.inl (List.forall_mem_cons.mpr ⟨ht, hsilent⟩)
      · exact Or.inr ⟨u, [], t, ts, rfl, hsilent, hu⟩
    · exact Or.inr ⟨u, t :: before, c, after, by rw [heq]; rfl, hafter, hu⟩

/-- A statement leaves nothing or ends in some statement. -/
theorem silent_or_ends (t : Tree) : Silent t ∨ ∃ u, Ends t u := by
  induction t using forall_of_children with
  | h t ih =>
    by_cases hdo : t.kind = .doStatement
    · exact Or.inr ⟨t, .own (by simp [leavesOwn, isContainer, DeclKind.ofNode?, hdo]) (Or.inl hdo)⟩
    · rcases silent_or_endsAll fun c hc => ih c (nested_subset t hc) with hsilent |
        ⟨u, before, c, after, heq, hafter, hu⟩
      · cases hown : leavesOwn t with
        | false => exact Or.inl (.intro hown hsilent)
        | true => exact Or.inr ⟨t, .own hown (Or.inr hsilent)⟩
      · exact Or.inr ⟨u, .inner hdo heq hafter hu⟩

/-! ## What the moves leave -/

/-- The code ends with an instruction; `e` says whether it leaves the method. -/
def EndsWith (code : List Instruction) (e : Bool) : Prop :=
  ∃ i, code.getLast? = some i ∧ isExit i.kind i.text = e

/-- Lowering a statement is working its steps off. -/
theorem moves_frames (h : p.Moves ([.visit t], b) ([], b')) :
    ∃ steps, p.Frames t steps ∧ p.Moves (steps, b) ([], b') := by
  have hplan := moves_visit h
  rw [List.append_nil] at hplan
  exact ⟨p.plan t, plan_frames p t, hplan⟩

theorem moves_mute (h : ∀ s ∈ steps, s.Mute) (hmoves : p.Moves (steps, b) ([], b')) :
    b'.code = b.code := by
  induction steps generalizing b with
  | nil => rw [moves_nil hmoves]
  | cons s steps ih =>
    obtain ⟨hs, hsteps⟩ := List.forall_mem_cons.mp h
    rcases ReflTransGen.cases_head hmoves with heq | ⟨c, hmove, hrest⟩
    · cases heq
    · cases hmove with
      | visit => cases hs
      | emit => cases hs
      | declare hdeclare => rw [ih hsteps hrest, p.declare_code _ _ _ hdeclare]
      | bind =>
        have hcode := ih hsteps hrest
        exact hcode

theorem moves_lastEmit (h : LastEmit steps e) (hmoves : p.Moves (steps, b) ([], b')) :
    EndsWith b'.code e := by
  obtain ⟨before, line, text, scan, kind, after, rfl, hafter, he⟩ := h
  obtain ⟨b₁, _, hmoves⟩ := moves_append hmoves
  rcases ReflTransGen.cases_head hmoves with heq | ⟨c, hmove, hrest⟩
  · cases heq
  · cases hmove with
    | emit hemit =>
      obtain ⟨_, calls, hcode, _⟩ := p.emit_adds _ _ _ _ _ _ hemit
      refine ⟨⟨b₁.code.length, text, kind, calls, line⟩, ?_, he⟩
      rw [moves_mute hafter hrest, hcode, List.getLast?_concat]

theorem moves_visits {ts : List Tree}
    (h : ∀ t ∈ ts, ∀ b b', p.Moves ([.visit t], b) ([], b') → b'.code = b.code)
    (hmoves : p.Moves (ts.map .visit, b) ([], b')) : b'.code = b.code := by
  induction ts generalizing b with
  | nil => rw [moves_nil hmoves]
  | cons t ts ih =>
    obtain ⟨ht, hts⟩ := List.forall_mem_cons.mp h
    have hsplit : p.Moves ([.visit t] ++ ts.map .visit, b) ([], b') := hmoves
    obtain ⟨b₁, hfirst, hrest⟩ := moves_append hsplit
    rw [ih hts hrest, ht b b₁ hfirst]

theorem Silent.code (h : Silent t) {b b' : Body} (hmoves : p.Moves ([.visit t], b) ([], b')) :
    b'.code = b.code := by
  induction h generalizing b b' with
  | @intro t hown _ ih =>
    obtain ⟨steps, hframes, hplan⟩ := moves_frames hmoves
    cases hframes with
    | bare => exact moves_visits (fun c hc b b' => ih c hc) hplan
    | before htrue => exact absurd (hown.symm.trans htrue) Bool.false_ne_true
    | around hdo => simp [leavesOwn, isContainer, DeclKind.ofNode?, hdo] at hown

theorem silent_visits {ts : List Tree} (h : ∀ t ∈ ts, Silent t)
    (hmoves : p.Moves (ts.map .visit, b) ([], b')) : b'.code = b.code :=
  moves_visits (fun t ht _ _ => (h t ht).code) hmoves

/-- If a statement among others ends in an instruction and what follows it leaves nothing, all of
    them end in it. -/
theorem moves_ends {before after : List Tree} {c : Tree} (hafter : ∀ d ∈ after, Silent d)
    (hc : ∀ b b', p.Moves ([.visit c], b) ([], b') → EndsWith b'.code e)
    (hmoves : p.Moves ((before ++ c :: after).map .visit, b) ([], b')) : EndsWith b'.code e := by
  rw [List.map_append] at hmoves
  obtain ⟨b₁, _, hmoves⟩ := moves_append hmoves
  have hsplit : p.Moves ([.visit c] ++ after.map .visit, b₁) ([], b') := hmoves
  obtain ⟨b₂, hfirst, hrest⟩ := moves_append hsplit
  rw [silent_visits hafter hrest]
  exact hc b₁ b₂ hfirst

/-- The code of a statement ends as the statement does. -/
theorem Ends.code (h : Ends t u) {b b' : Body} (hmoves : p.Moves ([.visit t], b) ([], b')) :
    EndsWith b'.code (p.exits u) := by
  induction h generalizing b b' with
  | @own t hown hnested =>
    obtain ⟨steps, hframes, hplan⟩ := moves_frames hmoves
    cases hframes with
    | bare hfalse => exact absurd (hfalse.symm.trans hown) Bool.false_ne_true
    | before _ hdo hfront hback =>
      obtain ⟨b₁, hplan, hlast⟩ := moves_append hplan
      obtain ⟨b₂, hfirst, hvisits⟩ := moves_append hplan
      have hsilent : ∀ c ∈ nested t, Silent c := hnested.resolve_left hdo
      rw [moves_mute hback hlast, silent_visits hsilent hvisits]
      exact moves_lastEmit hfront hfirst
    | around _ hback =>
      obtain ⟨b₁, _, hlast⟩ := moves_append hplan
      exact moves_lastEmit hback hlast
  | @inner t c u before after hdo heq hafter _ ih =>
    obtain ⟨steps, hframes, hplan⟩ := moves_frames hmoves
    have hends : ∀ b b', p.Moves ((nested t).map .visit, b) ([], b') →
        EndsWith b'.code (p.exits u) := by
      rw [heq]
      exact fun b b' hmoves => moves_ends hafter (fun b b' => ih) hmoves
    cases hframes with
    | bare => exact hends b b' hplan
    | before _ _ _ hback =>
      obtain ⟨b₁, hplan, hlast⟩ := moves_append hplan
      obtain ⟨b₂, _, hvisits⟩ := moves_append hplan
      rw [moves_mute hback hlast]
      exact hends b₂ b₁ hvisits
    | around hkind => exact absurd hkind hdo

/-! ## The return at the end -/

theorem endsInExit_of_endsWith {code : List Instruction} (h : EndsWith code e) :
    endsInExit code = e := by
  obtain ⟨i, hi, he⟩ := h
  rw [endsInExit, hi]
  exact he

/-- A method that returns nothing has the instructions of its statements, and a return after them
    unless its last statement ends in a statement that is a return or starts like a throw. -/
theorem Place.lower_falls_through (p : Place) {m : Method} (hvoid : m.returnType = "void")
    (params : List (String × String)) {body : List Tree} (h : Grammatical body)
    {code : List Instruction} (hcode : (p.lower m params body).run.value = .ok code) :
    ∃ b, p.Moves (body.map .visit, Body.ofParams params) ([], b) ∧
      ((∃ u, EndsAll body u ∧ p.exits u = true) → code = b.code) ∧
      ((¬ ∃ u, EndsAll body u ∧ p.exits u = true) →
        ∃ line, code = b.code ++ [⟨b.code.length, "return", .return, [], line⟩]) := by
  obtain ⟨b, hmoves, hclosed⟩ := lower_moves p m params h code hcode
  have hends : ∀ u, EndsAll body u → endsInExit b.code = p.exits u := by
    rintro u ⟨before, c, after, rfl, hafter, hu⟩
    exact endsInExit_of_endsWith (moves_ends hafter (fun _ _ => hu.code) hmoves)
  refine ⟨b, hmoves, ?_, fun hno => ?_⟩
  · rintro ⟨u, hu, hexit⟩
    rw [hclosed, closeCode, if_neg]
    simp [hends u hu, hexit]
  · have hopen : endsInExit b.code = false := by
      rcases silent_or_endsAll fun t (_ : t ∈ body) => silent_or_ends t with hsilent | ⟨u, hu⟩
      · rw [silent_visits hsilent hmoves]
        rfl
      · rw [hends u hu, Bool.eq_false_iff]
        exact fun hexit => hno ⟨u, hu, hexit⟩
    rw [hclosed, closeCode, if_pos (by simp [hvoid, hopen])]
    exact ⟨_, rfl⟩

/-! ## A guard at the end -/

/-- The block `{ if (b) { return; } }` of `class A { void f(boolean b) { if (b) { return; } } }`. -/
def guardBlock : Tree :=
  .node ⟨.block, true, 15, 28, 50, some .body⟩
    [.node ⟨.ifStatement, true, 17, 30, 48, none⟩
      [.node ⟨.parenthesizedExpression, true, 19, 33, 36, some .condition⟩
        [.node ⟨.identifier, true, 21, 34, 35, none⟩ []],
       .node ⟨.block, true, 23, 37, 48, some .consequence⟩
        [.node ⟨.returnStatement, true, 25, 39, 46, none⟩ []]]]

/-- The place of the block. -/
def guardPlace : Place :=
  { barePlace with
    entry := ⟨"A.java", "class A { void f(boolean b) { if (b) { return; } } }".toUTF8.data,
      guardBlock, true, {}⟩
    owner := "A"
    method := "<A: void f(boolean)>" }

/-- The method that the block is the body of. -/
def guardMethod : Method :=
  { owner := "A", name := "f", params := ["boolean"], hasBody := true }

theorem lower_guardBlock :
    ∃ code, (guardPlace.lower guardMethod [("b", "boolean")] [guardBlock]).run.value = .ok code ∧
      code.map (fun i => (i.text, i.kind)) = [("if (b)", .branch), ("return;", .return)] := by
  refine exists_ok_of_map ?_
  decide +kernel

theorem lower_falls_through_guard :
    guardMethod.returnType = "void" ∧ Grammatical [guardBlock] ∧
      ∃ code b, (guardPlace.lower guardMethod [("b", "boolean")] [guardBlock]).run.value = .ok code ∧
        guardPlace.Moves ([guardBlock].map .visit, Body.ofParams [("b", "boolean")]) ([], b) ∧
        ((∃ u, EndsAll [guardBlock] u ∧ guardPlace.exits u = true) → code = b.code) ∧
        ((¬ ∃ u, EndsAll [guardBlock] u ∧ guardPlace.exits u = true) →
          ∃ line, code = b.code ++ [⟨b.code.length, "return", .return, [], line⟩]) := by
  have hgrammatical : Grammatical [guardBlock] := by decide
  obtain ⟨code, hcode, _⟩ := lower_guardBlock
  obtain ⟨b, hb⟩ := guardPlace.lower_falls_through (m := guardMethod) rfl _ hgrammatical hcode
  exact ⟨rfl, hgrammatical, code, b, hcode, hb⟩

/-- The last statement of a method that returns nothing is neither a return nor a throw, and no
    return is added all the same. -/
theorem lower_guard_without_return :
    guardMethod.returnType = "void" ∧
      guardBlock.constructs.getLast?.map Tree.kind = some .ifStatement ∧
      ∃ code, (guardPlace.lower guardMethod [("b", "boolean")] [guardBlock]).run.value = .ok code ∧
        code.map (fun i => (i.text, i.kind)) = [("if (b)", .branch), ("return;", .return)] :=
  ⟨rfl, rfl, lower_guardBlock⟩

end ServiceReach.Index
