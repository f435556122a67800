import ServiceReach.Proofs.Index.Build
import ServiceReach.Proofs.Model.Outcome

/-
  Where the calls of a lowered body stand. The instructions of a body are numbered from 0, the calls
  of each instruction too, and every call names the signature of the method whose body it is in.
  Lowering keeps this whatever the body holds (`run_numbered`), so all methods of the program of a
  catalog have it.
-/

namespace ServiceReach

/-- Each item of a list satisfies the condition on its index. -/
def Numbered {α : Type} (P : Nat → α → Prop) (l : List α) : Prop :=
  ∀ k a, l[k]? = some a → P k a

theorem numbered_nil {α : Type} {P : Nat → α → Prop} : Numbered P [] :=
  fun _ _ h => by cases h

theorem Numbered.concat {α : Type} {P : Nat → α → Prop} {l : List α} {a : α} (h : Numbered P l)
    (ha : P l.length a) : Numbered P (l ++ [a]) := by
  intro k b hb
  rw [List.getElem?_append] at hb
  split at hb
  · exact h k b hb
  · obtain ⟨hk, hab⟩ := List.getElem?_eq_some_iff.mp hb
    rw [List.length_singleton] at hk
    have hlen : k = l.length := by omega
    subst hlen
    simp only [Nat.sub_self, List.getElem_cons_zero] at hab
    exact hab ▸ ha

/-- The call is the `j`-th of the instruction `k` of a method. -/
structure CallSite.IsAt (caller : String) (k j : Nat) (s : CallSite) : Prop where
  caller : s.caller = some caller
  position : s.position = k
  ordinal : s.ordinal = j

/-- The instruction is the `k`-th of a method, and its calls are numbered. -/
structure Instruction.IsAt (caller : String) (k : Nat) (i : Instruction) : Prop where
  position : i.position = k
  calls : Numbered (CallSite.IsAt caller k) i.calls

/-- The instructions of a method and their calls are numbered. -/
def Method.IsNumbered (m : Method) : Prop :=
  Numbered (Instruction.IsAt m.signature) m.code

theorem Method.IsNumbered.caller {m : Method} (h : m.IsNumbered) {s : CallSite}
    (hs : s ∈ m.sites) : s.caller = some m.signature := by
  obtain ⟨i, hi, hs⟩ := List.mem_flatMap.mp hs
  unfold instructions at hi
  split at hi
  · obtain ⟨k, hk⟩ := List.mem_iff_getElem?.mp hi
    obtain ⟨j, hj⟩ := List.mem_iff_getElem?.mp hs
    exact ((h k i hk).calls j s hj).caller
  · cases hi

namespace Index

open Source Trail

/-! ## Bodies -/

namespace Place

variable (p : Place)

theorem callSite_isAt (locals : Locals) (known : Resolved) (k j : Nat) (t : Tree) :
    Ensures (p.callSite locals known k j t) fun r => r.1.IsAt p.method k j :=
  (Ensures.trivial _).bind fun _ _ => (Ensures.trivial _).bind fun _ _ =>
    Ensures.pure ⟨rfl, rfl, rfl⟩

theorem callSites_numbered (locals : Locals) (k : Nat) (nodes : List Tree)
    {done : List CallSite} (hdone : Numbered (CallSite.IsAt p.method k) done)
    (known : Resolved) :
    Ensures (p.callSites locals k nodes done known) fun r =>
      Numbered (CallSite.IsAt p.method k) r.1 := by
  induction nodes generalizing done known with
  | nil => exact Ensures.pure hdone
  | cons t nodes ih =>
    exact (p.callSite_isAt locals known k done.length t).bind fun _ hsite =>
      ih (hdone.concat hsite) _

theorem emit_numbered {b : Body} (hb : Numbered (Instruction.IsAt p.method) b.code) (line : Nat)
    (text : String) (scan : List Tree) (kind : InstructionKind) :
    Ensures (p.emit b line text scan kind) fun b =>
      Numbered (Instruction.IsAt p.method) b.code :=
  (p.callSites_numbered b.locals b.code.length _ numbered_nil b.known).bind fun _ hcalls =>
    Ensures.pure (hb.concat ⟨rfl, hcalls⟩)

theorem declare_code (b : Body) (t : Tree) :
    Ensures (p.declare b t) fun b' => b'.code = b.code := by
  refine Ensures.foldlM (fun b' t hb' => ?_) _ rfl
  unfold declareVariable
  split
  · exact Ensures.pure hb'
  · dsimp only
    split
    · exact (Ensures.trivial _).bind fun _ _ => Ensures.pure hb'
    · split
      · exact (Ensures.trivial _).bind fun _ _ =>
          (Ensures.trivial _).bind fun _ _ => Ensures.pure hb'
      · exact (Ensures.trivial _).bind fun _ _ => Ensures.pure hb'

theorem run_numbered (fuel : Nat) (steps : List Step) {b : Body}
    (hb : Numbered (Instruction.IsAt p.method) b.code) :
    Ensures (p.run fuel steps b) fun b => Numbered (Instruction.IsAt p.method) b.code := by
  induction fuel generalizing steps b with
  | zero => exact Ensures.pure hb
  | succ fuel ih =>
    cases steps with
    | nil => exact Ensures.pure hb
    | cons step rest =>
      cases step with
      | visit t => exact ih _ hb
      | emit line text scan kind =>
        exact (p.emit_numbered hb line text scan kind).bind fun _ hb' => ih rest hb'
      | declare t => exact (p.declare_code b t).bind fun b' hb' => ih rest (hb' ▸ hb)
      | bind name type => exact ih rest hb

theorem closeCode_numbered {caller : String} {code : List Instruction}
    (h : Numbered (Instruction.IsAt caller) code) (m : Method) :
    Numbered (Instruction.IsAt caller) (closeCode m code) := by
  unfold closeCode
  split
  · exact h.concat ⟨rfl, numbered_nil⟩
  · exact h

theorem lower_numbered (m : Method) (params : List (String × String)) (body : List Tree) :
    Ensures (p.lower m params body) (Numbered (Instruction.IsAt p.method)) :=
  (p.run_numbered _ _ numbered_nil).bind fun _ hb => Ensures.pure (closeCode_numbered hb m)

end Place

/-! ## Programs -/

theorem LinkedMethod.inEntry_eq (m : LinkedMethod) (e : Entry) :
    (m.inEntry e).method = m.method ∧ (m.inEntry e).params = m.params := by
  unfold inEntry
  split <;> exact ⟨rfl, rfl⟩

/-- The methods of a type in order: those that members declare, and those that it has by itself. -/
def Declaration.ownMethods (d : Declaration) (scopes : Scopes) : List LinkedMethod :=
  d.declaredMethods scopes ++ d.staticMethod ++ d.implicitConstructor (d.declaredMethods scopes)

theorem Declaration.methods_link (d : Declaration) (c : Catalog) (scopes : Scopes) :
    (d.link c scopes).methods = (d.ownMethods scopes).map (LinkedMethod.inEntry d.entry) := rfl

/-- A method is one that a member declares, or one that the type has by itself. -/
theorem Declaration.forall_ownMethods {P : LinkedMethod → Prop} (d : Declaration)
    (scopes : Scopes) (hdeclared : ∀ t, P (d.method scopes t))
    (hgiven : ∀ name modifiers line col body, P
      { method := { owner := d.name, name, modifiers, hasBody := true, line, col }
        body := some body }) : ∀ m ∈ d.ownMethods scopes, P m := by
  intro m hm
  rcases List.mem_append.mp hm with hm | hm
  · rcases List.mem_append.mp hm with hm | hm
    · obtain ⟨t, _, rfl⟩ := List.mem_map.mp hm
      exact hdeclared t
    · unfold staticMethod at hm
      split at hm
      · cases hm
      · rw [List.mem_singleton.mp hm]
        exact hgiven _ _ _ _ _
  · unfold implicitConstructor at hm
    split at hm
    · cases hm
    · rw [List.mem_singleton.mp hm]
      exact hgiven _ _ _ _ _

/-- A linked method is one that a member declares, or one that the type has by itself. -/
theorem Declaration.forall_link {P : Method → List (String × String) → Prop} (d : Declaration)
    (c : Catalog) (scopes : Scopes)
    (hdeclared : ∀ t, P (d.method scopes t).method (d.method scopes t).params)
    (hgiven : ∀ name modifiers line col,
      P { owner := d.name, name, modifiers, hasBody := true, line, col } []) :
    ∀ m ∈ (d.link c scopes).methods, P m.method m.params := by
  intro m hm
  rw [methods_link] at hm
  obtain ⟨n, hn, rfl⟩ := List.mem_map.mp hm
  rw [(n.inEntry_eq d.entry).1, (n.inEntry_eq d.entry).2]
  exact d.forall_ownMethods (P := fun n => P n.method n.params) scopes hdeclared
    (fun name modifiers line col _ => hgiven name modifiers line col) n hn

theorem Declaration.code_link (d : Declaration) (c : Catalog) (scopes : Scopes)
    {m : LinkedMethod} (hm : m ∈ (d.link c scopes).methods) : m.method.code = [] :=
  d.forall_link (P := fun m _ => m.code = []) c scopes (fun _ => rfl) (fun _ _ _ _ => rfl) m hm

namespace Catalog

theorem lowerMethod_numbered (c : Catalog) (p : Program) (d : Declaration) {m : LinkedMethod}
    (hm : m.method.code = []) : (c.lowerMethod p d m).value.1.IsNumbered := by
  have hplain : m.method.IsNumbered := by
    unfold Method.IsNumbered
    rw [hm]
    exact numbered_nil
  rcases c.lowerMethod_cases p d m with heq | ⟨body, code, _, hlower, heq⟩
  · rw [heq]
    exact hplain
  · rw [heq]
    exact (c.place p d m.method).lower_numbered m.method m.params body code hlower

theorem methods_lowered (c : Catalog) (t : LinkedType) :
    (c.lowered t).methods =
      t.methods.map fun m => (c.lowerMethod c.heads t.declaration m).value.1 := by
  unfold lowered lowerType
  simp only [Trail.value_bind, Trail.value_pure, Trail.value_mapM, List.map_map]
  rfl

/-- In the program of a catalog the calls of every method are numbered and name the method. -/
theorem isNumbered_build {c : Catalog} (h : c.names.Nodup) {m : Method}
    (hm : m ∈ c.build.program.methods) : m.IsNumbered := by
  obtain ⟨t, ht, hm⟩ := List.mem_flatMap.mp hm
  rw [types_build h] at ht
  obtain ⟨l, hl, rfl⟩ := List.mem_map.mp ht
  rw [methods_lowered] at hm
  obtain ⟨n, hn, rfl⟩ := List.mem_map.mp hm
  obtain ⟨d, _, rfl⟩ := List.mem_map.mp hl
  exact c.lowerMethod_numbered c.heads _ (d.code_link c c.scopes hn)

end Catalog
end Index
end ServiceReach
