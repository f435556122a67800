import ServiceReach.CallGraph.Build
import ServiceReach.Proofs.Model.Hierarchy
import ServiceReach.Proofs.Model.Overload
import ServiceReach.Proofs.Model.Signature

/-
  Targets by signature. A call site names its target by a signature only; the call graph looks it
  up again. If the signatures of the program can be read back, the signature of the method that was
  found for a call leads to a method of the same type and name, and what is recorded for a call
  that could not be resolved leads nowhere (`targeted_of_target`).
-/

namespace ServiceReach.Program

variable {q : Program} {s : CallSite}

/-- The methods of each type have it as their owner and signatures that can be read back. -/
def Readable (q : Program) : Prop :=
  ∀ n, ∀ m ∈ (q.lookup n).methods, m.Plain ∧ m.owner = n

theorem Readable.of_mem (h : q.Readable) {m : Method} (hm : m ∈ q.methods) :
    m.Plain ∧ m ∈ (q.lookup m.owner).methods := by
  obtain ⟨t, ht, hm⟩ := List.mem_flatMap.mp hm
  have hlookup : m ∈ (q.lookup t.name).methods := by
    rw [lookup_of_mem ht]
    exact hm
  obtain ⟨hplain, howner⟩ := h t.name m hlookup
  exact ⟨hplain, howner ▸ hlookup⟩

/-- What a search by name on the receiver of a call site brings. -/
def found (q : Program) (s : CallSite) : Option Method :=
  (q.findMethod s.receiver s.name (s.args.map Argument.type)).value

/-- How the target of a call site is recorded. -/
structure Targeted (q : Program) (s : CallSite) : Prop where
  /-- A known target has the name that is called, is declared by the receiver or a supertype of it,
      and is what a search by name on the receiver brings. -/
  known : ∀ k, q.method? s.target = some k → k.name = s.name ∧
    (∃ r, s.receiver = some r ∧ Search.Reaches q.supersOf r k.owner ∧
      k ∈ (q.lookup k.owner).methods) ∧
    ∃ f, q.found s = some f ∧ f.same k = true
  /-- A target that is not known is recorded as open, and nothing is called. -/
  unknown : q.method? s.target = none →
    q.found s = none ∧ s.target = s.openTarget ∧ (q.targets s).value = []

theorem method?_openTarget (h : q.Readable) (hreceiver : ∀ r ∈ s.receiver, Text.Spaceless r) :
    q.method? s.openTarget = none := by
  refine List.find?_eq_none.mpr fun m hm => ?_
  simpa using (h.of_mem hm).1.signature_ne_openTarget hreceiver

theorem method?_signature {m : Method} (hm : m ∈ q.methods) :
    ∃ k ∈ q.methods, q.method? m.signature = some k ∧ k.signature = m.signature := by
  cases hk : q.method? m.signature with
  | none => exact absurd (List.find?_eq_none.mp hk m hm) (by simp)
  | some k => exact ⟨k, mem_methods_of_method hk, rfl, by simpa using List.find?_some hk⟩

theorem targeted_of_none (h : q.Readable) (hreceiver : ∀ r ∈ s.receiver, Text.Spaceless r)
    (hfound : q.found s = none) (htarget : s.target = s.openTarget) :
    q.Targeted s ∧ q.method? s.target = none := by
  have hnone : q.method? s.target = none := by
    rw [htarget]
    exact method?_openTarget h hreceiver
  refine ⟨⟨fun k hk => ?_, fun _ => ⟨hfound, htarget, ?_⟩⟩, hnone⟩
  · rw [hnone] at hk
    cases hk
  · rw [targets, hnone]
    rfl

theorem targeted_of_some (h : q.Readable) {f : Method} (hfound : q.found s = some f)
    (htarget : s.target = f.signature) : q.Targeted s ∧ (q.method? s.target).isSome := by
  obtain ⟨⟨hname, _⟩, r, n, hr, hreaches, hf⟩ := findMethod_eq_some hfound
  have hmem := mem_methods_of_lookup hf
  obtain ⟨k, hk, hsome, hsignature⟩ := method?_signature hmem
  rw [← htarget] at hsome
  obtain ⟨hplain, hdeclared⟩ := h.of_mem hk
  -- The signature gives the owner away, and what is found on a type has it as its owner.
  obtain ⟨howner, hsame⟩ := hplain.eq_of_signature (h.of_mem hmem).1 hsignature
  have hn : k.owner = n := howner.trans (h n f hf).2
  refine ⟨⟨fun k' hk' => ?_, fun hnone => ?_⟩, by rw [hsome]; rfl⟩
  · rw [hsome] at hk'
    cases hk'
    refine ⟨hsame.trans hname, ⟨r, hr, hn ▸ hreaches, hdeclared⟩, f, hfound, ?_⟩
    exact beq_iff_eq.mpr hsignature.symm
  · rw [hsome] at hnone
    cases hnone

end ServiceReach.Program
