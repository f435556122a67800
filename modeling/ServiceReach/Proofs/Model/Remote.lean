import ServiceReach.Model.View
import ServiceReach.Proofs.Model.Chain
import ServiceReach.Proofs.Model.Inheritance
import ServiceReach.Proofs.Model.Method
import ServiceReach.Proofs.Model.Outcome

/-
  Remote interfaces, in a view in which looking names up may fail. `RemoteMethod` says by steps along
  the hierarchy which methods a service exposes: the implementations of the methods of those
  interfaces, declared on its superclass chain, from which steps to extended interfaces lead to the
  marker. If the search for them answers, it lists exactly these methods, whatever names fail; if it
  does not, it met a failing name among the interfaces that the service mentions
  (`remoteMethods_yields`). The search for the marker keeps a stack: what follows from an interface
  it has seen was seen too or is on the stack, so an empty stack means that the marker is out of reach.
-/

namespace ServiceReach

open Trail

namespace Program

variable {p : Program}

/-! ## Interfaces -/

/-- The type named `a` extends the interface named `b`. -/
def InterfaceStep (p : Program) (a b : String) : Prop :=
  isReferenceName b = true ∧ b ∈ (p.lookup a).interfaces

/-- Steps to extended interfaces lead from `a` to `b`, or the two are the same. -/
def ReachesInterface (p : Program) (a b : String) : Prop :=
  Relation.ReflTransGen p.InterfaceStep a b

/-- There is a marker, and steps to extended interfaces lead there. -/
def ReachesMarker (p : Program) (a : String) (marker : Option String) : Prop :=
  ∃ name, marker = some name ∧ p.ReachesInterface a name

/-- The type or a class above it declares the interface named `i`. -/
def DeclaresInterface (p : Program) (t : TypeDecl) (i : String) : Prop :=
  isReferenceName i = true ∧ ∃ c, p.OnChain t c ∧ i ∈ c.interfaces

/-- The service has `m` for a method of a remote interface that it declares. -/
def RemoteMethod (p : Program) (marker : String) (service : TypeDecl) (m : Method) : Prop :=
  ∃ i, p.DeclaresInterface service i ∧ p.ReachesInterface i marker ∧
    ∃ k ∈ (p.lookup i).methods, p.Implements k.subsignature service m

/-- The name is written as an interface of the type, of a class above it, or of an interface that
    follows from these. -/
inductive Mentions (p : Program) (t : TypeDecl) : String → Prop
  | declared {c : TypeDecl} {n : String} (hc : p.OnChain t c) (hn : n ∈ c.interfaces) :
      Mentions p t n
  | extended {n k : String} (hn : Mentions p t n) (href : isReferenceName n = true)
      (hk : k ∈ (p.lookup n).interfaces) : Mentions p t k

theorem DeclaresInterface.mentions {t : TypeDecl} {i n : String} (hi : p.DeclaresInterface t i)
    (hn : p.ReachesInterface i n) : isReferenceName n = true ∧ p.Mentions t n := by
  obtain ⟨href, c, hc, hmem⟩ := hi
  induction hn with
  | refl => exact ⟨href, .declared hc hmem⟩
  | tail _ hstep ih => exact ⟨hstep.1, .extended ih.2 ih.1 hstep.2⟩

end Program

namespace View

variable {v : View}

/-! ## Looking names up -/

theorem resolve_some_yields (v : View) (name : String) :
    Yields (v.resolve (some name))
      (fun t => name ∉ v.failing ∧
        t = if isReferenceName name then some (v.program.lookup name) else none)
      (fun e => e.name = name ∧ name ∈ v.failing) := by
  unfold resolve
  dsimp only
  split
  · rename_i hfailing
    exact Yields.throw ⟨rfl, List.contains_iff_mem.mp hfailing⟩
  · rename_i hfine
    refine Yields.lift ⟨fun hmem => hfine (List.contains_iff_mem.mpr hmem), ?_⟩
    unfold Program.resolve
    by_cases href : isReferenceName name = true
    · rw [Option.filter_some, if_pos href, if_pos href]
    · rw [Option.filter_some, if_neg href, if_neg href]

/-- Pushing names puts what they stand for on the stack, the last one on top. -/
theorem push_yields (v : View) (names : List String) (stack : List TypeDecl) :
    Yields (names.foldlM (Interfaces.push v.resolve) stack)
      (fun after => after = ((names.filter isReferenceName).map v.program.lookup).reverse ++ stack)
      (fun e => e.name ∈ v.failing ∧ e.name ∈ names) := by
  refine Yields.foldlM (d := []) (P := fun done after =>
    after = ((done.filter isReferenceName).map v.program.lookup).reverse ++ stack) ?_ rfl
  intro done after name hname hafter
  refine ((v.resolve_some_yields name).imp (fun _ h => h.2)
    fun e h => ⟨h.1 ▸ h.2, h.1 ▸ hname⟩).bind fun t ht => Yields.pure ?_
  rw [ht, hafter, List.filter_append, List.map_append, List.reverse_append]
  by_cases href : isReferenceName name = true
  · rw [if_pos href, List.filter_cons_of_pos href]
    rfl
  · rw [if_neg href, List.filter_cons_of_neg href]
    rfl

/-! ## The interfaces of a type -/

/-- What is found when the names in `done` were looked up. -/
structure Found (v : View) (done : List String) (found : List TypeDecl) : Prop where
  fine : ∀ n ∈ done, n ∉ v.failing
  mem_iff : ∀ i, i ∈ found ↔ ∃ n ∈ done, isReferenceName n = true ∧ i = v.program.lookup n

theorem found_nil (v : View) : Found v [] [] :=
  ⟨fun _ hn => absurd hn List.not_mem_nil, fun i => by simp⟩

/-- One more name adds the type that it stands for, if it stands for one. -/
theorem Found.concat {done : List String} {found after : List TypeDecl} {name : String}
    (h : Found v done found) (hfine : name ∉ v.failing)
    (hafter : ∀ i, i ∈ after ↔
      i ∈ found ∨ isReferenceName name = true ∧ i = v.program.lookup name) :
    Found v (done ++ [name]) after := by
  refine ⟨fun n hn => ?_, fun i => ?_⟩
  · rcases List.mem_append.mp hn with hn | hn
    · exact h.fine n hn
    · exact List.mem_singleton.mp hn ▸ hfine
  · rw [hafter i, h.mem_iff i]
    simp only [List.mem_append, List.mem_singleton]
    constructor
    · rintro (⟨n, hn, hi⟩ | hi)
      · exact ⟨n, Or.inl hn, hi⟩
      · exact ⟨name, Or.inr rfl, hi⟩
    · rintro ⟨n, hn | rfl, hi⟩
      · exact Or.inl ⟨n, hn, hi⟩
      · exact Or.inr hi

theorem add_yields {done : List String} {found : List TypeDecl} (h : Found v done found)
    (name : String) :
    Yields (Interfaces.add v.resolve found name) (Found v (done ++ [name]))
      (fun e => e.name = name ∧ name ∈ v.failing) := by
  unfold Interfaces.add
  split
  · rename_i hany
    obtain ⟨i, hi, hname⟩ := List.any_eq_true.mp hany
    obtain ⟨n, hn, _, rfl⟩ := (h.mem_iff i).mp hi
    rw [beq_iff_eq, Program.lookup_name] at hname
    subst hname
    -- The name was looked up before, so what it stands for is there.
    refine Yields.pure (h.concat (h.fine n hn) fun i => ⟨Or.inl, ?_⟩)
    rintro (hfound | ⟨_, rfl⟩)
    · exact hfound
    · exact hi
  · refine (v.resolve_some_yields name).bind fun t ht => ?_
    obtain ⟨hfine, rfl⟩ := ht
    refine Yields.pure (h.concat hfine fun i => ?_)
    by_cases href : isReferenceName name = true
    · rw [if_pos href, Option.toList_some, List.mem_append, List.mem_singleton]
      simp only [href, true_and]
    · rw [if_neg href, Option.toList_none, List.append_nil]
      simp only [href, Bool.false_eq_true, false_and, or_false]

theorem interfacesOn_yields (visits : List Visit) {done : List String} {found : List TypeDecl}
    (h : Found v done found) :
    Yields (v.interfacesOn found visits)
      (Found v (done ++ visits.flatMap fun visit => visit.type.interfaces))
      (fun e => e.name ∈ v.failing ∧ e.name ∈ visits.flatMap fun visit => visit.type.interfaces) := by
  induction visits generalizing done found with
  | nil => exact Yields.pure (by rwa [List.flatMap_nil, List.append_nil])
  | cons visit visits ih =>
    rw [List.flatMap_cons, ← List.append_assoc]
    have hfold := Yields.foldlM (P := Found v) (f := Interfaces.add v.resolve)
      (l := visit.type.interfaces)
      (E := fun e => e.name ∈ v.failing ∧ e.name ∈ visit.type.interfaces ++
        visits.flatMap fun visit => visit.type.interfaces)
      (fun done found name hname hfound => (add_yields hfound name).imp (fun _ h => h)
        fun e he => ⟨he.1 ▸ he.2, List.mem_append_left _ (he.1 ▸ hname)⟩) h
    refine hfold.bind fun found hfound => ?_
    refine Yields.bind (P := fun _ => True) (Yields.lift trivial) fun _ _ => ?_
    exact (ih hfound).imp (fun _ h => h) fun e he => ⟨he.1, List.mem_append_right _ he.2⟩

theorem mem_chain_interfaces {p : Program} {t : TypeDecl} (ht : p.lookup t.name = t) {n : String} :
    n ∈ (p.chain t).flatMap (fun visit => visit.type.interfaces) ↔
      ∃ c, p.OnChain t c ∧ n ∈ c.interfaces := by
  simp only [List.mem_flatMap, ← Program.mem_chain_iff ht, List.mem_map]
  constructor
  · rintro ⟨visit, hvisit, hn⟩
    exact ⟨visit.type, ⟨visit, hvisit, rfl⟩, hn⟩
  · rintro ⟨_, ⟨visit, hvisit, rfl⟩, hn⟩
    exact ⟨visit, hvisit, hn⟩

/-- The interfaces found are those declared by the type and the classes above it, and none of these
    names fails; otherwise one of them does. -/
theorem interfaces_yields {t : TypeDecl} (ht : v.program.lookup t.name = t) :
    Yields (v.interfaces t)
      (fun found =>
        (∀ i, i ∈ found ↔ ∃ n, v.program.DeclaresInterface t n ∧ i = v.program.lookup n) ∧
          ∀ c, v.program.OnChain t c → ∀ n ∈ c.interfaces, n ∉ v.failing)
      (fun e => e.name ∈ v.failing ∧ v.program.Mentions t e.name) := by
  refine (interfacesOn_yields (v.program.chain t) (found_nil v)).imp ?_ ?_
  · intro found h
    refine ⟨fun i => ?_, fun c hc n hn => h.fine n ?_⟩
    · rw [h.mem_iff i]
      constructor
      · rintro ⟨n, hn, href, hi⟩
        exact ⟨n, ⟨href, (mem_chain_interfaces ht).mp hn⟩, hi⟩
      · rintro ⟨n, ⟨href, hn⟩, hi⟩
        exact ⟨n, (mem_chain_interfaces ht).mpr hn, href, hi⟩
    · exact (mem_chain_interfaces ht).mpr ⟨c, hc, hn⟩
  · rintro e ⟨hfailing, hname⟩
    obtain ⟨c, hc, hn⟩ := (mem_chain_interfaces ht).mp hname
    exact ⟨hfailing, .declared hc hn⟩

/-! ## The marker -/

/-- The stack holds types that their names stand for, and what follows from an interface that was
    seen was seen or is on the stack. -/
structure Covers (p : Program) (marker : Option String) (seen : List String)
    (stack : List TypeDecl) : Prop where
  known : ∀ t ∈ stack, p.lookup t.name = t
  apart : ∀ n ∈ seen, some n ≠ marker
  closed : ∀ n ∈ seen, ∀ k, p.InterfaceStep n k → k ∈ seen ∨ ∃ t ∈ stack, t.name = k

theorem Covers.exists_reaches {p : Program} {marker : Option String} {seen : List String}
    {stack : List TypeDecl} (h : Covers p marker seen stack) {n : String} (hn : n ∈ seen)
    (hreach : p.ReachesMarker n marker) : ∃ t ∈ stack, p.ReachesMarker t.name marker := by
  obtain ⟨name, hmarker, hpath⟩ := hreach
  -- The path starts among the seen names and ends outside; it leaves them over the stack.
  induction hpath using Relation.ReflTransGen.head_induction_on with
  | refl => exact absurd hmarker.symm (h.apart name hn)
  | head hstep hrest ih =>
    rcases h.closed _ hn _ hstep with hk | ⟨t, ht, rfl⟩
    · exact ih hk
    · exact ⟨t, ht, name, hmarker, hrest⟩

/-- What was seen need not be on the stack. -/
theorem Covers.exists_reaches_of_cons {p : Program} {marker : Option String} {seen : List String}
    {t : TypeDecl} {l stack : List TypeDecl} (h : Covers p marker seen (l ++ stack))
    (ht : t.name ∈ seen) (hreach : ∃ u ∈ t :: stack, p.ReachesMarker u.name marker) :
    ∃ u ∈ l ++ stack, p.ReachesMarker u.name marker := by
  obtain ⟨u, hu, hreach⟩ := hreach
  rcases List.mem_cons.mp hu with rfl | hu
  · exact h.exists_reaches ht hreach
  · exact ⟨u, List.mem_append_right l hu, hreach⟩

theorem Covers.skip {p : Program} {marker : Option String} {seen : List String} {t : TypeDecl}
    {stack : List TypeDecl} (h : Covers p marker seen (t :: stack)) (ht : t.name ∈ seen) :
    Covers p marker seen stack := by
  refine ⟨fun u hu => h.known u (List.mem_cons_of_mem t hu), h.apart, fun n hn k hstep => ?_⟩
  rcases h.closed n hn k hstep with hk | ⟨u, hu, rfl⟩
  · exact Or.inl hk
  · rcases List.mem_cons.mp hu with rfl | hu
    · exact Or.inl ht
    · exact Or.inr ⟨u, hu, rfl⟩

/-- The interfaces that are pushed when `t` is visited. -/
def pushed (p : Program) (seen : List String) (t : TypeDecl) : List TypeDecl :=
  ((t.interfaces.filter fun n => !(t.name :: seen).contains n).filter isReferenceName).map p.lookup

theorem mem_pushed {p : Program} {seen : List String} {t u : TypeDecl} :
    u ∈ pushed p seen t ↔ ∃ n ∈ t.interfaces, n ∉ t.name :: seen ∧ isReferenceName n = true ∧
      u = p.lookup n := by
  unfold pushed
  simp only [List.mem_map, List.mem_filter, Bool.not_eq_true', List.contains_eq_mem,
    decide_eq_false_iff_not]
  constructor
  · rintro ⟨n, ⟨⟨hn, hnew⟩, href⟩, rfl⟩
    exact ⟨n, hn, hnew, href, rfl⟩
  · rintro ⟨n, hn, hnew, href, rfl⟩
    exact ⟨n, ⟨⟨hn, hnew⟩, href⟩, rfl⟩

/-- What can be reached after `t` was visited could be reached before. -/
theorem exists_reaches_of_pushed {p : Program} {seen : List String} {t u : TypeDecl}
    {stack : List TypeDecl} {n : String} (ht : p.lookup t.name = t)
    (hu : u ∈ (pushed p seen t).reverse ++ stack) (hreach : p.ReachesInterface u.name n) :
    ∃ w ∈ t :: stack, p.ReachesInterface w.name n := by
  rcases List.mem_append.mp hu with hu | hu
  · obtain ⟨k, hk, _, href, rfl⟩ := mem_pushed.mp (List.mem_reverse.mp hu)
    rw [Program.lookup_name] at hreach
    exact ⟨t, List.mem_cons_self, .head ⟨href, ht.symm ▸ hk⟩ hreach⟩
  · exact ⟨u, List.mem_cons_of_mem t hu, hreach⟩

theorem Covers.visit {p : Program} {marker : Option String} {seen : List String} {t : TypeDecl}
    {stack : List TypeDecl} (h : Covers p marker seen (t :: stack)) (hm : some t.name ≠ marker) :
    Covers p marker (t.name :: seen) ((pushed p seen t).reverse ++ stack) := by
  refine ⟨fun u hu => ?_, ?_, fun n hn k hstep => ?_⟩
  · rcases List.mem_append.mp hu with hu | hu
    · obtain ⟨n, _, _, _, rfl⟩ := mem_pushed.mp (List.mem_reverse.mp hu)
      exact p.lookup_lookup n
    · exact h.known u (List.mem_cons_of_mem t hu)
  · exact List.forall_mem_cons.mpr ⟨hm, h.apart⟩
  · by_cases hk : k ∈ t.name :: seen
    · exact Or.inl hk
    · refine Or.inr ?_
      rcases List.mem_cons.mp hn with rfl | hn
      · have hki : k ∈ t.interfaces := h.known t List.mem_cons_self ▸ hstep.2
        refine ⟨p.lookup k, List.mem_append_left _ (List.mem_reverse.mpr ?_), p.lookup_name k⟩
        exact mem_pushed.mpr ⟨k, hki, hk, hstep.1, rfl⟩
      · rcases h.closed n hn k hstep with hseen | ⟨u, hu, rfl⟩
        · exact absurd (List.mem_cons_of_mem _ hseen) hk
        · rcases List.mem_cons.mp hu with rfl | hu
          · exact absurd List.mem_cons_self hk
          · exact ⟨u, List.mem_append_right _ hu, rfl⟩

/-- The number of interfaces that types not yet seen can push. -/
def toPush (p : Program) (seen : List String) : Nat :=
  ((p.remaining seen).flatMap TypeDecl.interfaces).length

theorem length_pushed_le {p : Program} {seen : List String} {t : TypeDecl}
    (ht : p.lookup t.name = t) (hnew : t.name ∉ seen) :
    (pushed p seen t).length + toPush p (t.name :: seen) ≤ toPush p seen := by
  have hpushed : (pushed p seen t).length ≤ t.interfaces.length := by
    unfold pushed
    rw [List.length_map]
    exact Nat.le_trans (List.length_filter_le _ _) (List.length_filter_le _ _)
  rcases Program.declared_or_phantom ht with hmem | hphantom
  · have := Program.length_flatMap_remaining TypeDecl.interfaces hmem hnew
    unfold toPush
    omega
  · -- A phantom extends nothing.
    have hnone : t.interfaces.length = 0 := by rw [hphantom]; rfl
    have hsub : (p.remaining (t.name :: seen)).Sublist (p.remaining seen) := by
      unfold Program.remaining
      refine List.monotone_filter_right _ fun u hu => ?_
      rw [List.contains_cons, Bool.not_or, Bool.and_eq_true] at hu
      exact hu.2
    have := (hsub.flatMap TypeDecl.interfaces).length_le
    unfold toPush
    omega

/-- The search from a stack finds the marker exactly if it can be reached from the stack. It fails
    only at a name that an interface in reach extends. -/
theorem extendsFrom_yields (v : View) (marker : Option String) {fuel : Nat} {seen : List String}
    {stack : List TypeDecl} (h : Covers v.program marker seen stack)
    (hfuel : stack.length + toPush v.program seen ≤ fuel) :
    Yields (Interfaces.extendsFrom v.resolve marker fuel seen stack)
      (fun found => found = true ↔ ∃ t ∈ stack, v.program.ReachesMarker t.name marker)
      (fun e => e.name ∈ v.failing ∧ ∃ t ∈ stack, ∃ n, v.program.ReachesInterface t.name n ∧
        e.name ∈ (v.program.lookup n).interfaces) := by
  induction fuel generalizing seen stack with
  | zero =>
    have hempty : stack = [] := List.eq_nil_of_length_eq_zero (by omega)
    subst hempty
    exact Yields.pure (by simp)
  | succ fuel ih =>
    cases stack with
    | nil => exact Yields.pure (by simp)
    | cons t stack =>
      rw [List.length_cons] at hfuel
      have hknown := h.known t List.mem_cons_self
      unfold Interfaces.extendsFrom
      split
      · rename_i hmarker
        exact Yields.pure (iff_of_true rfl
          ⟨t, List.mem_cons_self, t.name, (beq_iff_eq.mp hmarker).symm, .refl⟩)
      · rename_i hmarker
        split
        · rename_i hseen
          have hmem := List.contains_iff_mem.mp hseen
          have hcovers := h.skip hmem
          refine (ih hcovers (by omega)).imp (fun found hfound => hfound.trans
            ⟨?_, Covers.exists_reaches_of_cons (l := []) hcovers hmem⟩) ?_
          · rintro ⟨u, hu, hreach⟩
            exact ⟨u, List.mem_cons_of_mem t hu, hreach⟩
          · rintro e ⟨hfailing, u, hu, hreach⟩
            exact ⟨hfailing, u, List.mem_cons_of_mem t hu, hreach⟩
        · rename_i hseen
          have hnew : t.name ∉ seen := fun hmem => hseen (List.contains_iff_mem.mpr hmem)
          have hcovers := h.visit fun hm => hmarker (beq_iff_eq.mpr hm)
          have hlen := length_pushed_le hknown hnew
          refine Yields.bind ((v.push_yields _ stack).imp (fun _ h => h) fun e he => ?_)
            fun after hafter => ?_
          · have hname := (List.mem_filter.mp he.2).1
            exact ⟨he.1, t, List.mem_cons_self, t.name, .refl, hknown.symm ▸ hname⟩
          · subst hafter
            refine (ih hcovers (by rw [List.length_append, List.length_reverse]; omega)).imp
              (fun found hfound => hfound.trans
                ⟨?_, hcovers.exists_reaches_of_cons List.mem_cons_self⟩) ?_
            · rintro ⟨u, hu, name, hname, hpath⟩
              obtain ⟨w, hw, hpath⟩ := exists_reaches_of_pushed hknown hu hpath
              exact ⟨w, hw, name, hname, hpath⟩
            · rintro e ⟨hfailing, u, hu, n, hreach, hname⟩
              obtain ⟨w, hw, hreach⟩ := exists_reaches_of_pushed hknown hu hreach
              exact ⟨hfailing, w, hw, n, hreach, hname⟩

theorem extendsMarker_yields {i : TypeDecl} (hi : v.program.lookup i.name = i)
    (marker : Option String) :
    Yields (v.extendsMarker i marker)
      (fun found => found = true ↔ v.program.ReachesMarker i.name marker)
      (fun e => e.name ∈ v.failing ∧ ∃ n, v.program.ReachesInterface i.name n ∧
        e.name ∈ (v.program.lookup n).interfaces) := by
  have hcovers : Covers v.program marker [] [i] :=
    ⟨fun t ht => List.mem_singleton.mp ht ▸ hi, fun n hn => absurd hn List.not_mem_nil,
      fun n hn => absurd hn List.not_mem_nil⟩
  have hfuel : [i].length + toPush v.program [] ≤ v.program.parentCount i + 1 := by
    have hsub := (List.Sublist.flatMap_right v.program.types fun t _ =>
      List.sublist_append_right (present? t.superclass).toList t.interfaces).length_le
    unfold toPush Program.parentCount TypeDecl.parents
    rw [Program.remaining_nil, List.flatMap_cons, List.length_append, List.length_singleton]
    omega
  unfold extendsMarker
  simpa only [List.mem_singleton, exists_eq_left] using extendsFrom_yields v marker hcovers hfuel

/-! ## Remote methods -/

theorem addImplementations_yields {service : TypeDecl}
    (hs : v.program.lookup service.name = service) {E : Unresolvable → Prop}
    (methods : List Method) {found : List Method} {S : Method → Prop} (h : Method.Lists found S) :
    Yields (v.addImplementations service found methods)
      (fun found => Method.Lists found fun m =>
        S m ∨ ∃ k ∈ methods, v.program.Implements k.subsignature service m) E := by
  induction methods generalizing found S with
  | nil => exact Yields.pure (h.congr fun m => by simp)
  | cons k methods ih =>
    refine Yields.bind (P := fun i =>
        ∀ m, i = some m ↔ v.program.Implements k.subsignature service m)
      (Yields.lift fun m => Program.implementation?_eq_some_iff hs) fun i hi => ?_
    cases i with
    | none =>
      refine (ih h).imp (fun found hfound => hfound.congr fun m => ?_) fun _ he => he
      have hnone := (hi m).not.mp (by simp)
      simp only [List.mem_cons, exists_eq_or_imp, hnone, false_or]
    | some n =>
      refine (ih (h.insertNew n)).imp (fun found hfound => hfound.congr fun m => ?_) fun _ he => he
      have hsome : m = n ↔ v.program.Implements k.subsignature service m := by
        rw [← hi m, Option.some.injEq, eq_comm]
      simp only [List.mem_cons, exists_eq_or_imp, hsome, or_assoc]

theorem addRemote_yields {service : TypeDecl} (hs : v.program.lookup service.name = service)
    (marker : Option String) (interfaces : List TypeDecl)
    (hi : ∀ i ∈ interfaces, ∃ n, v.program.DeclaresInterface service n ∧ i = v.program.lookup n)
    {found : List Method} {S : Method → Prop} (h : Method.Lists found S) :
    Yields (v.addRemote service marker found interfaces)
      (fun found => Method.Lists found fun m => S m ∨ ∃ i ∈ interfaces,
        v.program.ReachesMarker i.name marker ∧
          ∃ k ∈ i.methods, v.program.Implements k.subsignature service m)
      (fun e => e.name ∈ v.failing ∧ v.program.Mentions service e.name) := by
  induction interfaces generalizing found S with
  | nil => exact Yields.pure (h.congr fun m => by simp)
  | cons i interfaces ih =>
    have hothers : ∀ j ∈ interfaces, ∃ n, v.program.DeclaresInterface service n ∧
        j = v.program.lookup n := fun j hj => hi j (List.mem_cons_of_mem i hj)
    obtain ⟨n, hn, rfl⟩ := hi i List.mem_cons_self
    refine Yields.bind ((extendsMarker_yields (v.program.lookup_lookup n) marker).imp
      (fun _ h => h) fun e he => ?_) fun remote hremote => ?_
    · obtain ⟨hfailing, k, hreach, hname⟩ := he
      rw [Program.lookup_name] at hreach
      have hmentions := hn.mentions hreach
      exact ⟨hfailing, .extended hmentions.2 hmentions.1 hname⟩
    · split
      · rename_i htrue
        refine (addImplementations_yields hs _ h).bind fun found hfound => ?_
        refine (ih hothers hfound).imp (fun found hfound => hfound.congr fun m => ?_) fun _ he => he
        simp only [List.mem_cons, exists_eq_or_imp, hremote.mp htrue, true_and, or_assoc]
      · rename_i hfalse
        refine (ih hothers h).imp (fun found hfound => hfound.congr fun m => ?_) fun _ he => he
        simp only [List.mem_cons, exists_eq_or_imp, mt hremote.mpr hfalse, false_and, false_or]

/-- If the search for the remote methods of a service answers, it lists exactly these, none without
    a marker, and no interface declared on the superclass chain fails; if it does not, a failing
    name is among the interfaces that the service mentions. -/
theorem remoteMethods_yields {service : TypeDecl}
    (hs : v.program.lookup service.name = service) (marker : Option String) :
    Yields (v.remoteMethods service marker)
      (fun found => Method.Lists found
          (fun m => ∃ name, marker = some name ∧ v.program.RemoteMethod name service m) ∧
        ∀ c, v.program.OnChain service c → ∀ n ∈ c.interfaces, n ∉ v.failing)
      (fun e => e.name ∈ v.failing ∧ v.program.Mentions service e.name) := by
  refine (interfaces_yields hs).bind fun interfaces hinterfaces => ?_
  obtain ⟨hmem, hfine⟩ := hinterfaces
  refine (addRemote_yields hs marker interfaces (fun i hi => (hmem i).mp hi)
    (Method.lists_nil (S := fun _ => False) fun _ h => h)).imp (fun found hfound => ⟨?_, hfine⟩)
    fun _ he => he
  refine hfound.congr fun m => ?_
  unfold Program.RemoteMethod
  constructor
  · rintro (hnone | ⟨i, hi, hreach, hm⟩)
    · exact hnone.elim
    · obtain ⟨n, hn, rfl⟩ := (hmem i).mp hi
      obtain ⟨name, hmarker, hpath⟩ := hreach
      rw [Program.lookup_name] at hpath
      exact ⟨name, hmarker, n, hn, hpath, hm⟩
  · rintro ⟨name, hmarker, n, hn, hpath, hm⟩
    refine Or.inr ⟨v.program.lookup n, (hmem _).mpr ⟨n, hn, rfl⟩, ⟨name, hmarker, ?_⟩, hm⟩
    rwa [Program.lookup_name]

end View
end ServiceReach
