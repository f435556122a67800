import ServiceReach.Proofs.Model.Distance
import ServiceReach.Proofs.Model.Overload
import ServiceReach.Proofs.Model.Remote
import ServiceReach.Proofs.Model.Store

/-
  The walks over the hierarchy end and are exact. The hierarchy may be cyclic and of any depth. A
  walk is run for a number of rounds, and it ends if more rounds bring nothing more (`EndsWith`):
  what it answers when the rounds are used up never decides. The superclass chain takes each
  superclass up to the first name that repeats (`IsChain`), the supertypes are the types in reach,
  nearer ones first (`IsSupertypes`), the interfaces are those declared along the chain
  (`IsInterfaces`), and the search for a marker answers whether steps to interfaces lead there. All
  this holds in a store after any history, for the declared types and for phantoms, of names that
  were declared later, too (`walks_after_history`).
-/

namespace ServiceReach

open Trail

namespace Program

variable {p : Program} {t : TypeDecl}

/-- The program can have handed the type out: it is declared, or the phantom of some name. -/
def Offers (p : Program) (t : TypeDecl) : Prop :=
  t ∈ p.types ∨ t = .phantom t.name

theorem offers_lookup (p : Program) (name : String) : p.Offers (p.lookup name) :=
  declared_or_phantom (p.lookup_lookup name)

theorem lookup_injective (p : Program) : Function.Injective p.lookup := by
  intro a b h
  have hname := congrArg TypeDecl.name h
  rwa [lookup_name, lookup_name] at hname

theorem names_map_lookup (p : Program) (names : List String) :
    (names.map p.lookup).map TypeDecl.name = names := by
  have hid : TypeDecl.name ∘ p.lookup = id := by
    funext n
    exact p.lookup_name n
  rw [List.map_map, hid, List.map_id]

/-! ## The superclass chain -/

/-- The list is the superclass chain from `t` on: each class is followed by its superclass, no name
    repeats, and the list stops only at a class without a superclass, or before a superclass with a
    name that is in the list or in `seen`. -/
structure IsChain (p : Program) (seen : List String) (t : TypeDecl) (l : List TypeDecl) : Prop where
  first : l.head? = some t
  steps : l.IsChain p.Superclass
  nodup : (l.map TypeDecl.name).Nodup
  apart : ∀ c ∈ l, c.name ∉ seen
  last : ∀ c, l.getLast? = some c → ∀ d, p.Superclass c d →
    d.name ∈ seen ∨ d.name ∈ l.map TypeDecl.name

theorem Offers.mem_of_superclass {name : String} (ht : p.Offers t)
    (h : present? t.superclass = some name) : t ∈ p.types := by
  rcases ht with hmem | hphantom
  · exact hmem
  · rw [hphantom] at h
    cases h

theorem isChain_singleton {seen : List String} (hnew : t.name ∉ seen)
    (hlast : ∀ d, p.Superclass t d → d.name ∈ t.name :: seen) : p.IsChain seen t [t] := by
  refine ⟨rfl, .singleton t, List.nodup_singleton _, fun c hc => ?_, fun c hc d hd => ?_⟩
  · rw [List.mem_singleton.mp hc]
    exact hnew
  · cases hc
    rcases List.mem_cons.mp (hlast d hd) with hself | hseen
    · exact Or.inr (hself ▸ List.mem_singleton_self _)
    · exact Or.inl hseen

theorem IsChain.cons {seen : List String} {u : TypeDecl} {l : List TypeDecl}
    (h : p.IsChain (t.name :: seen) u l) (hu : p.Superclass t u) (hnew : t.name ∉ seen) :
    p.IsChain seen t (t :: l) := by
  obtain ⟨rest, rfl⟩ := List.head?_eq_some_iff.mp h.first
  refine ⟨rfl, .cons_cons hu h.steps, ?_, ?_, fun c hc d hd => ?_⟩
  · rw [List.map_cons, List.nodup_cons]
    refine ⟨fun hmem => ?_, h.nodup⟩
    obtain ⟨c, hc, hname⟩ := List.mem_map.mp hmem
    exact h.apart c hc (hname ▸ List.mem_cons_self)
  · intro c hc
    rcases List.mem_cons.mp hc with rfl | hc
    · exact hnew
    · exact fun hseen => h.apart c hc (List.mem_cons_of_mem _ hseen)
  · rw [List.getLast?_cons_cons] at hc
    rw [List.map_cons]
    rcases h.last c hc d hd with hseen | hlist
    · rcases List.mem_cons.mp hseen with hself | hseen
      · exact Or.inr (hself ▸ List.mem_cons_self)
      · exact Or.inl hseen
    · exact Or.inr (List.mem_cons_of_mem _ hlist)

theorem isChain_chainFrom {fuel : Nat} {seen : List String} (ht : p.Offers t)
    (hnew : t.name ∉ seen) (hfuel : (p.remaining seen).length < fuel) :
    p.IsChain seen t ((p.chainFrom fuel seen t).map Visit.type) := by
  induction fuel generalizing seen t with
  | zero => omega
  | succ fuel ih =>
    rw [chainFrom, if_neg (by simpa using hnew)]
    split
    · rename_i hnone
      refine isChain_singleton hnew fun d hd => ?_
      obtain ⟨name, hsuper, href, _⟩ := hd
      rw [Option.filter_eq_some_iff.mpr ⟨hsuper, href⟩] at hnone
      cases hnone
    · rename_i parent hparent
      obtain ⟨hsuper, href⟩ := Option.filter_eq_some_iff.mp hparent
      by_cases hmet : parent ∈ t.name :: seen
      · rw [chainFrom_of_mem hmet]
        refine isChain_singleton hnew fun d hd => ?_
        obtain ⟨name, hname, _, rfl⟩ := hd
        rwa [lookup_name, Option.some.inj (hname.symm.trans hsuper)]
      · have hless := length_remaining_lt (ht.mem_of_superclass hsuper) hnew
        have hrest := ih (p.offers_lookup parent) (by rwa [lookup_name]) (by omega)
        exact hrest.cons ⟨parent, hsuper, href, rfl⟩ hnew

/-- More rounds than there are types that remain add nothing to the chain. -/
theorem chainFrom_of_le {fuel fuel' : Nat} {seen : List String} (ht : p.Offers t)
    (hfuel : (p.remaining seen).length < fuel) (hle : fuel ≤ fuel') :
    p.chainFrom fuel' seen t = p.chainFrom fuel seen t := by
  induction fuel generalizing seen t fuel' with
  | zero => omega
  | succ fuel ih =>
    obtain ⟨more, rfl⟩ := Nat.exists_eq_add_of_le hle
    rw [Nat.add_right_comm, chainFrom, chainFrom]
    by_cases hseen : t.name ∈ seen
    · rw [if_pos (List.contains_iff_mem.mpr hseen), if_pos (List.contains_iff_mem.mpr hseen)]
    · rw [if_neg (by simpa using hseen), if_neg (by simpa using hseen)]
      split
      · rfl
      · rename_i parent hparent
        obtain ⟨hsuper, _⟩ := Option.filter_eq_some_iff.mp hparent
        have hless := length_remaining_lt (ht.mem_of_superclass hsuper) hseen
        rw [ih (p.offers_lookup parent) (by omega) (by omega)]

theorem isChain_chain (ht : p.Offers t) : p.IsChain [] t ((p.chain t).map Visit.type) := by
  refine isChain_chainFrom ht List.not_mem_nil ?_
  rw [remaining_nil]
  omega

/-! ## Supertypes -/

/-- The types that the parents of a type stand for. -/
def parentTypes (p : Program) (t : TypeDecl) : List TypeDecl :=
  t.supers.map p.lookup

/-- The list holds the types that steps to parents lead to from `t`, each name once, and none that
    is farther away than one behind it. -/
structure IsSupertypes (p : Program) (t : TypeDecl) (l : List TypeDecl) : Prop where
  mem_iff : ∀ u, u ∈ l ↔ Search.Reaches p.parentTypes t u
  nodup : (l.map TypeDecl.name).Nodup
  outward : l.Pairwise (Search.NoFarther p.parentTypes t)

theorem parentTypes_lookup (p : Program) (n : String) :
    p.parentTypes (p.lookup n) = (p.supersOf n).map p.lookup := rfl

theorem isSupertypes_lookup (p : Program) (r : String) :
    p.IsSupertypes (p.lookup r) ((p.supertypes (p.lookup r)).map Visit.type) := by
  rw [types_supertypes]
  refine ⟨fun u => ?_, ?_, ?_⟩
  · rw [Search.reaches_map p.parentTypes_lookup, List.mem_map]
    simp only [mem_above_iff, eq_comm (a := u)]
  · rw [names_map_lookup]
    exact Search.nodup_reached _ _ _
  · rw [List.pairwise_map]
    exact (Search.reached_outward _ _ _).imp fun h => h.map p.parentTypes_lookup p.lookup_injective

theorem typeOn_self (p : Program) (t : TypeDecl) : p.typeOn t t.name = t := by
  rw [typeOn, if_pos (by simp)]

theorem supers_of_phantom (h : t = .phantom t.name) : t.supers = [] := by
  rw [h]
  rfl

/-- From a type without parents the walk visits that type only. -/
theorem visits_of_supers_nil (ht : t.supers = []) (rounds : Nat) :
    Search.visits (fun n => (p.typeOn t n).supers) (rounds + 1) t.name = [(t.name, [])] := by
  refine Search.visits_of_next_nil ?_ rounds
  rw [typeOn_self, ht]

theorem isSupertypes_supertypes (ht : p.Offers t) :
    p.IsSupertypes t ((p.supertypes t).map Visit.type) := by
  rcases ht with hmem | hphantom
  · rw [← lookup_of_mem hmem]
    exact p.isSupertypes_lookup t.name
  · have hsupers := supers_of_phantom hphantom
    have hnext : p.parentTypes t = [] := by
      rw [parentTypes, hsupers, List.map_nil]
    have hself : (p.supertypes t).map Visit.type = [t] := by
      unfold supertypes
      rw [visits_of_supers_nil hsupers]
      show [p.typeOn t t.name] = [t]
      rw [typeOn_self]
    rw [hself]
    refine ⟨fun u => ?_, List.nodup_singleton _, List.pairwise_singleton _ t⟩
    rw [Search.reaches_of_next_nil hnext, List.mem_singleton]

/-- More rounds than there are names of parents bring no more supertypes. -/
theorem visits_supertypes_of_le (ht : p.Offers t) {rounds : Nat}
    (hle : p.parentCount t + 1 ≤ rounds) :
    Search.visits (fun n => (p.typeOn t n).supers) rounds t.name =
      Search.visits (fun n => (p.typeOn t n).supers) (p.parentCount t + 1) t.name := by
  rcases ht with hmem | hphantom
  · have hlookup := lookup_of_mem hmem
    have hnext : (fun n => (p.typeOn t n).supers) = p.supersOf := by
      funext n
      rw [← hlookup, typeOn_lookup]
      rfl
    have hcount := p.length_namesAbove_le t.name
    rw [hlookup] at hcount
    rw [hnext]
    exact Search.visits_of_le (fun _ _ _ hk => supersOf_subset_namesAbove hk) hcount
      List.mem_cons_self hle
  · have hsupers := supers_of_phantom hphantom
    obtain ⟨more, rfl⟩ := Nat.exists_eq_add_of_le hle
    rw [Nat.add_right_comm, visits_of_supers_nil hsupers, visits_of_supers_nil hsupers]

/-! ## Interfaces -/

/-- The list holds what the interfaces declared in a list of classes stand for, each name once. -/
structure IsInterfaces (p : Program) (classes l : List TypeDecl) : Prop where
  mem_iff : ∀ i, i ∈ l ↔ ∃ c ∈ classes, ∃ n ∈ c.interfaces,
    isReferenceName n = true ∧ i = p.lookup n
  nodup : (l.map TypeDecl.name).Nodup

end Program

namespace View

variable {v : View}

theorem nodup_add {found : List TypeDecl} (h : (found.map TypeDecl.name).Nodup)
    (name : String) :
    Ensures (Interfaces.add v.resolve found name) fun found =>
      (found.map TypeDecl.name).Nodup := by
  unfold Interfaces.add
  split
  · exact Ensures.pure h
  · rename_i hany
    have hnew : name ∉ found.map TypeDecl.name := by
      intro hmem
      obtain ⟨t, ht, rfl⟩ := List.mem_map.mp hmem
      exact hany (List.any_eq_true.mpr ⟨t, ht, beq_self_eq_true t.name⟩)
    refine (v.resolve_some_yields name).ensures.bind fun t ht => ?_
    by_cases href : isReferenceName name = true
    · rw [ht.2, if_pos href]
      refine Ensures.pure ?_
      rw [Option.toList_some, List.map_append, List.map_singleton, Program.lookup_name]
      exact h.append (List.nodup_singleton name) (List.disjoint_singleton.mpr hnew)
    · rw [ht.2, if_neg href, Option.toList_none, List.append_nil]
      exact Ensures.pure h

theorem nodup_interfacesOn (visits : List Visit) {found : List TypeDecl}
    (h : (found.map TypeDecl.name).Nodup) :
    Ensures (v.interfacesOn found visits) fun found => (found.map TypeDecl.name).Nodup := by
  induction visits generalizing found with
  | nil => exact Ensures.pure h
  | cons visit visits ih =>
    refine (Ensures.foldlM (fun _ name hfound => nodup_add hfound name)
      visit.type.interfaces h).bind fun found hfound => ?_
    exact (Ensures.trivial _).bind fun _ _ => ih hfound

end View

/-! ## The marker -/

namespace Program

variable {p : Program} {t : TypeDecl}

/-- The types that the interfaces of a type stand for. -/
def interfaceTypes (p : Program) (t : TypeDecl) : List TypeDecl :=
  (t.interfaces.filter isReferenceName).map p.lookup

theorem reaches_interfaceTypes_iff (p : Program) (r marker : String) :
    (∃ i, Search.Reaches p.interfaceTypes (p.lookup r) i ∧ i.name = marker) ↔
      p.ReachesInterface r marker := by
  have hstep : ∀ a b, b ∈ (p.lookup a).interfaces.filter isReferenceName ↔ p.InterfaceStep a b := by
    intro a b
    rw [List.mem_filter, and_comm]
    rfl
  have hreach : ∀ n, Search.Reaches (fun a => (p.lookup a).interfaces.filter isReferenceName) r n ↔
      p.ReachesInterface r n := by
    intro n
    unfold Search.Reaches ReachesInterface
    simp only [hstep]
  have hmap := @Search.reaches_map _ _
    (fun a => (p.lookup a).interfaces.filter isReferenceName) r p.lookup p.interfaceTypes
    (fun _ => rfl)
  constructor
  · rintro ⟨i, hi, rfl⟩
    obtain ⟨n, hn, rfl⟩ := hmap.mp hi
    rw [lookup_name]
    exact (hreach n).mp hn
  · intro h
    exact ⟨p.lookup marker, hmap.mpr ⟨marker, (hreach marker).mpr h, rfl⟩, p.lookup_name marker⟩

/-- The types that the search for a marker takes off its stack, one in each round. -/
def sought (p : Program) (marker : String) : Nat → List String → List TypeDecl → List TypeDecl
  | 0, _, _ => []
  | _ + 1, _, [] => []
  | rounds + 1, seen, t :: stack =>
    t :: if t.name == marker then []
      else if seen.contains t.name then p.sought marker rounds seen stack
      else p.sought marker rounds (t.name :: seen) ((View.pushed p seen t).reverse ++ stack)

/-- In any number of rounds, the search finds the marker exactly if it takes it off the stack. -/
theorem extendsFrom_eq_any_sought (v : View) (marker : String) (rounds : Nat) (seen : List String)
    (stack : List TypeDecl) :
    Ensures (Interfaces.extendsFrom v.resolve (some marker) rounds seen stack)
      fun found => found = (v.program.sought marker rounds seen stack).any (·.name == marker) := by
  induction rounds generalizing seen stack with
  | zero => exact Ensures.pure rfl
  | succ rounds ih =>
    cases stack with
    | nil => exact Ensures.pure rfl
    | cons t stack =>
      unfold Interfaces.extendsFrom sought
      rw [List.any_cons, Option.some_beq_some]
      by_cases hmarker : (t.name == marker) = true
      · rw [if_pos hmarker, hmarker, Bool.true_or]
        exact Ensures.pure rfl
      · rw [if_neg hmarker, if_neg hmarker, Bool.eq_false_iff.mpr hmarker, Bool.false_or]
        by_cases hseen : seen.contains t.name = true
        · rw [if_pos hseen, if_pos hseen]
          exact ih seen stack
        · rw [if_neg hseen, if_neg hseen]
          refine (v.push_yields _ stack).ensures.bind fun after hafter => ?_
          rw [hafter]
          exact ih (t.name :: seen) _

theorem sought_nil (p : Program) (marker : String) (rounds : Nat) (seen : List String) :
    p.sought marker rounds seen [] = [] := by
  cases rounds with
  | zero => rfl
  | succ rounds => rfl

/-- The search ends by itself in as many rounds as there are types on the stack and interfaces to
    push. -/
theorem sought_of_le {marker : String} {rounds more : Nat} {seen : List String}
    {stack : List TypeDecl} (hknown : ∀ t ∈ stack, p.lookup t.name = t)
    (hrounds : stack.length + View.toPush p seen ≤ rounds) (hle : rounds ≤ more) :
    p.sought marker more seen stack = p.sought marker rounds seen stack := by
  induction rounds generalizing seen stack more with
  | zero =>
    obtain rfl : stack = [] := List.eq_nil_of_length_eq_zero (by omega)
    rw [sought_nil, sought_nil]
  | succ rounds ih =>
    obtain ⟨extra, rfl⟩ := Nat.exists_eq_add_of_le hle
    rw [Nat.add_right_comm]
    cases stack with
    | nil => rfl
    | cons t stack =>
      rw [List.length_cons] at hrounds
      have hrest : ∀ u ∈ stack, p.lookup u.name = u :=
        fun u hu => hknown u (List.mem_cons_of_mem t hu)
      rw [sought, sought]
      congr 2
      by_cases hseen : t.name ∈ seen
      · rw [if_pos (List.contains_iff_mem.mpr hseen), if_pos (List.contains_iff_mem.mpr hseen),
          ih hrest (by omega) (by omega)]
      · have hlen := View.length_pushed_le (hknown t List.mem_cons_self) hseen
        have hpushed : ∀ u ∈ (View.pushed p seen t).reverse ++ stack, p.lookup u.name = u := by
          intro u hu
          rcases List.mem_append.mp hu with hu | hu
          · obtain ⟨n, _, _, _, rfl⟩ := View.mem_pushed.mp (List.mem_reverse.mp hu)
            exact p.lookup_lookup n
          · exact hrest u hu
        rw [if_neg (by simpa using hseen), if_neg (by simpa using hseen),
          ih hpushed (by rw [List.length_append, List.length_reverse]; omega) (by omega)]

/-- From a phantom the search takes nothing but the phantom off its stack. -/
theorem sought_phantom (p : Program) (marker name : String) (rounds : Nat) :
    p.sought marker (rounds + 1) [] [.phantom name] = [.phantom name] := by
  have hpushed : View.pushed p [] (.phantom name) = [] := rfl
  rw [sought, hpushed, List.reverse_nil, List.nil_append, sought_nil, sought_nil, ite_self,
    ite_self]

end Program

/-! ## In a store -/

/-- From some number of rounds on, the result of a walk does not change any more. -/
def EndsWith {α : Type} (walk : Nat → α) (result : α) : Prop :=
  ∃ least, ∀ rounds, least ≤ rounds → walk rounds = result

namespace Store

variable {s : Store} {t : TypeDecl} {α β : Type}

theorem Performs.apply_eq {x y : Access α} {l : Lookup α} (hx : Performs s.program x l)
    (hy : Performs s.program y l) (hs : s.Sound) : x s = y s := by
  obtain ⟨a, ha, hx⟩ := hx
  obtain ⟨b, hb, hy⟩ := hy
  rw [ha] at hb
  cases hb
  rw [hx s hs rfl, hy s hs rfl]

theorem Performs.answer {x : Access α} {l : Lookup α} {Q : α → Prop}
    (hx : Performs s.program x l) (hl : Ensures l Q) (hs : s.Sound) : Q (x s).1 := by
  obtain ⟨a, ha, hx⟩ := hx
  rw [hx s hs rfl]
  exact hl a ha

/-- A walk up the superclass chain ends, whatever it does at each class. -/
theorem Sound.climb_ends (hs : s.Sound) (ht : s.program.Offers t)
    {visit : β → TypeDecl → Access (ForInStep β)} {look : β → TypeDecl → Lookup (ForInStep β)}
    (h : ∀ b t, Performs s.program (visit b t) (look b t)) (b : β) :
    EndsWith (fun rounds => climb visit rounds [] t b s) (alongChain visit t b s) := by
  refine ⟨s.program.types.length + 2, fun rounds hrounds => ?_⟩
  have hclimb : Performs s.program (climb visit rounds [] t b) _ :=
    climb_follows (performs s.program) h rounds [] t b
  rw [Program.chainFrom_of_le ht (by rw [Program.remaining_nil]; omega) hrounds] at hclimb
  exact hclimb.apply_eq (alongChain_follows (performs s.program) h t b) hs

theorem Sound.spread_ends (hs : s.Sound) (ht : s.program.Offers t)
    {visit : β → TypeDecl → Access (ForInStep β)} {look : β → TypeDecl → Lookup (ForInStep β)}
    (h : ∀ b t, Performs s.program (visit b t) (look b t)) (b : β) :
    EndsWith (fun rounds => spread visit rounds [t.name] [t] b s)
      (alongSupertypes visit t b s) := by
  refine ⟨s.program.parentCount t + 1, fun rounds hrounds => ?_⟩
  have hspread := spread_performs h t rounds [t.name] [t.name] (fun _ _ => Iff.rfl)
    List.mem_cons_self [t.name] b
  have hvisits := Program.visits_supertypes_of_le ht hrounds
  unfold Search.visits at hvisits
  rw [List.map_singleton, Program.typeOn_self, hvisits] at hspread
  exact hspread.apply_eq (alongSupertypes_performs h t b) hs

theorem Sound.chain (hs : s.Sound) (t : TypeDecl) :
    (chain t s).1 = (s.program.chain t).map Visit.type := by
  have h := performs_lift.mp (chain_performs s.program t) s hs rfl
  rw [h]
  rfl

theorem Sound.supertypes (hs : s.Sound) (t : TypeDecl) :
    (supertypes t s).1 = (s.program.supertypes t).map Visit.type := by
  have h := performs_lift.mp (supertypes_performs s.program t) s hs rfl
  rw [h]
  rfl

theorem Sound.isInterfaces (hs : s.Sound) (t : TypeDecl) :
    s.program.IsInterfaces (Store.chain t s).1 (interfaces t s).1 := by
  have hperforms := interfaces_performs s.program t
  have hfound := hperforms.answer (View.interfacesOn_yields _ (View.found_nil _)).ensures hs
  refine ⟨fun i => ?_, hperforms.answer (View.nodup_interfacesOn _ List.nodup_nil) hs⟩
  rw [hfound.mem_iff i, hs.chain]
  constructor
  · rintro ⟨n, hn, hi⟩
    obtain ⟨visit, hvisit, hn⟩ := List.mem_flatMap.mp hn
    exact ⟨visit.type, List.mem_map_of_mem hvisit, n, hn, hi⟩
  · rintro ⟨_, hc, n, hn, hi⟩
    obtain ⟨visit, hvisit, rfl⟩ := List.mem_map.mp hc
    exact ⟨n, List.mem_flatMap.mpr ⟨visit, hvisit, hn⟩, hi⟩

theorem Sound.extendsFrom (hs : s.Sound) (marker : String) (rounds : Nat) (seen : List String)
    (stack : List TypeDecl) :
    (Interfaces.extendsFrom resolve (some marker) rounds seen stack s).1 =
      (s.program.sought marker rounds seen stack).any (·.name == marker) :=
  Performs.answer (Interfaces.extendsFrom_rel (performs s.program).toSimulation
      (resolve_performs_view s.program) (some marker) rounds seen stack)
    (Program.extendsFrom_eq_any_sought _ marker rounds seen stack) hs

theorem Sound.extendsMarker_iff (hs : s.Sound) (ht : s.program.Offers t) (marker : String) :
    (extendsMarker t (some marker) s).1 = true ↔
      ∃ i, Search.Reaches s.program.interfaceTypes t i ∧ i.name = marker := by
  rcases ht with hmem | hphantom
  · have hlookup := Program.lookup_of_mem hmem
    have hanswer := (extendsMarker_performs s.program t (some marker)).answer
      (View.extendsMarker_yields hlookup (some marker)).ensures hs
    have hmarker : s.program.ReachesMarker t.name (some marker) ↔
        s.program.ReachesInterface t.name marker := by
      simp only [Program.ReachesMarker, Option.some.injEq, exists_eq_left']
    have hreach := s.program.reaches_interfaceTypes_iff t.name marker
    rw [hlookup] at hreach
    exact (hanswer.trans hmarker).trans hreach.symm
  · have hanswer : (extendsMarker t (some marker) s).1 = (t.name == marker) := by
      have hvalue := hs.extendsFrom marker (s.program.parentCount t + 1) [] [t]
      rw [hphantom, Program.sought_phantom, List.any_cons, List.any_nil, Bool.or_false] at hvalue
      rw [hphantom]
      exact hvalue
    have hnext : s.program.interfaceTypes t = [] := by
      rw [hphantom]
      rfl
    simp only [hanswer, Search.reaches_of_next_nil hnext, exists_eq_left, beq_iff_eq]

theorem sought_ends {p : Program} (ht : p.Offers t) (marker : String) :
    ∃ met, EndsWith (fun rounds => p.sought marker rounds [] [t]) met := by
  rcases ht with hmem | hphantom
  · have hknown : ∀ u ∈ [t], p.lookup u.name = u := by
      intro u hu
      rw [List.mem_singleton.mp hu]
      exact Program.lookup_of_mem hmem
    exact ⟨_, [t].length + View.toPush p [], fun rounds hrounds =>
      Program.sought_of_le hknown (Nat.le_refl _) hrounds⟩
  · refine ⟨[t], 1, fun rounds hrounds => ?_⟩
    obtain ⟨more, rfl⟩ := Nat.exists_eq_add_of_le' hrounds
    rw [hphantom]
    exact p.sought_phantom marker t.name more

/-- After any history, for every type that the program can have handed out, the walks over the
    hierarchy end and are exact: the superclass chain, the supertypes, the interfaces along the
    chain, and the search for a marker. -/
theorem walks_after_history (history : List Operation) (t : TypeDecl) (marker : String)
    (ht : (after history).program.Offers t) :
    let s := after history
    let p := s.program
    (EndsWith (fun rounds => climb collect rounds [] t [] s) (chain t s) ∧
        p.IsChain [] t (chain t s).1) ∧
      (EndsWith (fun rounds => spread collect rounds [t.name] [t] [] s) (supertypes t s) ∧
        p.IsSupertypes t (supertypes t s).1) ∧
      (EndsWith (fun rounds => climb (Interfaces.visit resolve) rounds [] t [] s)
          (interfaces t s) ∧
        p.IsInterfaces (chain t s).1 (interfaces t s).1) ∧
      (∀ rounds, (Interfaces.extendsFrom resolve (some marker) rounds [] [t] s).1 =
          (p.sought marker rounds [] [t]).any (·.name == marker)) ∧
      (∃ met, EndsWith (fun rounds => p.sought marker rounds [] [t]) met) ∧
      ((extendsMarker t (some marker) s).1 = true ↔
        ∃ i, Search.Reaches p.interfaceTypes t i ∧ i.name = marker) := by
  intro s p
  have hs : s.Sound := (sound_empty.foldl_perform history).1
  refine ⟨⟨hs.climb_ends ht (fun _ _ => performs_pure _) [], ?_⟩,
    ⟨hs.spread_ends ht (fun _ _ => performs_pure _) [], ?_⟩,
    ⟨hs.climb_ends ht (Interfaces.visit_rel (performs p).toSimulation
      (resolve_performs_view p)) [], hs.isInterfaces t⟩,
    fun rounds => hs.extendsFrom marker rounds [] [t], sought_ends ht marker,
    hs.extendsMarker_iff ht marker⟩
  · rw [hs.chain]
    exact Program.isChain_chain ht
  · rw [hs.supertypes]
    exact Program.isSupertypes_supertypes ht

/-- A class that extends its own subclass, with an interface and a name that cannot be looked up. -/
def ringClass : TypeDecl :=
  { name := "Ring", superclass := some "Band", interfaces := ["Worn", "int"] }

/-- The subclass is a phantom at first; the interface extends itself and a marker. -/
def ringHistory : List Operation :=
  [.declare ringClass, .ask (.chain ringClass),
   .declare { name := "Band", superclass := some "Ring" },
   .declare { name := "Worn", interfaces := ["Worn", "Seen"], isInterface := true }]

/-- The chain stops before the class it started from, and the marker is found through a cycle. -/
theorem walks_after_ringHistory :
    (after ringHistory).program.Offers ringClass ∧
      (chain ringClass (after ringHistory)).1.map TypeDecl.name = ["Ring", "Band"] ∧
      (after ringHistory).program.IsChain [] ringClass (chain ringClass (after ringHistory)).1 ∧
      ∃ i, Search.Reaches (after ringHistory).program.interfaceTypes ringClass i ∧
        i.name = "Seen" := by
  have hoffers : (after ringHistory).program.Offers ringClass := Or.inl (by decide +kernel)
  obtain ⟨⟨_, hchain⟩, _, _, _, _, hmarker⟩ :=
    walks_after_history ringHistory ringClass "Seen" hoffers
  exact ⟨hoffers, by decide +kernel, hchain, hmarker.mp (by decide +kernel)⟩

end Store
end ServiceReach
