import Mathlib.Data.List.Induction
import ServiceReach.Proofs.Model.Distance
import ServiceReach.Proofs.Model.Walks

/-
  The method that a call means, exactly. On one type it is the first of the methods that fit the
  call and match it in most places (`overload_firstBest`), and the type is one of the nearest
  supertypes that have a method that fits (`findMethod_nearest`). A place matches if the argument is
  known to have the type of the parameter. A parameter without an argument does not count, so a
  method of variable arity with just one parameter more matches the parameters of another method as
  well as that one itself, and of the two the one that is declared first is taken. An exact overload
  is found if and only if each such method has one before it (`exact_overload_found_iff`).
-/

namespace ServiceReach

namespace Method

variable {m n : Method} {args : List (Option String)}

/-! ## Places that match -/

/-- The places where the type of the argument is known and is that of the parameter. -/
def agreements (m : Method) (args : List (Option String)) : List Nat :=
  (List.range args.length).filter fun i =>
    m.params[i]?.any fun type => args[i]? == some (some type)

theorem score_eq_length_agreements (m : Method) (args : List (Option String)) :
    m.score args = (m.agreements args).length := by
  -- On the arguments: behind the first place, all places move up by one.
  have hplaces : ∀ (params : List String) (args : List (Option String)),
      ((params.zip args).filter fun place => place.2 == some place.1).length =
        ((List.range args.length).filter fun i =>
          params[i]?.any fun type => args[i]? == some (some type)).length := by
    intro params args
    induction args generalizing params with
    | nil => simp
    | cons arg args ih =>
      cases params with
      | nil => simp
      | cons param params =>
        have hmoved : ((fun i => (param :: params)[i]?.any fun type =>
            (arg :: args)[i]? == some (some type)) ∘ Nat.succ) =
            fun i => params[i]?.any fun type => args[i]? == some (some type) := by
          funext i
          simp
        rw [List.zip_cons_cons, List.length_cons, List.range_succ_eq_map, List.filter_cons,
          List.filter_cons, List.filter_map, hmoved]
        by_cases harg : (arg == some param) = true
        · simp [harg, ih]
        · simp [harg, ih]
  exact hplaces m.params args

theorem length_agreements_le (m : Method) (args : List (Option String)) :
    (m.agreements args).length ≤ args.length := by
  have hle := List.length_filter_le (fun i =>
    m.params[i]?.any fun type => args[i]? == some (some type)) (List.range args.length)
  rwa [List.length_range] at hle

/-- All arguments match if and only if the parameters begin with their types. -/
theorem length_agreements_eq_iff {types : List String} :
    (m.agreements (types.map some)).length = types.length ↔ types <+: m.params := by
  have hlength : types.length = (List.range (types.map some).length).length := by simp
  unfold agreements
  rw [hlength, List.length_filter_eq_length_iff, List.prefix_iff_getElem?]
  simp only [List.mem_range, List.length_map]
  refine forall_congr' fun i => forall_congr' fun hi => ?_
  rw [List.getElem?_map, List.getElem?_eq_getElem hi, Option.map_some, Option.any_eq_true]
  constructor
  · rintro ⟨type, hparam, heq⟩
    rw [hparam, Option.some.inj (Option.some.inj (beq_iff_eq.mp heq))]
  · intro hparam
    exact ⟨types[i], hparam, beq_self_eq_true _⟩

theorem accepts_iff {count : Nat} :
    m.accepts count = true ↔
      if m.varargs then m.params.length ≤ count + 1 else m.params.length = count := by
  unfold accepts
  split
  · simp only [decide_eq_true_eq]
    omega
  · rw [beq_iff_eq]
    omega

end Method

namespace Program

open Method

variable {p : Program} {name : String} {args : List (Option String)}

/-! ## The first best method of a type -/

/-- Among the methods of the list that fit a call, the method matches it in most places, and it is
    the first one that does. -/
def FirstBest (name : String) (args : List (Option String)) (methods : List Method) (m : Method) :
    Prop :=
  ∃ before after, methods = before ++ m :: after ∧ Fits name args m ∧
    (∀ n ∈ before, Fits name args n → (n.agreements args).length < (m.agreements args).length) ∧
    ∀ n ∈ after, Fits name args n → (n.agreements args).length ≤ (m.agreements args).length

theorem bestMatch_split {ms : List Method} {m : Method} (h : bestMatch args ms = some m) :
    ∃ before after, ms = before ++ m :: after ∧ (∀ n ∈ before, n.score args < m.score args) ∧
      ∀ n ∈ after, n.score args ≤ m.score args := by
  cases ms with
  | nil => cases h
  | cons first ms =>
    cases h
    induction ms using List.reverseRecOn with
    | nil =>
      exact ⟨[], [], rfl, fun n hn => absurd hn List.not_mem_nil,
        fun n hn => absurd hn List.not_mem_nil⟩
    | append_singleton ms n ih =>
      rw [List.foldl_concat]
      generalize ms.foldl (fun best n => if best.score args < n.score args then n else best) first =
        best at ih
      obtain ⟨before, after, hsplit, hbefore, hafter⟩ := ih
      by_cases hbetter : best.score args < n.score args
      · rw [if_pos hbetter]
        refine ⟨first :: ms, [], rfl, fun k hk => ?_, fun k hk => absurd hk List.not_mem_nil⟩
        rw [hsplit] at hk
        rcases List.mem_append.mp hk with hk | hk
        · exact Nat.lt_trans (hbefore k hk) hbetter
        · rcases List.mem_cons.mp hk with rfl | hk
          · exact hbetter
          · exact Nat.lt_of_le_of_lt (hafter k hk) hbetter
      · rw [if_neg hbetter]
        refine ⟨before, after ++ [n], ?_, hbefore, fun k hk => ?_⟩
        · rw [← List.cons_append, hsplit, List.append_assoc, List.cons_append]
        · rcases List.mem_append.mp hk with hk | hk
          · exact hafter k hk
          · rw [List.mem_singleton.mp hk]
            omega

theorem overload_firstBest {t : TypeDecl} {m : Method} (h : overload? name args t = some m) :
    FirstBest name args t.methods m := by
  obtain ⟨before, after, hsplit, hbefore, hafter⟩ := bestMatch_split h
  obtain ⟨before', rest, hmethods, rfl, hrest⟩ := List.filter_eq_append_iff.mp hsplit
  obtain ⟨skipped, after', rfl, hskipped, hm, rfl⟩ := List.filter_eq_cons_iff.mp hrest
  have hfits : ∀ n : Method,
      (n.name == name && n.accepts args.length) = true ↔ Fits name args n := by
    intro n
    rw [Bool.and_eq_true_iff, beq_iff_eq]
    rfl
  simp only [hfits, score_eq_length_agreements, List.mem_filter] at hbefore hafter hskipped hm
  refine ⟨before' ++ skipped, after', by rw [hmethods, List.append_assoc], hm,
    fun n hn hn' => ?_, fun n hn hn' => hafter n ⟨hn, hn'⟩⟩
  rcases List.mem_append.mp hn with hn | hn
  · exact hbefore n ⟨hn, hn'⟩
  · exact absurd hn' (hskipped n hn)

/-! ## The nearest type -/

/-- A type that is so many steps above `r`, and not fewer, declares a method that fits the call. -/
structure FitsAt (p : Program) (name : String) (args : List (Option String)) (r : String)
    (distance : Nat) (top : String) : Prop where
  steps : Search.Distance p.supersOf r distance top
  declares : ∃ m ∈ (p.lookup top).methods, Fits name args m

/-- The method is the first best one of a type that fits the call, and no such type is nearer. -/
structure Means (p : Program) (name : String) (args : List (Option String)) (r : String)
    (distance : Nat) (top : String) (m : Method) : Prop where
  fits : p.FitsAt name args r distance top
  nearest : ∀ d other, p.FitsAt name args r d other → distance ≤ d
  best : FirstBest name args (p.lookup top).methods m

theorem findMethod_means {r : String} {m : Method} (hr : isReferenceName r = true)
    (h : (p.findMethod (some r) name args).value = some m) :
    ∃ distance top, p.Means name args r distance top m := by
  rw [value_findMethod, Option.filter_some, if_pos hr, Option.bind_some,
    List.findSome?_eq_some_iff] at h
  obtain ⟨before, top, after, habove, hm, hbefore⟩ := h
  have hmem : ∀ n, Search.Reaches p.supersOf r n → n ∈ before ++ top :: after := by
    intro n hn
    rw [← habove]
    exact mem_above_iff.mpr hn
  obtain ⟨distance, htop⟩ := Search.exists_distance (mem_above_iff.mp
    (habove ▸ List.mem_append_right before List.mem_cons_self : top ∈ p.above r))
  refine ⟨distance, top, ⟨htop, m, overload_eq_some hm⟩, fun d other hother => ?_,
    overload_firstBest hm⟩
  -- A type that comes before has no method that fits, and one that comes after is not nearer.
  have hsorted : (before ++ top :: after).Pairwise (Search.NoFarther p.supersOf r) :=
    habove ▸ Search.reached_outward _ _ _
  have hnot : other ∉ before := by
    intro hmem
    obtain ⟨n, hn, hfits⟩ := hother.declares
    exact overload_eq_none_iff.mp (hbefore other hmem) n hn hfits
  have hfarther : Search.NoFarther p.supersOf r top other := by
    rcases List.mem_append.mp (hmem other (Search.reaches_iff_steps.mpr ⟨d, hother.steps.1⟩)) with
      hbefore | hafter
    · exact absurd hbefore hnot
    · rcases List.mem_cons.mp hafter with rfl | hafter
      · exact fun n hn => ⟨n, Nat.le_refl n, hn⟩
      · exact List.rel_of_pairwise_cons (List.pairwise_append.mp hsorted).2.1 hafter
  obtain ⟨k, hk, hsteps⟩ := hfarther d hother.steps.1
  exact Nat.le_trans (htop.2 k hsteps) hk

theorem findMethod_eq_none_iff_not_fitsAt {r : String} (hr : isReferenceName r = true) :
    (p.findMethod (some r) name args).value = none ↔
      ∀ distance top, ¬ p.FitsAt name args r distance top := by
  rw [findMethod_eq_none_iff hr]
  constructor
  · rintro h distance top ⟨hsteps, m, hm, hfits⟩
    exact h top (Search.reaches_iff_steps.mpr ⟨distance, hsteps.1⟩) m hm hfits
  · intro h top hreach m hm hfits
    obtain ⟨distance, hsteps⟩ := Search.exists_distance hreach
    exact h distance top ⟨hsteps, m, hm, hfits⟩

theorem findMethod_of_not_isReference {type : Option String} (h : isReference type = false) :
    (p.findMethod type name args).value = none := by
  have hfilter : type.filter isReferenceName = none := by
    cases type with
    | none => rfl
    | some r => simpa [isReference] using h
  rw [value_findMethod, hfilter, Option.bind_none]

/-- The names that a type has for parents, as they are written. -/
def parentsOf (p : Program) (n : String) : List String :=
  (p.lookup n).parents

theorem mem_types_of_mem_parentsOf {n parent : String} (h : parent ∈ p.parentsOf n) :
    p.lookup n ∈ p.types := by
  rcases declared_or_phantom (p.lookup_lookup n) with hmem | hphantom
  · exact hmem
  · unfold parentsOf at h
    rw [hphantom] at h
    cases h

/-- Where the declared types have reference names, as many steps along the parents as they are
    written lead to a declared type as along those that can be looked up. -/
theorem steps_parentsOf_iff (hnames : ∀ t ∈ p.types, isReferenceName t.name = true) {r top : String}
    {d : Nat} (htop : p.lookup top ∈ p.types) :
    Search.Steps p.parentsOf r d top ↔ Search.Steps p.supersOf r d top := by
  constructor
  · intro h
    induction h with
    | none => exact .none
    | more _ hparent ih =>
      have href := hnames _ htop
      rw [lookup_name] at href
      exact (ih (mem_types_of_mem_parentsOf hparent)).more (List.mem_filter.mpr ⟨hparent, href⟩)
  · intro h
    clear htop
    induction h with
    | none => exact .none
    | more _ hparent ih => exact ih.more (List.mem_filter.mp hparent).1

end Program

/-! ## Exact overloads -/

/-- The method is of variable arity, and after the parameters of another method of its name it has
    just one more. -/
def Method.Overreaches (n m : Method) : Prop :=
  n.name = m.name ∧ n.varargs = true ∧ ∃ last, n.params = m.params ++ [last]

theorem Method.Overreaches.params_ne {m n : Method} (h : n.Overreaches m) :
    n.params ≠ m.params := by
  obtain ⟨_, _, last, hparams⟩ := h
  intro heq
  have hlength := congrArg List.length (heq.symm.trans hparams)
  rw [List.length_append, List.length_singleton] at hlength
  omega

namespace Program

open Method

/-- For arguments that have the types of the parameters of `m`, every argument matches only in an
    exact overload or in one that overreaches. -/
theorem fits_all_iff {m n : Method} :
    (Fits m.name (m.params.map some) n ∧
        (n.agreements (m.params.map some)).length = m.params.length) ↔
      (n.name = m.name ∧ n.params = m.params) ∨ n.Overreaches m := by
  rw [length_agreements_eq_iff]
  constructor
  · rintro ⟨⟨hname, haccepts⟩, rest, hrest⟩
    have hlength := congrArg List.length hrest
    rw [accepts_iff, List.length_map] at haccepts
    rw [List.length_append] at hlength
    match rest with
    | [] => exact Or.inl ⟨hname, by rw [← hrest, List.append_nil]⟩
    | last :: more =>
      rw [List.length_cons] at hlength
      split at haccepts
      · rename_i hvarargs
        obtain rfl : more = [] := List.eq_nil_of_length_eq_zero (by omega)
        exact Or.inr ⟨hname, hvarargs, last, hrest.symm⟩
      · omega
  · rintro (⟨hname, hparams⟩ | ⟨hname, hvarargs, last, hparams⟩)
    · refine ⟨⟨hname, accepts_iff.mpr ?_⟩, [], by rw [hparams, List.append_nil]⟩
      rw [hparams, List.length_map]
      split
      · exact Nat.le_succ _
      · rfl
    · refine ⟨⟨hname, accepts_iff.mpr ?_⟩, [last], hparams.symm⟩
      rw [if_pos hvarargs, hparams, List.length_append, List.length_map, List.length_singleton]

/-- The first best method for the parameters of `m` takes them exactly or overreaches. It takes them
    exactly if and only if each method that overreaches has an exact one before it. -/
theorem FirstBest.exact_or_overreaches {methods : List Method} {m r : Method} (hm : m ∈ methods)
    (h : FirstBest m.name (m.params.map some) methods r) :
    ((r.name = m.name ∧ r.params = m.params) ∨ r.Overreaches m) ∧
      (r.params = m.params ↔ ∀ before n after, methods = before ++ n :: after →
        n.Overreaches m → ∃ e ∈ before, e.name = m.name ∧ e.params = m.params) := by
  obtain ⟨before, after, rfl, hfits, hbefore, hafter⟩ := h
  have hmost := r.length_agreements_le (m.params.map some)
  rw [List.length_map] at hmost
  -- Before the first best method nothing matches everywhere.
  have hnone : ∀ n ∈ before, ¬ ((n.name = m.name ∧ n.params = m.params) ∨ n.Overreaches m) := by
    intro n hn hall
    obtain ⟨hnfits, hfull⟩ := fits_all_iff.mpr hall
    have hless := hbefore n hn hnfits
    omega
  have hfull : (r.agreements (m.params.map some)).length = m.params.length := by
    obtain ⟨hmfits, hmfull⟩ := fits_all_iff.mpr (Or.inl ⟨rfl, rfl⟩ : _ ∨ m.Overreaches m)
    rcases List.mem_append.mp hm with hm | hm
    · exact absurd (Or.inl ⟨rfl, rfl⟩) (hnone m hm)
    · rcases List.mem_cons.mp hm with rfl | hm
      · exact hmfull
      · have hle := hafter m hm hmfits
        omega
  have hr := fits_all_iff.mp ⟨hfits, hfull⟩
  refine ⟨hr, fun hparams start n rest hsplit hn => ?_, fun hall => ?_⟩
  · -- The method that overreaches stands behind the first best one, which is exact.
    rcases List.append_eq_append_iff.mp hsplit with ⟨between, rfl, hrest⟩ | ⟨between, rfl, hrest⟩
    · cases between with
      | nil =>
        obtain ⟨rfl, _⟩ := List.cons.inj hrest
        exact absurd hparams hn.params_ne
      | cons k between =>
        obtain ⟨rfl, _⟩ := List.cons.inj hrest
        exact ⟨r, List.mem_append_right _ List.mem_cons_self, hfits.1, hparams⟩
    · cases between with
      | nil =>
        obtain ⟨rfl, _⟩ := List.cons.inj hrest
        exact absurd hparams hn.params_ne
      | cons k between =>
        obtain ⟨rfl, _⟩ := List.cons.inj hrest
        exact absurd (Or.inr hn) (hnone n (List.mem_append_right _ List.mem_cons_self))
  · rcases hr with ⟨_, hparams⟩ | hover
    · exact hparams
    · obtain ⟨e, he, hexact⟩ := hall before r after rfl hover
      exact absurd (Or.inl hexact) (hnone e he)

end Program

/-! ## In a store -/

namespace Store

variable {s : Store}

theorem Sound.findMethod (hs : s.Sound) (type : Option String) (name : String)
    (args : List (Option String)) :
    (findMethod type name args s).1 = (s.program.findMethod type name args).value := by
  have h := performs_lift.mp (firstSupertype_performs s.program type (Program.overload? name args))
    s hs rfl
  exact congrArg Prod.fst h

/-- After any history, a call means no method if and only if its receiver is no class or interface,
    or no type at or above it has a method that fits. Otherwise it means the first best method of a
    type that has one, and no such type is nearer. Where types are declared under reference names
    only, the distance is the same along the parents as they are written. -/
theorem findMethod_nearest (history : List Operation) (type : Option String) (name : String)
    (args : List (Option String)) :
    let p := (after history).program
    let found := (findMethod type name args (after history)).1
    (found = none ↔ isReference type = false ∨
        ∀ r, type = some r → ∀ distance top, ¬ p.FitsAt name args r distance top) ∧
      (∀ m, found = some m →
        ∃ r distance top, type = some r ∧ p.Means name args r distance top m) ∧
      ((∀ t ∈ p.types, isReferenceName t.name = true) → ∀ r distance top,
        p.lookup top ∈ p.types →
        (Search.Distance p.parentsOf r distance top ↔
          Search.Distance p.supersOf r distance top)) := by
  intro p found
  have hs : (after history).Sound := (sound_empty.foldl_perform history).1
  have hfound : found = (p.findMethod type name args).value := hs.findMethod type name args
  rw [hfound]
  refine ⟨?_, fun m hm => ?_, fun hnames r distance top htop => ?_⟩
  · cases htype : isReference type with
    | false => simp only [Program.findMethod_of_not_isReference htype, true_or]
    | true =>
      cases type with
      | none => cases htype
      | some r =>
        rw [Program.findMethod_eq_none_iff_not_fitsAt htype]
        simp
  · cases type with
    | none => cases hm
    | some r =>
      have href : isReferenceName r = true := by
        by_contra hnot
        have htype : isReference (some r) = false := Bool.eq_false_iff.mpr hnot
        rw [Program.findMethod_of_not_isReference htype] at hm
        cases hm
      obtain ⟨distance, top, hmeans⟩ := Program.findMethod_means href hm
      exact ⟨r, distance, top, rfl, hmeans⟩
  · unfold Search.Distance
    simp only [Program.steps_parentsOf_iff hnames htop]

/-- A call whose arguments have the types of the parameters of a method of a declared type finds a
    method of that type with exactly these parameters, or one that overreaches. It finds an exact
    one if and only if each method that overreaches has an exact one before it. -/
theorem exact_overload_found_iff (history : List Operation) (t : TypeDecl) (m : Method)
    (ht : t ∈ (after history).program.types) (href : isReferenceName t.name = true)
    (hm : m ∈ t.methods) :
    ∃ r ∈ t.methods,
      (findMethod (some t.name) m.name (m.params.map some) (after history)).1 = some r ∧
      ((r.name = m.name ∧ r.params = m.params) ∨ r.Overreaches m) ∧
      (r.params = m.params ↔ ∀ before n after, t.methods = before ++ n :: after →
        n.Overreaches m → ∃ e ∈ before, e.name = m.name ∧ e.params = m.params) := by
  have hs : (after history).Sound := (sound_empty.foldl_perform history).1
  have hlookup := Program.lookup_of_mem ht
  rw [hs.findMethod]
  -- The type itself is at distance 0, so the method is one of its own.
  have hown : (after history).program.FitsAt m.name (m.params.map some) t.name 0 t.name := by
    refine ⟨⟨.none, fun k _ => Nat.zero_le k⟩, m, by rwa [hlookup], ?_⟩
    exact (Program.fits_all_iff.mpr (Or.inl ⟨rfl, rfl⟩)).1
  cases hfound : ((after history).program.findMethod (some t.name) m.name
      (m.params.map some)).value with
  | none => exact absurd hown ((Program.findMethod_eq_none_iff_not_fitsAt href).mp hfound 0 t.name)
  | some r =>
    obtain ⟨distance, top, hfits, hnearest, hbest⟩ := Program.findMethod_means href hfound
    obtain rfl : distance = 0 := Nat.le_zero.mp (hnearest 0 t.name hown)
    obtain rfl : top = t.name := by
      cases hfits.steps.1
      rfl
    rw [hlookup] at hbest
    have hmem : r ∈ t.methods := by
      obtain ⟨before, after, hsplit, _⟩ := hbest
      rw [hsplit]
      exact List.mem_append_right before List.mem_cons_self
    exact ⟨r, hmem, rfl, hbest.exact_or_overreaches hm⟩

/-- A method that takes a text. -/
def plainLog : Method :=
  { owner := "p.S", name := "log", params := ["java.lang.String"] }

/-- A method that takes a text and any number of objects. -/
def spreadLog : Method :=
  { owner := "p.S", name := "log", params := ["java.lang.String", "java.lang.Object[]"],
    varargs := true }

/-- The class of some methods, in the order given. -/
def logClass (methods : List Method) : TypeDecl :=
  { name := "p.S", methods }

/-- Declared first, the exact overload is found. -/
theorem plainLog_found :
    let t := logClass [plainLog, spreadLog]
    t ∈ (after [.declare t]).program.types ∧ isReferenceName t.name = true ∧
      (findMethod (some t.name) "log" [some "java.lang.String"] (after [.declare t])).1 =
        some plainLog ∧
      ∀ before n after, t.methods = before ++ n :: after → n.Overreaches plainLog →
        ∃ e ∈ before, e.name = "log" ∧ e.params = ["java.lang.String"] := by
  intro t
  have ht : t ∈ (after [.declare t]).program.types := by decide +kernel
  have href : isReferenceName t.name = true := by decide +kernel
  have hfound : (findMethod (some t.name) "log" [some "java.lang.String"]
      (after [.declare t])).1 = some plainLog := by decide +kernel
  obtain ⟨r, _, hr, _, hiff⟩ :=
    exact_overload_found_iff [.declare t] t plainLog ht href List.mem_cons_self
  obtain rfl : plainLog = r := Option.some.inj (hfound.symm.trans hr)
  exact ⟨ht, href, hfound, hiff.mp rfl⟩

/-- Declared behind a method that overreaches, the exact overload is not found. -/
theorem plainLog_not_found :
    let t := logClass [spreadLog, plainLog]
    t ∈ (after [.declare t]).program.types ∧ plainLog ∈ t.methods ∧ plainLog.varargs = false ∧
      (findMethod (some t.name) plainLog.name (plainLog.params.map some)
        (after [.declare t])).1 = some spreadLog ∧
      spreadLog.params ≠ plainLog.params := by
  decide +kernel

end Store
end ServiceReach
