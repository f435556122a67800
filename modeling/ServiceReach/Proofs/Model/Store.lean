import ServiceReach.Model.Store
import ServiceReach.Model.View
import ServiceReach.Proofs.Model.Outcome
import ServiceReach.Proofs.Model.Program
import ServiceReach.Proofs.Model.Search
import ServiceReach.Proofs.Model.Simulation

/-
  Asking a store never changes an answer. The tables of a store are `Sound`: phantoms are what their
  names stand for, the method table and the index say what the declared types say. Declaring a type
  and asking keep that. On a sound store every walk `Performs` the walk on the program: it answers
  the same, and the phantoms it leaves behind are those of the names that the program notes down.
  So an answer depends on the declared types alone, whatever was asked in between
  (`answer_after_history`). Walks up the superclass chain may do more than ask the store; they go
  along with those on the program in every way of following it (`Following`).
-/

namespace ServiceReach

/-! ## The index of subtypes -/

namespace SubtypeIndex

theorem children_add (index : SubtypeIndex) (parent child name : String) :
    (index.add parent child).children name =
      index.children name ++ if name = parent then [child] else [] := by
  unfold children
  induction index with
  | nil =>
    by_cases hname : name = parent
    · simp [add, hname]
    · simp [add, hname, List.lookup_cons, beq_false_of_ne hname]
  | cons entry index ih =>
    obtain ⟨key, names⟩ := entry
    by_cases hkey : key = parent
    · subst hkey
      by_cases hname : name = key
      · simp [add, hname]
      · simp [add, hname, List.lookup_cons, beq_false_of_ne hname]
    · by_cases hname : name = key
      · subst hname
        simp [add, hkey]
      · simpa [add, hkey, List.lookup_cons, beq_false_of_ne hname] using ih

/-- A type is listed once for each time it names the parent. -/
theorem children_addType (index : SubtypeIndex) (t : TypeDecl) (name : String) :
    (index.addType t).children name =
      index.children name ++ (t.parents.filter (· = name)).map fun _ => t.name := by
  unfold addType
  induction t.parents generalizing index with
  | nil => simp
  | cons parent parents ih =>
    rw [List.foldl_cons, ih, children_add, List.append_assoc]
    by_cases hname : name = parent
    · simp [hname]
    · simp [hname, Ne.symm hname]

theorem children_ofTypes (types : List TypeDecl) (name : String) :
    (ofTypes types).children name =
      types.flatMap fun t => (t.parents.filter (· = name)).map fun _ => t.name := by
  have hfold : ∀ index : SubtypeIndex, (types.foldl addType index).children name =
      index.children name ++
        types.flatMap fun t => (t.parents.filter (· = name)).map fun _ => t.name := by
    induction types with
    | nil => exact fun index => (List.append_nil _).symm
    | cons t types ih =>
      intro index
      rw [List.foldl_cons, ih, children_addType, List.flatMap_cons, List.append_assoc]
  exact hfold []

/-- The index leads on to the children of a name, each once. -/
theorem fresh_children_ofTypes (p : Program) (seen : List String) (name : String) :
    Search.fresh seen ((ofTypes p.types).children name) = Search.fresh seen (p.children name) := by
  rw [children_ofTypes]
  unfold Program.children
  induction p.types generalizing seen with
  | nil => rfl
  | cons t types ih =>
    rw [List.flatMap_cons]
    by_cases hparent : name ∈ t.parents
    · have hnames : t.name ∈ (t.parents.filter (· = name)).map fun _ => t.name :=
        List.mem_map.mpr ⟨name, List.mem_filter.mpr ⟨hparent, by simp⟩, rfl⟩
      have hsame : ∀ n ∈ (t.parents.filter (· = name)).map fun _ => t.name, n = t.name := by
        intro n hn
        obtain ⟨_, _, rfl⟩ := List.mem_map.mp hn
        rfl
      rw [List.filter_cons_of_pos (by simpa using hparent), List.map_cons]
      generalize (t.parents.filter (· = name)).map (fun _ => t.name) = names at hnames hsame ⊢
      cases names with
      | nil => cases hnames
      | cons n names =>
        have hn := hsame n List.mem_cons_self
        subst hn
        by_cases hseen : t.name ∈ seen
        · rw [Search.fresh_cons_of_mem hseen, ← ih seen]
          refine Search.fresh_append_of_subset (fun n hn => ?_) _
          rwa [hsame n hn]
        · rw [List.cons_append, Search.fresh_cons_of_not_mem hseen,
            Search.fresh_cons_of_not_mem hseen, ← ih (t.name :: seen)]
          congr 1
          refine Search.fresh_append_of_subset (fun n hn => ?_) _
          rw [hsame n (List.mem_cons_of_mem _ hn)]
          exact List.mem_cons_self
    · have hnone : t.parents.filter (· = name) = [] := by
        rw [List.filter_eq_nil_iff]
        rintro n hn heq
        exact hparent (of_decide_eq_true heq ▸ hn)
      rw [hnone, List.map_nil, List.nil_append,
        List.filter_cons_of_neg (by simpa using hparent), ih seen]

end SubtypeIndex

namespace Store

/-! ## Sound stores -/

/-- The tables say what the declared types say. -/
structure Sound (s : Store) : Prop where
  phantoms : ∀ t ∈ s.phantoms, t = .phantom t.name
  methods : ∀ signature, s.methods.lookup signature = s.program.method? signature
  index : ∀ index, s.index = some index → index = .ofTypes s.program.types

theorem sound_empty : Sound empty :=
  ⟨fun _ ht => absurd ht List.not_mem_nil, fun _ => rfl, fun _ h => nomatch h⟩

theorem lookup_addMethod (table : List (String × Method)) (m : Method) (signature : String) :
    (addMethod table m).lookup signature =
      (table.lookup signature).or (if m.signature = signature then some m else none) := by
  have happend : ∀ table : List (String × Method),
      (table ++ [(m.signature, m)]).lookup signature =
        (table.lookup signature).or (if m.signature = signature then some m else none) := by
    intro table
    induction table with
    | nil =>
      by_cases hm : m.signature = signature
      · simp [hm]
      · simp [hm, List.lookup_cons, beq_false_of_ne (Ne.symm hm)]
    | cons entry table ih =>
      obtain ⟨key, n⟩ := entry
      by_cases hkey : signature = key
      · simp [hkey]
      · simpa [List.lookup_cons, beq_false_of_ne hkey] using ih
  unfold addMethod
  split
  · rename_i htaken
    obtain ⟨n, hn⟩ := Option.isSome_iff_exists.mp htaken
    by_cases hm : m.signature = signature
    · rw [← hm, hn, Option.some_or]
    · rw [if_neg hm, Option.or_none]
  · exact happend table

theorem lookup_foldl_addMethod (ms : List Method) (table : List (String × Method))
    (signature : String) :
    (ms.foldl addMethod table).lookup signature =
      (table.lookup signature).or (ms.find? fun m => m.signature == signature) := by
  induction ms generalizing table with
  | nil => rw [List.foldl_nil, List.find?_nil, Option.or_none]
  | cons m ms ih =>
    rw [List.foldl_cons, ih, lookup_addMethod, Option.or_assoc, List.find?_cons]
    by_cases hm : m.signature = signature
    · simp [hm]
    · simp [hm, beq_false_of_ne hm]

theorem program_declare (s : Store) (t : TypeDecl) :
    (s.declare t).program = s.program.declare t := by
  unfold declare
  split
  · rename_i u hfound
    obtain ⟨hu, hname⟩ := Program.find?_eq_some_iff.mp hfound
    have htaken : t.name ∈ s.program.types.map TypeDecl.name := hname ▸ List.mem_map_of_mem hu
    rw [Program.declare, dif_pos htaken]
  · rfl

theorem Sound.declare {s : Store} (h : s.Sound) (t : TypeDecl) : (s.declare t).Sound := by
  unfold Store.declare
  cases hfound : s.program.find? t.name with
  | some u => exact h
  | none =>
    have hfree : t.name ∉ s.program.types.map TypeDecl.name := by
      intro hmem
      obtain ⟨u, hu, hname⟩ := List.mem_map.mp hmem
      rw [Program.find?_eq_some_iff.mpr ⟨hu, hname⟩] at hfound
      cases hfound
    refine ⟨fun u hu => h.phantoms u (List.mem_filter.mp hu).1, fun signature => ?_,
      fun _ hi => nomatch hi⟩
    dsimp only
    rw [lookup_foldl_addMethod, h.methods, Program.declare, dif_neg hfree]
    unfold Program.method? Program.methods
    rw [List.flatMap_append, List.find?_append, List.flatMap_singleton]

theorem phantoms_foldl_addPhantom (names : List String) {phantoms : List TypeDecl}
    (h : ∀ t ∈ phantoms, t = .phantom t.name) :
    ∀ t ∈ names.foldl addPhantom phantoms, t = .phantom t.name := by
  induction names generalizing phantoms with
  | nil => exact h
  | cons name names ih =>
    refine ih ?_
    unfold addPhantom
    split
    · exact h
    · refine List.forall_mem_append.mpr ⟨h, fun t ht => ?_⟩
      rw [List.mem_singleton.mp ht]
      rfl

theorem Sound.remember {s : Store} (h : s.Sound) (names : List String) :
    (s.remember names).Sound :=
  ⟨phantoms_foldl_addPhantom names h.phantoms, h.methods, h.index⟩

theorem remember_append (s : Store) (names others : List String) :
    s.remember (names ++ others) = (s.remember names).remember others := by
  unfold remember
  rw [List.foldl_append]

/-! ## Performing what the program does -/

section Performs

variable {p : Program} {α β : Type}

/-- On every sound store of the program the access gives the answer, and leaves the phantoms of
    the names behind. -/
def Gives (p : Program) (x : Access α) (a : α) (names : List String) : Prop :=
  ∀ s : Store, s.Sound → s.program = p → x s = (a, s.remember names)

theorem gives_pure (a : α) : Gives p (pure a) a [] :=
  fun _ _ _ => rfl

theorem Gives.bind {x : Access α} {a : α} {names : List String} {f : α → Access β} {b : β}
    {others : List String} (hx : Gives p x a names) (hf : Gives p (f a) b others) :
    Gives p (x >>= f) b (names ++ others) := by
  intro s hs hp
  have hrest := hf (s.remember names) (hs.remember names) hp
  rw [remember_append, ← hrest]
  change f (x s).1 (x s).2 = _
  rw [hx s hs hp]

theorem Gives.bind_pure {x : Access α} {a : α} {names : List String} (hx : Gives p x a names)
    (f : α → β) : Gives p (x >>= fun a => pure (f a)) (f a) names := by
  have hpure := hx.bind (f := fun a => pure (f a)) (gives_pure (f a))
  rwa [List.append_nil] at hpure

/-- The access gives what the look-up brings. -/
def Performs (p : Program) (x : Access α) (l : Lookup α) : Prop :=
  ∃ a, l.run.value = .ok a ∧ Gives p x a l.run.names

theorem performs_pure (a : α) : Performs p (pure a) (pure a) :=
  ⟨a, rfl, gives_pure a⟩

theorem Performs.bind {x : Access α} {l : Lookup α} {f : α → Access β} {g : α → Lookup β}
    (hx : Performs p x l) (hf : ∀ a, Performs p (f a) (g a)) :
    Performs p (x >>= f) (l >>= g) := by
  obtain ⟨a, ha, hx⟩ := hx
  obtain ⟨b, hb, hf⟩ := hf a
  refine ⟨b, ?_, ?_⟩
  · rw [Trail.value_run_bind, ha]
    exact hb
  · rw [Trail.names_run_bind, ha]
    exact hx.bind hf

theorem Gives.performs_bind {x : Access α} {a : α} {names : List String} {f : α → Access β}
    {l : Lookup β} (hx : Gives p x a names) (hf : Performs p (f a) l) :
    Performs p (x >>= f) ((liftM (Trail.look names) : Lookup Unit) >>= fun _ => l) := by
  obtain ⟨b, hb, hf⟩ := hf
  refine ⟨b, ?_, ?_⟩
  · rw [Trail.value_run_bind]
    exact hb
  · rw [Trail.names_run_bind, Trail.names_run_lift]
    exact hx.bind hf

theorem performs_lift {x : Access α} {t : Trail α} :
    Performs p x (liftM t) ↔ Gives p x t.value t.names := by
  unfold Performs
  rw [Trail.names_run_lift]
  constructor
  · rintro ⟨a, ha, h⟩
    cases ha
    exact h
  · exact fun h => ⟨t.value, rfl, h⟩

/-- A way to follow look-ups in a program by computations that ask its sound stores. -/
structure Following (p : Program) (m : Type → Type) [Monad m] [MonadLiftT Access m] extends
    Simulation m Lookup where
  lift {α : Type} {x : Access α} {t : Trail α} :
    Gives p x t.value t.names → Rel (liftM x) (liftM t)

/-- Accesses follow the look-ups that they perform. -/
def performs (p : Program) : Following p Access where
  Rel x l := Performs p x l
  pure := performs_pure
  bind := Performs.bind
  lift := performs_lift.mpr

/-- What is asked first may be put in, if asking leaves nothing behind. -/
theorem Following.ask {m : Type → Type} [Monad m] [MonadLiftT Access m] (S : Following p m)
    {x : Access α} {a : α} (hx : Gives p x a []) {f : α → m β} {l : α → Lookup β}
    (h : ∀ a, S.Rel (f a) (l a)) : S.Rel (liftM x >>= f) (l a) := by
  have hbind := S.bind (S.lift (t := pure a) hx) h
  rwa [liftM_pure, pure_bind] at hbind

theorem chainRounds_gives (p : Program) : Gives p chainRounds (p.types.length + 2) [] := by
  rintro s _ rfl
  rfl

theorem parentRounds_gives (p : Program) (t : TypeDecl) :
    Gives p (parentRounds t) (p.parentCount t + 1) [] := by
  rintro s _ rfl
  rfl

/-! ## Looking types up -/

theorem Sound.phantomOf {s : Store} (h : s.Sound) (name : String) :
    phantomOf name s = (.phantom name, s.remember [name]) := by
  unfold Store.phantomOf Store.remember
  rw [List.foldl_cons, List.foldl_nil, addPhantom]
  cases hfound : s.phantoms.find? (·.name == name) with
  | some t =>
    have hmem := List.mem_of_find?_eq_some hfound
    have hname : t.name = name := by simpa using List.find?_some hfound
    rw [if_pos (List.any_eq_true.mpr ⟨t, hmem, by simpa using hname⟩), h.phantoms t hmem, hname]
  | none =>
    have hany : ¬ s.phantoms.any (·.name == name) = true := by
      rw [List.any_eq_true]
      rintro ⟨t, ht, hname⟩
      exact List.find?_eq_none.mp hfound t ht hname
    rw [if_neg hany]

theorem resolve_of_none {name : Option String} (h : name.filter isReferenceName = none) :
    p.resolve name = ⟨none, []⟩ := by
  rw [Program.resolve, h]

theorem resolve_of_some {name : Option String} {n : String}
    (h : name.filter isReferenceName = some n) :
    p.resolve name = ⟨some (p.lookup n), p.undeclared [n]⟩ := by
  rw [Program.resolve, h]

theorem resolve_gives (p : Program) (name : Option String) :
    Gives p (resolve name) (p.resolve name).value (p.resolve name).names := by
  unfold resolve
  cases hname : name.filter isReferenceName with
  | none =>
    rw [resolve_of_none hname]
    exact gives_pure none
  | some n =>
    rw [resolve_of_some hname]
    rintro s hs rfl
    unfold Program.lookup Program.undeclared
    dsimp only
    cases hfound : s.program.find? n with
    | some t =>
      rw [List.filter_cons_of_neg (by simp [hfound])]
      rfl
    | none =>
      rw [List.filter_cons_of_pos (by simp [hfound]), hs.phantomOf]
      rfl

theorem resolve_performs (p : Program) (name : Option String) :
    Performs p (resolve name) (liftM (p.resolve name)) :=
  performs_lift.mpr (resolve_gives p name)

theorem resolve_performs_view (p : Program) (name : Option String) :
    Performs p (resolve name) ((View.ofProgram p).resolve name) := by
  cases name with
  | none => exact performs_pure none
  | some n => exact resolve_performs p (some n)

/-! ## Walks -/

/-- Visits a walk of the program, until `visit` ends it. -/
def along (p : Program) (visit : β → TypeDecl → Lookup (ForInStep β)) : List Visit → β → Lookup β
  | [], b => pure b
  | v :: rest, b => do
    match ← visit b v.type with
    | .done b => pure b
    | .yield b =>
      Trail.look (p.undeclared v.looked)
      along p visit rest b

/-- One round of a walk up the superclass chain. -/
theorem along_chainFrom (p : Program) (look : β → TypeDecl → Lookup (ForInStep β)) (fuel : Nat)
    {seen : List String} {t : TypeDecl} (hseen : ¬ seen.contains t.name = true) (b : β) :
    along p look (p.chainFrom (fuel + 1) seen t) b = (do
      match ← look b t with
      | .done b => pure b
      | .yield b =>
        match ← (liftM (p.resolve (present? t.superclass)) : Lookup (Option TypeDecl)) with
        | none => pure b
        | some parent => along p look (p.chainFrom fuel (t.name :: seen) parent) b) := by
  rw [Program.chainFrom, if_neg hseen]
  cases hparent : (present? t.superclass).filter isReferenceName with
  | none =>
    rw [resolve_of_none hparent]
    rfl
  | some parent =>
    rw [resolve_of_some hparent]
    rfl

section Chain

variable {m : Type → Type} [Monad m] [MonadLiftT Access m] (S : Following p m)
  {visit : β → TypeDecl → m (ForInStep β)} {look : β → TypeDecl → Lookup (ForInStep β)}

theorem climb_follows (h : ∀ b t, S.Rel (visit b t) (look b t)) (fuel : Nat)
    (seen : List String) (t : TypeDecl) (b : β) :
    S.Rel (climb visit fuel seen t b) (along p look (p.chainFrom fuel seen t) b) := by
  induction fuel generalizing seen t b with
  | zero => exact S.pure b
  | succ fuel ih =>
    by_cases hseen : seen.contains t.name = true
    · rw [climb, if_pos hseen, Program.chainFrom, if_pos hseen]
      exact S.pure b
    · rw [climb, if_neg hseen, along_chainFrom p look fuel hseen]
      refine S.bind (h b t) fun step => ?_
      cases step with
      | done b => exact S.pure b
      | yield b =>
        refine S.bind (S.lift (resolve_gives p _)) fun parent => ?_
        cases parent with
        | none => exact S.pure b
        | some parent => exact ih (t.name :: seen) parent b

theorem alongChain_follows (h : ∀ b t, S.Rel (visit b t) (look b t)) (t : TypeDecl) (b : β) :
    S.Rel (alongChain visit t b) (along p look (p.chain t) b) :=
  S.ask (chainRounds_gives p) fun rounds => climb_follows S h rounds [] t b

end Chain

section Walks

variable {visit : β → TypeDecl → Access (ForInStep β)}
  {look : β → TypeDecl → Lookup (ForInStep β)}

theorem undeclared_cons (p : Program) (name : String) (names : List String) :
    p.undeclared (name :: names) = p.undeclared [name] ++ p.undeclared names :=
  List.filter_append [name] names

/-- The parents met are those fresh among the parents that can be looked up. The names seen may
    hold others, which lead nowhere. -/
theorem meet_gives (p : Program) (names seen met : List String)
    (queue : List TypeDecl) (h : ∀ n, isReferenceName n = true → (n ∈ seen ↔ n ∈ met)) :
    ∃ after, (∀ n, isReferenceName n = true →
        (n ∈ after ↔ n ∈ met ++ Search.fresh met (names.filter isReferenceName))) ∧
      Gives p (names.foldlM meet (seen, queue))
        (after, queue ++ (Search.fresh met (names.filter isReferenceName)).map p.lookup)
        (p.undeclared (Search.fresh met (names.filter isReferenceName))) := by
  induction names generalizing seen met queue with
  | nil =>
    refine ⟨seen, fun n hn => ?_, ?_⟩
    · rw [h n hn, List.filter_nil, Search.fresh, List.filter_nil, List.eraseDups_nil,
        List.append_nil]
    · rw [List.filter_nil, Search.fresh, List.filter_nil, List.eraseDups_nil, List.map_nil,
        List.append_nil]
      exact gives_pure (seen, queue)
  | cons n names ih =>
    rw [List.foldlM_cons, meet]
    by_cases hseen : n ∈ seen
    · have hfresh : Search.fresh met ((n :: names).filter isReferenceName) =
          Search.fresh met (names.filter isReferenceName) := by
        by_cases href : isReferenceName n = true
        · rw [List.filter_cons_of_pos href, Search.fresh_cons_of_mem ((h n href).mp hseen)]
        · rw [List.filter_cons_of_neg href]
      rw [if_pos (List.contains_iff_mem.mpr hseen), hfresh]
      obtain ⟨after, hafter, hgives⟩ := ih seen met queue h
      exact ⟨after, hafter, (gives_pure (seen, queue)).bind hgives⟩
    · rw [if_neg (mt List.contains_iff_mem.mp hseen)]
      have hresolve := resolve_gives p (some n)
      by_cases href : isReferenceName n = true
      · have hnew : n ∉ met := mt (h n href).mpr hseen
        rw [List.filter_cons_of_pos href, Search.fresh_cons_of_not_mem hnew]
        rw [resolve_of_some (n := n) (by rw [Option.filter_some, if_pos href])] at hresolve
        obtain ⟨after, hafter, hgives⟩ := ih (n :: seen) (n :: met) (queue ++ [p.lookup n])
          (fun k hk => by rw [List.mem_cons, List.mem_cons, h k hk])
        refine ⟨after, fun k hk => ?_, ?_⟩
        · rw [hafter k hk, List.mem_append, List.mem_append, List.mem_cons, List.mem_cons,
            ← or_assoc, or_comm (a := k ∈ met)]
        · rw [List.map_cons, List.append_cons, undeclared_cons]
          exact (hresolve.bind_pure fun found => (n :: seen, queue ++ found.toList)).bind hgives
      · rw [List.filter_cons_of_neg href]
        rw [resolve_of_none (by rw [Option.filter_some, if_neg href])] at hresolve
        obtain ⟨after, hafter, hgives⟩ := ih (n :: seen) met queue (fun k hk => by
          have hne : k ≠ n := fun heq => href (heq ▸ hk)
          rw [List.mem_cons, or_iff_right hne, h k hk])
        refine ⟨after, hafter, ?_⟩
        have hstep := hresolve.bind_pure fun found => (n :: seen, queue ++ found.toList)
        rw [Option.toList_none, List.append_nil] at hstep
        exact hstep.bind hgives

theorem spread_performs (h : ∀ b t, Performs p (visit b t) (look b t)) (t : TypeDecl) (fuel : Nat)
    (seen met : List String) (hseen : ∀ n, isReferenceName n = true → (n ∈ seen ↔ n ∈ met))
    (ht : t.name ∈ met) (names : List String) (b : β) :
    Performs p (spread visit fuel seen (names.map (p.typeOn t)) b)
      (along p look ((Search.visitsFrom (fun n => (p.typeOn t n).supers) fuel met names).map
        fun (n, met) => ⟨p.typeOn t n, met⟩) b) := by
  induction fuel generalizing seen met names b with
  | zero => exact performs_pure b
  | succ fuel ih =>
    cases names with
    | nil => exact performs_pure b
    | cons n names =>
      refine (h b (p.typeOn t n)).bind fun step => ?_
      cases step with
      | done b => exact performs_pure b
      | yield b =>
        obtain ⟨after, hafter, hgives⟩ :=
          meet_gives p (p.typeOn t n).parents seen met (names.map (p.typeOn t)) hseen
        refine hgives.performs_bind ?_
        -- What is met was not seen, so it is not the type that the walk starts from.
        have hlookup : (Search.fresh met (p.typeOn t n).supers).map p.lookup =
            (Search.fresh met (p.typeOn t n).supers).map (p.typeOn t) := by
          refine List.map_congr_left fun k hk => ?_
          have hne : k ≠ t.name := by
            rintro rfl
            exact (Search.mem_fresh.mp hk).2 ht
          rw [Program.typeOn, if_neg (by simpa using hne)]
        have hrest := ih after _ hafter (List.mem_append_left _ ht)
          (names ++ Search.fresh met (p.typeOn t n).supers) b
        rw [List.map_append, ← hlookup] at hrest
        exact hrest

theorem alongSupertypes_performs (h : ∀ b t, Performs p (visit b t) (look b t)) (t : TypeDecl)
    (b : β) : Performs p (alongSupertypes visit t b) (along p look (p.supertypes t) b) := by
  have hself : p.typeOn t t.name = t := by
    rw [Program.typeOn, if_pos (by simp)]
  obtain ⟨a, ha, hgives⟩ := spread_performs h t (p.parentCount t + 1) [t.name]
    [t.name] (fun _ _ => Iff.rfl) List.mem_cons_self [t.name] b
  rw [List.map_singleton, hself] at hgives
  refine ⟨a, ha, ?_⟩
  rintro s hs rfl
  exact hgives s hs rfl

end Walks

/-! ## Questions -/

theorem lift_firstOn (p : Program) (answer : TypeDecl → Option β) (visits : List Visit) :
    (liftM (p.firstOn answer visits) : Lookup (Option β)) =
      along p (fun _ t => pure (match answer t with
        | some b => .done (some b)
        | none => .yield none)) visits none := by
  induction visits with
  | nil => rfl
  | cons v visits ih =>
    rw [Program.firstOn, along]
    cases answer v.type with
    | some b => rfl
    | none =>
      rw [liftM_bind, ih]
      rfl

theorem implementation_performs (p : Program) (t : TypeDecl) (sub : String) :
    Performs p (implementation? t sub) (liftM (p.implementation? t sub)) := by
  unfold Program.implementation?
  rw [lift_firstOn]
  exact alongChain_follows (performs p) (fun _ _ => performs_pure _) t none

theorem firstSupertype_performs (p : Program) (type : Option String)
    (answer : TypeDecl → Option β) :
    Performs p
      (do
        match ← resolve type with
        | none => return none
        | some t => alongSupertypes (first answer) t none)
      (liftM (do
        match ← p.resolve type with
        | none => pure none
        | some t => p.firstOn answer (p.supertypes t) : Trail (Option β))) := by
  rw [liftM_bind]
  refine (resolve_performs p type).bind fun found => ?_
  cases found with
  | none => exact performs_pure none
  | some t =>
    dsimp only
    rw [lift_firstOn]
    exact alongSupertypes_performs (fun _ _ => performs_pure _) t none

theorem run_along_collect (p : Program) (visits : List Visit) (found : List TypeDecl) :
    (along p (fun found t => pure (.yield (found ++ [t]))) visits found).run =
      ⟨.ok (found ++ visits.map Visit.type), p.undeclared (visits.flatMap Visit.looked)⟩ := by
  induction visits generalizing found with
  | nil =>
    rw [List.map_nil, List.append_nil]
    rfl
  | cons v visits ih =>
    refine Trail.ext ?_ ?_
    · change (along p _ visits (found ++ [v.type])).run.value = _
      rw [ih, List.append_assoc]
      rfl
    · change p.undeclared v.looked ++ [] ++ (along p _ visits (found ++ [v.type])).run.names = _
      rw [ih, List.append_nil, List.flatMap_cons]
      exact (List.filter_append _ _).symm

theorem Performs.allOn {x : Access (List TypeDecl)} {visits : List Visit}
    (h : Performs p x (along p (fun found t => pure (.yield (found ++ [t]))) visits [])) :
    Performs p x (liftM (p.allOn visits)) := by
  unfold Performs at h
  rw [run_along_collect] at h
  obtain ⟨found, hfound, hgives⟩ := h
  cases hfound
  exact performs_lift.mpr hgives

theorem chain_performs (p : Program) (t : TypeDecl) :
    Performs p (chain t) (liftM (p.allOn (p.chain t))) :=
  Performs.allOn (alongChain_follows (performs p) (fun _ _ => performs_pure _) t [])

theorem supertypes_performs (p : Program) (t : TypeDecl) :
    Performs p (supertypes t) (liftM (p.allOn (p.supertypes t))) :=
  (alongSupertypes_performs (fun _ _ => performs_pure _) t []).allOn

theorem interfacesOn_eq_along (v : View) (visits : List Visit) (found : List TypeDecl) :
    v.interfacesOn found visits =
      along v.program (Interfaces.visit v.resolve) visits found := by
  induction visits generalizing found with
  | nil => rfl
  | cons visit visits ih =>
    simp only [View.interfacesOn, along, Interfaces.visit, bind_assoc, pure_bind, ih]

section Interfaces

variable {m : Type → Type} [Monad m] [MonadLiftT Access m] {v : View} (S : Following v.program m)
  {look : Option String → m (Option TypeDecl)}

theorem interfacesBy_follows (h : ∀ name, S.Rel (look name) (v.resolve name)) (t : TypeDecl) :
    S.Rel (interfacesBy look t) (v.interfaces t) := by
  unfold View.interfaces
  rw [interfacesOn_eq_along]
  exact alongChain_follows S (Interfaces.visit_rel S.toSimulation h) t []

theorem extendsMarkerBy_follows (h : ∀ name, S.Rel (look name) (v.resolve name)) (t : TypeDecl)
    (marker : Option String) :
    S.Rel (extendsMarkerBy look t marker) (v.extendsMarker t marker) :=
  S.ask (parentRounds_gives v.program t) fun rounds =>
    Interfaces.extendsFrom_rel S.toSimulation h marker rounds [] [t]

end Interfaces

theorem interfaces_performs (p : Program) (t : TypeDecl) :
    Performs p (interfaces t) ((View.ofProgram p).interfaces t) :=
  interfacesBy_follows (v := View.ofProgram p) (performs p) (resolve_performs_view p) t

theorem extendsMarker_performs (p : Program) (t : TypeDecl) (marker : Option String) :
    Performs p (extendsMarker t marker) ((View.ofProgram p).extendsMarker t marker) :=
  extendsMarkerBy_follows (v := View.ofProgram p) (performs p) (resolve_performs_view p) t marker

theorem Sound.subtypes {s : Store} (h : s.Sound) (name : String) :
    (Store.subtypes name s).1 = s.program.subtypes name ∧
      (Store.subtypes name s).2 = { s with index := some (.ofTypes s.program.types) } := by
  have hindex : subtypeIndex s =
      (.ofTypes s.program.types, { s with index := some (.ofTypes s.program.types) }) := by
    unfold subtypeIndex
    cases hi : s.index with
    | none => rfl
    | some index =>
      have hof := h.index index hi
      subst hof
      dsimp only
      rw [← hi]
  change ((Search.reached (subtypeIndex s).1.children
      ((subtypeIndex s).2.program.types.length + 1) name).drop 1) = _ ∧ (subtypeIndex s).2 = _
  rw [hindex]
  refine ⟨?_, rfl⟩
  unfold Program.subtypes Search.reached Search.visits
  rw [Search.visitsFrom_congr (SubtypeIndex.fresh_children_ofTypes s.program)]

/-! ## Histories -/

/-- On the sound stores of a program the access has one answer, and it leaves a sound store of the
    program behind. -/
def Steady (x : Access α) : Prop :=
  ∀ p, ∃ a, ∀ s : Store, s.Sound → s.program = p →
    (x s).1 = a ∧ (x s).2.Sound ∧ (x s).2.program = p

theorem steady_of_performs {x : Access α} {l : Program → Lookup α}
    (h : ∀ p, Performs p x (l p)) : Steady x := by
  intro p
  obtain ⟨a, _, hgives⟩ := h p
  refine ⟨a, fun s hs hp => ?_⟩
  rw [hgives s hs hp]
  exact ⟨rfl, hs.remember _, hp⟩

theorem answer_steady (q : Query) : Steady (answer q) := by
  cases q with
  | resolve name => exact steady_of_performs fun p => resolve_performs p name
  | get name => exact fun p => ⟨p.get? name, fun s hs hp => ⟨hp ▸ rfl, hs, hp⟩⟩
  | isApplication name => exact fun p => ⟨p.isApplication name, fun s hs hp => ⟨hp ▸ rfl, hs, hp⟩⟩
  | applicationTypes => exact fun p => ⟨p.applicationTypes, fun s hs hp => ⟨hp ▸ rfl, hs, hp⟩⟩
  | method signature =>
    exact fun p => ⟨p.method? signature, fun s hs hp => ⟨hp ▸ hs.methods signature, hs, hp⟩⟩
  | methods => exact fun p => ⟨p.methods, fun s hs hp => ⟨hp ▸ rfl, hs, hp⟩⟩
  | fieldType type field => exact steady_of_performs fun p => firstSupertype_performs p type _
  | findMethod type name args =>
    exact steady_of_performs fun p => firstSupertype_performs p type _
  | subtypes name =>
    refine fun p => ⟨p.subtypes name, fun s hs hp => ?_⟩
    obtain ⟨hanswer, hafter⟩ := hs.subtypes name
    refine ⟨hp ▸ hanswer, ?_, ?_⟩
    · change (Store.subtypes name s).2.Sound
      rw [hafter]
      refine ⟨hs.phantoms, hs.methods, fun index hindex => ?_⟩
      cases hindex
      rfl
    · change (Store.subtypes name s).2.program = p
      rw [hafter, hp]
  | chain t => exact steady_of_performs fun p => chain_performs p t
  | supertypes t => exact steady_of_performs fun p => supertypes_performs p t
  | interfaces t => exact steady_of_performs fun p => interfaces_performs p t
  | extendsMarker t marker => exact steady_of_performs fun p => extendsMarker_performs p t marker
  | implementation t sub => exact steady_of_performs fun p => implementation_performs p t sub

end Performs

/-- What is done to a store. -/
inductive Operation where
  | declare (t : TypeDecl)
  | ask (q : Query)

/-- The type that is declared, if one is. -/
def Operation.declared? : Operation → Option TypeDecl
  | .declare t => some t
  | .ask _ => none

/-- The store after an operation. -/
def perform (s : Store) : Operation → Store
  | .declare t => s.declare t
  | .ask q => (answer q s).2

/-- The store after a history of operations. -/
def after (history : List Operation) : Store :=
  history.foldl perform empty

/-- One operation keeps a store sound, and only a declaration changes its program. -/
theorem Sound.perform {s : Store} (h : s.Sound) (o : Operation) :
    (s.perform o).Sound ∧
      (s.perform o).program = o.declared?.toList.foldl Program.declare s.program := by
  cases o with
  | declare t => exact ⟨h.declare t, s.program_declare t⟩
  | ask q =>
    obtain ⟨_, hsteady⟩ := answer_steady q s.program
    exact (hsteady s h rfl).2

theorem Sound.foldl_perform {s : Store} (h : s.Sound) (history : List Operation) :
    (history.foldl Store.perform s).Sound ∧
      (history.foldl Store.perform s).program =
        (history.filterMap Operation.declared?).foldl Program.declare s.program := by
  induction history generalizing s with
  | nil => exact ⟨h, rfl⟩
  | cons o history ih =>
    obtain ⟨hsound, hprogram⟩ := h.perform o
    obtain ⟨hrest, hdeclared⟩ := ih hsound
    refine ⟨hrest, hdeclared.trans ?_⟩
    rw [hprogram]
    cases o with
    | declare t => rfl
    | ask q => rfl

/-- Whatever was declared and asked, a question is answered as it is by a new store in which the
    same types were declared and nothing was asked. -/
theorem answer_after_history (history : List Operation) (q : Query) :
    (answer q (after history)).1 =
      (answer q (ofTypes (history.filterMap Operation.declared?))).1 := by
  obtain ⟨hsound, hprogram⟩ := sound_empty.foldl_perform history
  have hnew := sound_empty.foldl_perform
    ((history.filterMap Operation.declared?).map Operation.declare)
  rw [List.foldl_map, List.filterMap_map] at hnew
  obtain ⟨hsound', hprogram'⟩ := hnew
  have hdeclared : (history.filterMap Operation.declared?).filterMap
      (Operation.declared? ∘ Operation.declare) = history.filterMap Operation.declared? :=
    List.filterMap_some
  rw [hdeclared] at hprogram'
  obtain ⟨a, hsteady⟩ := answer_steady q (after history).program
  exact (hsteady _ hsound rfl).1.trans
    (hsteady _ hsound' (hprogram'.trans hprogram.symm)).1.symm

end Store
end ServiceReach
