import ServiceReach.Proofs.EntryPoint.Idempotence
import ServiceReach.Proofs.EntryPoint.Registrations

/-
  What unprotected receivers expose. `Registers` says which calls leave a receiver open to
  everybody, by the number of their arguments and the one that stands for the permission. The
  strategy for receivers always returns: it lists the callbacks of the receivers that can be looked
  up, and records one diagnostic for every other registration, in the order of the calls
  (`collect_receivers_exact`).
-/

namespace ServiceReach

/-- The call asks for no permission: it has two arguments, or at least four with `null` for the
    third. -/
def CallSite.AsksNothing (site : CallSite) : Prop :=
  site.args.length = 2 ∨ (4 ≤ site.args.length ∧ site.args[2]?.any Argument.isNull = true)

instance (site : CallSite) : Decidable site.AsksNothing :=
  inferInstanceAs (Decidable (_ ∨ _))

/-- The type of the first argument. -/
def CallSite.firstType? (site : CallSite) : Option String :=
  site.args[0]?.bind Argument.type

/-- The call registers an object of the type `receiver`, a class or interface, and asks for no
    permission. -/
def Heuristics.Registers (h : Heuristics) (site : CallSite) (receiver : String) : Prop :=
  site.name ∈ h.receiverCalls ∧ site.AsksNothing ∧ site.firstType? = some receiver ∧
    isReferenceName receiver = true

instance (h : Heuristics) (site : CallSite) (receiver : String) :
    Decidable (h.Registers site receiver) :=
  inferInstanceAs (Decidable (_ ∧ _))

namespace View

variable {v : View} {h : Heuristics}

/-- The diagnostic about a registration whose receiver cannot be looked up. -/
def lost? (v : View) (h : Heuristics) (m : Method) (site : CallSite) : Option Diagnostic :=
  site.firstType?.bind fun receiver =>
    if h.Registers site receiver ∧ receiver ∈ v.failing then
      some ⟨m.signature, site.line, failedMessage site ⟨receiver⟩⟩
    else none

theorem unprotectedReceiver?_eq_some_iff {site : CallSite} {argument : Argument} :
    unprotectedReceiver? site.args = some argument ↔
      site.AsksNothing ∧ site.args[0]? = some argument := by
  unfold CallSite.AsksNothing
  match site.args with
  | [] => simp [unprotectedReceiver?]
  | [_] => simp [unprotectedReceiver?]
  | [_, _] => simp [unprotectedReceiver?]
  | [_, _, _] => simp [unprotectedReceiver?]
  | _ :: _ :: permission :: _ :: _ => simp [unprotectedReceiver?]

/-- A call of a registering method registers the type of the receiver that it leaves unprotected. -/
theorem registers_iff {site : CallSite} {receiver : String} :
    h.Registers site receiver ↔ site.name ∈ h.receiverCalls ∧ ∃ argument,
      unprotectedReceiver? site.args = some argument ∧ argument.type = some receiver ∧
      isReferenceName receiver = true := by
  unfold Heuristics.Registers CallSite.firstType?
  simp only [unprotectedReceiver?_eq_some_iff, Option.bind_eq_some_iff]
  constructor
  · rintro ⟨hname, hopen, ⟨argument, hargument, htype⟩, href⟩
    exact ⟨hname, argument, ⟨hopen, hargument⟩, htype, href⟩
  · rintro ⟨hname, argument, ⟨hopen, hargument⟩, htype, href⟩
    exact ⟨hname, hopen, ⟨argument, hargument, htype⟩, href⟩

theorem receives_iff {p : Program} {receiver : String} {m : Method} :
    p.Receives h receiver m ↔ ∃ site, p.ApplicationCall site ∧ h.Registers site receiver ∧
      ∃ sub, h.receiverCallback = .text sub ∧ (p.lookup receiver).declared? sub = some m := by
  unfold Program.Receives
  simp only [registers_iff]
  constructor
  · rintro ⟨site, hcall, hname, argument, hargument, htype, href, hcallback⟩
    exact ⟨site, hcall, ⟨hname, argument, hargument, htype, href⟩, hcallback⟩
  · rintro ⟨site, hcall, ⟨hname, argument, hargument, htype, href⟩, hcallback⟩
    exact ⟨site, hcall, hname, argument, hargument, htype, href, hcallback⟩

/-! ## Diagnostics -/

theorem lost?_of_registers {m : Method} {site : CallSite} {receiver : String}
    (hsite : h.Registers site receiver) :
    v.lost? h m site =
      if receiver ∈ v.failing then some ⟨m.signature, site.line, failedMessage site ⟨receiver⟩⟩
      else none := by
  unfold lost?
  rw [hsite.2.2.1, Option.bind_some]
  simp only [hsite, true_and]

theorem lost?_of_not_registers {m : Method} {site : CallSite}
    (hsite : ∀ receiver, ¬ h.Registers site receiver) : v.lost? h m site = none := by
  unfold lost?
  simp only [hsite, false_and, if_false, Option.bind_fun_none]

/-- Looking at a call of a registering method brings a diagnostic exactly if the receiver that it
    leaves unprotected cannot be looked up. -/
theorem diagnostic?_inspectReceiver {site : CallSite} (hname : site.name ∈ h.receiverCalls)
    (m : Method) : diagnostic? m site (v.inspectReceiver h site) = v.lost? h m site := by
  unfold inspectReceiver
  cases hreceiver : (unprotectedReceiver? site.args).filter Argument.isReference with
  | none =>
    rw [lost?_of_not_registers]
    · rfl
    · intro receiver hregisters
      obtain ⟨_, argument, hargument, htype, href⟩ := registers_iff.mp hregisters
      have hreference : argument.isReference = true := by
        rw [Argument.isReference, htype, isReference, href]
      rw [Option.filter_eq_some_iff.mpr ⟨hargument, hreference⟩] at hreceiver
      cases hreceiver
  | some argument =>
    obtain ⟨hargument, hreference⟩ := Option.filter_eq_some_iff.mp hreceiver
    obtain ⟨receiver, htype, href, hvalue⟩ := value_resolve_type (v := v) hreference
    have hregisters : h.Registers site receiver :=
      registers_iff.mpr ⟨hname, argument, hargument, htype, href⟩
    dsimp only
    rw [hvalue, lost?_of_registers hregisters]
    by_cases hfailing : receiver ∈ v.failing
    · rw [if_pos hfailing, if_pos hfailing]
      rfl
    · rw [if_neg hfailing, if_neg hfailing]
      dsimp only
      split
      · rfl
      · rfl

theorem diagnostics_receivers (v : View) (h : Heuristics) :
    (v.receivers h).diagnostics = v.registrationSites.filterMap fun s => v.lost? h s.1 s.2 := by
  have hscan : (v.receivers h).diagnostics =
      (v.registrationSites.filter fun s => h.receiverCalls.contains s.2.name).filterMap
        fun s => diagnostic? s.1 s.2 (v.inspectReceiver h s.2) :=
    diagnostics_foldl_addInspection (v.inspectReceiver h) _ { found := [] }
  rw [hscan, List.filterMap_filter]
  refine List.filterMap_congr fun s _ => ?_
  by_cases hname : s.2.name ∈ h.receiverCalls
  · rw [if_pos (List.contains_iff_mem.mpr hname)]
    exact diagnostic?_inspectReceiver hname s.1
  · rw [if_neg (fun hcontains => hname (List.contains_iff_mem.mp hcontains))]
    exact (lost?_of_not_registers fun receiver hregisters => hname hregisters.1).symm

/-- Whatever names cannot be looked up, the strategy for receivers returns: it lists, one for each
    signature, the callbacks that the registered types which can be looked up declare, and it
    records, in the order of the calls, one diagnostic for each registration of a type that cannot.
    On a shared store it answers the same and adds its diagnostics to those there. -/
theorem collect_receivers_exact (v : View) (h : Heuristics) :
    ∃ methods log,
      v.collect h .receivers =
        ⟨.ok methods, v.registrationSites.filterMap (fun s => v.lost? h s.1 s.2), log⟩ ∧
      Method.Lists methods (fun m =>
        ∃ site receiver, v.program.ApplicationCall site ∧ h.Registers site receiver ∧
          receiver ∉ v.failing ∧ ∃ sub, h.receiverCallback = .text sub ∧
            (v.program.lookup receiver).declared? sub = some m) ∧
      ServiceReach.Brings v.program (Window.collect ⟨v.failing⟩ h .receivers)
        ⟨.ok methods, v.registrationSites.filterMap (fun s => v.lost? h s.1 s.2), log⟩ := by
  have hcollect : v.collect h .receivers = ⟨.ok (v.receivers h).found,
      v.registrationSites.filterMap (fun s => v.lost? h s.1 s.2), (v.receivers h).log⟩ := by
    rw [← diagnostics_receivers]
    rfl
  refine ⟨_, _, hcollect, ?_, ?_⟩
  · refine (receivers_lists v h).congr fun m => ?_
    simp only [receives_iff]
    constructor
    · rintro ⟨receiver, hfine, site, hcall, hregisters, hcallback⟩
      exact ⟨site, receiver, hcall, hregisters, hfine, hcallback⟩
    · rintro ⟨site, receiver, hcall, hregisters, hfine, hcallback⟩
      exact ⟨receiver, hfine, site, hcall, hregisters, hcallback⟩
  · have hbrings := Window.collect_brings ⟨v.failing⟩ v.program h .receivers
    have hview : (Window.view ⟨v.failing⟩ v.program).collect h .receivers =
        v.collect h .receivers := rfl
    rw [hview, hcollect] at hbrings
    exact hbrings

end View
end ServiceReach
