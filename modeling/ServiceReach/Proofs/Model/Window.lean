import ServiceReach.Model.Window
import ServiceReach.Proofs.Model.Store

/-
  A window on a sound store shows what a view of the program shows. Here only answers count, not the
  phantoms left behind: an access `Tells` its answer if it has it on every sound store of the
  program and leaves such a store behind. A probe `Shows` a look-up if it tells its outcome, be it
  an answer or a failing name; this is a way to follow look-ups, as performing them is. Each
  question that is asked through a window shows the look-up that answers it in the view with the
  same failing names (`remoteMethods_shows`).
-/

namespace ServiceReach

namespace Store

variable {p : Program} {α β : Type}

/-- On every sound store of the program the access has the answer, and it leaves a sound store of
    the program behind. -/
def Tells (p : Program) (x : Access α) (a : α) : Prop :=
  ∀ s : Store, s.Sound → s.program = p → (x s).1 = a ∧ (x s).2.Sound ∧ (x s).2.program = p

theorem tells_pure (a : α) : Tells p (pure a) a :=
  fun _ hs hp => ⟨rfl, hs, hp⟩

theorem Tells.bind {x : Access α} {a : α} {f : α → Access β} {b : β} (hx : Tells p x a)
    (hf : Tells p (f a) b) : Tells p (x >>= f) b := by
  intro s hs hp
  obtain ⟨ha, hsound, hprogram⟩ := hx s hs hp
  have hrest := hf (x s).2 hsound hprogram
  rw [← ha] at hrest
  exact hrest

theorem Gives.tells {x : Access α} {a : α} {names : List String} (h : Gives p x a names) :
    Tells p x a := by
  intro s hs hp
  rw [h s hs hp]
  exact ⟨rfl, hs.remember names, hp⟩

theorem firstOnChain_tells (answer : TypeDecl → Option β) (t : TypeDecl) :
    Tells p (alongChain (first answer) t none) (p.firstOn answer (p.chain t)).value := by
  have hwalk : Performs p (alongChain (first answer) t none)
      (liftM (p.firstOn answer (p.chain t))) := by
    rw [lift_firstOn]
    exact alongChain_follows (performs p) (fun _ _ => performs_pure _) t none
  exact (performs_lift.mp hwalk).tells

end Store

open Store

section Shows

variable {p : Program} {α β : Type}

theorem Tells.probe_bind {x : Probe α} {r : Except Unresolvable α} {f : α → Probe β}
    {g : α → Except Unresolvable β} (hx : Tells p x.run r) (hf : ∀ a, Tells p (f a).run (g a)) :
    Tells p (x >>= f).run (r >>= g) := by
  change Tells p (x.run >>= ExceptT.bindCont f) _
  refine Tells.bind hx ?_
  cases r with
  | error e => exact tells_pure (Except.error e)
  | ok a => exact hf a

/-- The probe tells the outcome of the look-up. -/
def Shows (p : Program) (x : Probe α) (l : Lookup α) : Prop :=
  Tells p x.run l.run.value

theorem shows_pure (a : α) : Shows p (pure a) (pure a) :=
  fun _ hs hp => ⟨rfl, hs, hp⟩

theorem shows_throw (e : Unresolvable) : Shows p (throw e : Probe α) (throw e) :=
  fun _ hs hp => ⟨rfl, hs, hp⟩

theorem shows_lift {x : Access α} {t : Trail α} (h : Tells p x t.value) :
    Shows p (liftM x) (liftM t) := by
  intro s hs hp
  obtain ⟨hvalue, hafter⟩ := h s hs hp
  exact ⟨congrArg Except.ok hvalue, hafter⟩

theorem Shows.bind {x : Probe α} {l : Lookup α} {f : α → Probe β} {g : α → Lookup β}
    (hx : Shows p x l) (hf : ∀ a, Shows p (f a) (g a)) : Shows p (x >>= f) (l >>= g) := by
  have hvalue : (l >>= g).run.value = l.run.value >>= fun a => (g a).run.value := by
    rw [Trail.value_run_bind]
    cases l.run.value with
    | error e => rfl
    | ok a => rfl
  unfold Shows
  rw [hvalue]
  exact Tells.probe_bind hx hf

/-- Probes follow the look-ups that they show. -/
def shows (p : Program) : Following p Probe where
  Rel x l := Shows p x l
  pure := shows_pure
  bind := Shows.bind
  lift h := shows_lift h.tells

end Shows

namespace Window

variable (w : Window) (p : Program)

/-- The view in which the names that fail in a window fail. -/
def view (w : Window) (p : Program) : View :=
  { program := p, failing := w.failing }

/-! ## Interfaces -/

theorem resolve_shows (name : Option String) :
    Shows p (w.resolve name) ((w.view p).resolve name) := by
  unfold resolve View.resolve
  cases name with
  | none => exact shows_pure none
  | some n =>
    dsimp only
    by_cases hfailing : w.failing.contains n = true
    · rw [if_pos hfailing, if_pos (show (w.view p).failing.contains n = true from hfailing)]
      exact shows_throw ⟨n⟩
    · rw [if_neg hfailing, if_neg (show ¬ (w.view p).failing.contains n = true from hfailing)]
      exact shows_lift (resolve_gives p (some n)).tells

theorem interfaces_shows (t : TypeDecl) :
    Shows p (w.interfaces t) ((w.view p).interfaces t) :=
  interfacesBy_follows (v := w.view p) (shows p) (w.resolve_shows p) t

/-! ## Remote methods -/

theorem extendsMarker_shows (t : TypeDecl) (marker : Option String) :
    Shows p (w.extendsMarker t marker) ((w.view p).extendsMarker t marker) :=
  extendsMarkerBy_follows (v := w.view p) (shows p) (w.resolve_shows p) t marker

theorem isSubclass_tells (t : TypeDecl) (root : Option String) :
    Tells p (isSubclass t root) (p.isSubclass t root).value :=
  (firstOnChain_tells _ t).bind (tells_pure _)

theorem addImplementations_shows (service : TypeDecl) (found : List Method) (ms : List Method) :
    Shows p (liftM (addImplementations service found ms))
      ((w.view p).addImplementations service found ms) := by
  induction ms generalizing found with
  | nil => exact shows_pure found
  | cons m ms ih =>
    rw [addImplementations, View.addImplementations, liftM_bind]
    refine (shows_lift (firstOnChain_tells _ service)).bind fun found => ?_
    cases found with
    | none => exact ih _
    | some i => exact ih _

theorem addRemote_shows (service : TypeDecl) (marker : Option String) (found : List Method)
    (types : List TypeDecl) :
    Shows p (w.addRemote service marker found types)
      ((w.view p).addRemote service marker found types) := by
  induction types generalizing found with
  | nil => exact shows_pure found
  | cons i types ih =>
    rw [addRemote, View.addRemote]
    refine (w.extendsMarker_shows p i marker).bind fun remote => ?_
    cases remote with
    | true => exact (w.addImplementations_shows p service found i.methods).bind ih
    | false => exact ih found

theorem remoteMethods_shows (service : TypeDecl) (marker : Option String) :
    Shows p (w.remoteMethods service marker) ((w.view p).remoteMethods service marker) :=
  (w.interfaces_shows p service).bind fun types => w.addRemote_shows p service marker [] types

end Window
end ServiceReach
