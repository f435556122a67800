import ServiceReach.Model.Trail

/-
  What computations that look types up and may fail bring. `Ensures` is about the answer if there is
  one, `Returns` says that there is one, and `Yields` is about both outcomes, the answer and the
  failure. They are carried through a sequence of computations by one rule for each way to put
  computations together.
-/

namespace ServiceReach.Trail

variable {ε α β : Type}

/-- Whatever the computation answers satisfies the condition. -/
def Ensures (x : ExceptT ε Trail α) (Q : α → Prop) : Prop :=
  ∀ a, x.run.value = .ok a → Q a

/-- The computation does not fail, and its answer satisfies the condition. -/
def Returns (x : ExceptT ε Trail α) (Q : α → Prop) : Prop :=
  ∃ a, x.run.value = .ok a ∧ Q a

theorem value_run_bind (x : ExceptT ε Trail α) (f : α → ExceptT ε Trail β) :
    (x >>= f).run.value =
      match x.run.value with
      | .ok a => (f a).run.value
      | .error e => .error e := by
  change (ExceptT.bindCont f x.run.value).value = _
  cases x.run.value with
  | ok a => rfl
  | error e => rfl

theorem value_run_bind_of_error {x : ExceptT ε Trail α} {e : ε} (h : x.run.value = .error e)
    (f : α → ExceptT ε Trail β) : (x >>= f).run.value = .error e := by
  rw [value_run_bind, h]

theorem exists_ok_of_map {x : Except ε α} {f : α → β} {b : β} (h : x.map f = .ok b) :
    ∃ a, x = .ok a ∧ f a = b := by
  cases x with
  | error e => cases h
  | ok a => exact ⟨a, rfl, Except.ok.inj h⟩

theorem names_run_bind (x : ExceptT ε Trail α) (f : α → ExceptT ε Trail β) :
    (x >>= f).run.names =
      x.run.names ++
        match x.run.value with
        | .ok a => (f a).run.names
        | .error _ => [] := by
  change x.run.names ++ (ExceptT.bindCont f x.run.value).names = _
  cases x.run.value with
  | ok a => rfl
  | error e => rfl

theorem names_run_lift (x : Trail α) : (liftM x : ExceptT ε Trail α).run.names = x.names :=
  List.append_nil x.names

/-! ## Conditions on the answer -/

namespace Ensures

variable {x : ExceptT ε Trail α} {P Q : α → Prop}

theorem pure {a : α} (h : Q a) : Ensures (Pure.pure a : ExceptT ε Trail α) Q := by
  intro b hb
  cases hb
  exact h

theorem lift {t : Trail α} (h : Q t.value) : Ensures (liftM t : ExceptT ε Trail α) Q := by
  intro a ha
  cases ha
  exact h

theorem bind {f : α → ExceptT ε Trail β} {R : β → Prop} (hx : Ensures x P)
    (hf : ∀ a, P a → Ensures (f a) R) : Ensures (x >>= f) R := by
  intro b hb
  rw [value_run_bind] at hb
  cases ha : x.run.value with
  | ok a =>
    rw [ha] at hb
    exact hf a (hx a ha) b hb
  | error e =>
    rw [ha] at hb
    cases hb

theorem trivial (x : ExceptT ε Trail α) : Ensures x fun _ => True :=
  fun _ _ => True.intro

theorem imp (h : Ensures x P) (hQ : ∀ a, P a → Q a) : Ensures x Q :=
  fun a ha => hQ a (h a ha)

theorem foldlM {f : α → β → ExceptT ε Trail α} (hf : ∀ a b, P a → Ensures (f a b) P)
    (l : List β) {a : α} (ha : P a) : Ensures (l.foldlM f a) P := by
  induction l generalizing a with
  | nil => exact Ensures.pure ha
  | cons b l ih =>
    rw [List.foldlM_cons]
    exact (hf a b ha).bind fun _ ha' => ih ha'

end Ensures

/-! ## Answers -/

namespace Returns

variable {x : ExceptT ε Trail α} {P Q : α → Prop}

theorem pure {a : α} (h : Q a) : Returns (Pure.pure a : ExceptT ε Trail α) Q :=
  ⟨a, rfl, h⟩

theorem lift {t : Trail α} (h : Q t.value) : Returns (liftM t : ExceptT ε Trail α) Q :=
  ⟨t.value, rfl, h⟩

theorem bind {f : α → ExceptT ε Trail β} {R : β → Prop} (hx : Returns x P)
    (hf : ∀ a, P a → Returns (f a) R) : Returns (x >>= f) R := by
  obtain ⟨a, ha, hp⟩ := hx
  obtain ⟨b, hb, hr⟩ := hf a hp
  refine ⟨b, ?_, hr⟩
  rw [value_run_bind, ha]
  exact hb

theorem foldlM {f : α → β → ExceptT ε Trail α} {l : List β}
    (hf : ∀ a, ∀ b ∈ l, P a → Returns (f a b) P) {a : α} (ha : P a) :
    Returns (l.foldlM f a) P := by
  induction l generalizing a with
  | nil => exact Returns.pure ha
  | cons b l ih =>
    rw [List.foldlM_cons]
    exact (hf a b List.mem_cons_self ha).bind fun _ ha' =>
      ih (fun a b hb => hf a b (List.mem_cons_of_mem _ hb)) ha'

end Returns

/-! ## Answers and failures -/

/-- The outcome is an answer that satisfies `Q`, or a failure that satisfies `E`. -/
def Settles (r : Except ε α) (Q : α → Prop) (E : ε → Prop) : Prop :=
  match r with
  | .ok a => Q a
  | .error e => E e

theorem Settles.imp {r : Except ε α} {P Q : α → Prop} {E F : ε → Prop} (h : Settles r P E)
    (hQ : ∀ a, P a → Q a) (hF : ∀ e, E e → F e) : Settles r Q F := by
  cases r with
  | ok a => exact hQ a h
  | error e => exact hF e h

/-- The computation answers with something that satisfies `Q`, or fails with something that
    satisfies `E`. -/
def Yields (x : ExceptT ε Trail α) (Q : α → Prop) (E : ε → Prop) : Prop :=
  Settles x.run.value Q E

namespace Yields

variable {x : ExceptT ε Trail α} {P Q : α → Prop} {E F : ε → Prop}

theorem pure {a : α} (h : Q a) : Yields (Pure.pure a : ExceptT ε Trail α) Q E := h

theorem lift {t : Trail α} (h : Q t.value) : Yields (liftM t : ExceptT ε Trail α) Q E := h

theorem throw {e : ε} (h : E e) : Yields (MonadExcept.throw e : ExceptT ε Trail α) Q E := h

theorem imp (h : Yields x P E) (hQ : ∀ a, P a → Q a) (hF : ∀ e, E e → F e) : Yields x Q F :=
  Settles.imp h hQ hF

theorem ensures (h : Yields x Q E) : Ensures x Q := by
  intro a ha
  unfold Yields at h
  rw [ha] at h
  exact h

theorem bind {f : α → ExceptT ε Trail β} {R : β → Prop} (hx : Yields x P E)
    (hf : ∀ a, P a → Yields (f a) R E) : Yields (x >>= f) R E := by
  unfold Yields at *
  rw [value_run_bind]
  cases ha : x.run.value with
  | ok a =>
    rw [ha] at hx
    exact hf a hx
  | error e =>
    rw [ha] at hx
    exact hx

/-- The condition on the answer may speak about the items that are done. -/
theorem foldlM {f : α → β → ExceptT ε Trail α} {P : List β → α → Prop} {d l : List β}
    (hf : ∀ done a, ∀ b ∈ l, P done a → Yields (f a b) (P (done ++ [b])) E) {a : α}
    (ha : P d a) : Yields (l.foldlM f a) (P (d ++ l)) E := by
  induction l generalizing d a with
  | nil => exact Yields.pure (by rwa [List.append_nil])
  | cons b l ih =>
    rw [List.foldlM_cons, List.append_cons]
    exact (hf d a b List.mem_cons_self ha).bind fun _ ha' =>
      ih (fun done a b hb => hf done a b (List.mem_cons_of_mem _ hb)) ha'

end Yields
end ServiceReach.Trail
