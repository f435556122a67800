import ServiceReach.Model.Interfaces

/-
  Computations of two kinds that go along with each other. A simulation is a relation between them
  that holds of the same answers and is kept by sequencing, and so by everything that is built from
  these two. Where two ways to look a type up go along with each other, so do the walks over
  interfaces that use them.
-/

namespace ServiceReach

/-- A relation between computations of two kinds that goes along with sequencing. -/
structure Simulation (m n : Type → Type) [Monad m] [Monad n] where
  Rel {α : Type} : m α → n α → Prop
  pure {α : Type} (a : α) : Rel (Pure.pure a) (Pure.pure a)
  bind {α β : Type} {x : m α} {y : n α} {f : α → m β} {g : α → n β} :
    Rel x y → (∀ a, Rel (f a) (g a)) → Rel (x >>= f) (y >>= g)

namespace Simulation

variable {m n : Type → Type} [Monad m] [Monad n] (S : Simulation m n) {α β : Type}

theorem foldlM {f : α → β → m α} {g : α → β → n α} (h : ∀ a b, S.Rel (f a b) (g a b))
    (l : List β) (a : α) : S.Rel (l.foldlM f a) (l.foldlM g a) := by
  induction l generalizing a with
  | nil => exact S.pure a
  | cons b l ih =>
    rw [List.foldlM_cons, List.foldlM_cons]
    exact S.bind (h a b) ih

end Simulation

namespace Interfaces

variable {m n : Type → Type} [Monad m] [Monad n] (S : Simulation m n)
  {look : Option String → m (Option TypeDecl)} {look' : Option String → n (Option TypeDecl)}

theorem add_rel (h : ∀ name, S.Rel (look name) (look' name)) (found : List TypeDecl)
    (name : String) : S.Rel (add look found name) (add look' found name) := by
  unfold add
  split
  · exact S.pure found
  · exact S.bind (h (some name)) fun _ => S.pure _

theorem visit_rel (h : ∀ name, S.Rel (look name) (look' name)) (found : List TypeDecl)
    (t : TypeDecl) : S.Rel (visit look found t) (visit look' found t) :=
  S.bind (S.foldlM (add_rel S h) t.interfaces found) fun _ => S.pure _

theorem extendsFrom_rel (h : ∀ name, S.Rel (look name) (look' name)) (marker : Option String)
    (fuel : Nat) (seen : List String) (stack : List TypeDecl) :
    S.Rel (extendsFrom look marker fuel seen stack) (extendsFrom look' marker fuel seen stack) := by
  induction fuel generalizing seen stack with
  | zero => exact S.pure false
  | succ fuel ih =>
    cases stack with
    | nil => exact S.pure false
    | cons t stack =>
      unfold extendsFrom
      split
      · exact S.pure true
      · split
        · exact ih seen stack
        · have hpush : ∀ stack name, S.Rel (push look stack name) (push look' stack name) :=
            fun stack name => S.bind (h (some name)) fun _ => S.pure _
          exact S.bind (S.foldlM hpush _ stack) fun stack => ih (t.name :: seen) stack

end Interfaces
end ServiceReach
