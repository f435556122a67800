/-
  Answers with a trail. Looking a type up by name answers even if nobody declares the name; the
  program then remembers the name. A trail is an answer together with the names that were looked up
  and are not declared, in order. The answer never depends on the names.
-/

namespace ServiceReach

/-- An answer and the undeclared names that were looked up for it. -/
structure Trail (α : Type) where
  value : α
  names : List String

namespace Trail

/-- An answer that needs no look-up. -/
def ofValue {α : Type} (a : α) : Trail α := ⟨a, []⟩

/-- Looks names up. -/
def look (names : List String) : Trail Unit := ⟨(), names⟩

/-- Goes on from an answer. -/
def andThen {α β : Type} (x : Trail α) (f : α → Trail β) : Trail β :=
  let y := f x.value
  ⟨y.value, x.names ++ y.names⟩

instance : Monad Trail where
  pure := ofValue
  bind := andThen

@[simp]
theorem value_pure {α : Type} (a : α) : (pure a : Trail α).value = a := rfl

@[simp]
theorem names_pure {α : Type} (a : α) : (pure a : Trail α).names = [] := rfl

@[simp]
theorem value_bind {α β : Type} (x : Trail α) (f : α → Trail β) :
    (x >>= f).value = (f x.value).value := rfl

@[simp]
theorem names_bind {α β : Type} (x : Trail α) (f : α → Trail β) :
    (x >>= f).names = x.names ++ (f x.value).names := rfl

@[simp]
theorem value_look (names : List String) : (look names).value = () := rfl

@[simp]
theorem names_look (names : List String) : (look names).names = names := rfl

@[ext]
theorem ext {α : Type} {x y : Trail α} (hv : x.value = y.value) (hn : x.names = y.names) :
    x = y := by
  cases x
  cases y
  simp_all

instance : LawfulMonad Trail :=
  LawfulMonad.mk' Trail
    (fun x => by ext1 <;> simp [Functor.map, andThen, ofValue])
    (fun a f => by ext1 <;> simp)
    (fun x f g => by ext1 <;> simp [List.append_assoc])

end Trail
end ServiceReach
