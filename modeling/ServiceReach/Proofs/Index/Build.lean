import ServiceReach.Index.Build
import ServiceReach.Proofs.Index.Scan
import ServiceReach.Proofs.Model.Program

/-
  The program of a catalog. Where no name is declared twice, no declaration is lost: the types of
  the program are the lowered declarations, one by one and in order, and the names looked up are
  those that lowering each of them looks up.
-/

namespace ServiceReach

theorem Trail.value_mapM {α β : Type} (f : α → Trail β) (l : List α) :
    (l.mapM f).value = l.map fun a => (f a).value := by
  induction l with
  | nil => rfl
  | cons a l ih => simp only [List.mapM_cons, value_bind, value_pure, ih, List.map_cons]

theorem Trail.names_mapM {α β : Type} (f : α → Trail β) (l : List α) :
    (l.mapM f).names = l.flatMap fun a => (f a).names := by
  induction l with
  | nil => rfl
  | cons a l ih =>
    simp only [List.mapM_cons, names_bind, names_pure, ih, List.append_nil, List.flatMap_cons]

namespace Index

theorem Declaration.head_name (d : Declaration) (c : Catalog) (scopes : Scopes) :
    (d.head c scopes).name = d.name := by
  unfold head
  split
  · rfl
  · dsimp only
    split <;> rfl
  · rfl

namespace Catalog

variable {c : Catalog}

/-- The linked types, without code. -/
def heads (c : Catalog) : Program :=
  Program.ofTypes (c.link.map LinkedType.type)

/-- The lowered type of a linked one. -/
def lowered (c : Catalog) (t : LinkedType) : TypeDecl :=
  (c.lowerType c.heads t).value.1

theorem names_link (c : Catalog) : c.link.map (fun t => t.type.name) = c.names := by
  rw [link, List.map_map]
  exact List.map_congr_left fun d _ => d.head_name c c.scopes

theorem types_heads (h : c.names.Nodup) : c.heads.types = c.link.map LinkedType.type := by
  refine Program.types_ofTypes ?_
  rw [List.map_map]
  exact (names_link c).symm ▸ h

theorem types_build (h : c.names.Nodup) : c.build.program.types = c.link.map c.lowered := by
  have htypes : c.build.program = Program.ofTypes (c.link.map c.lowered) := by
    unfold build
    simp only [Trail.value_mapM, List.map_map]
    rfl
  rw [htypes]
  refine Program.types_ofTypes ?_
  rw [List.map_map]
  exact (names_link c).symm ▸ h

theorem names_build (c : Catalog) :
    c.build.names = c.link.flatMap fun t => (c.lowerType c.heads t).names :=
  Trail.names_mapM _ _

/-- A method stays as it was linked, or gets the code of its body. -/
theorem lowerMethod_cases (c : Catalog) (p : Program) (d : Declaration) (m : LinkedMethod) :
    (c.lowerMethod p d m).value.1 = m.method ∨ ∃ body code, m.body = some body ∧
      ((c.place p d m.method).lower m.method m.params body).run.value = .ok code ∧
      (c.lowerMethod p d m).value.1 = { m.method with code } := by
  unfold lowerMethod
  cases m.body with
  | none => exact Or.inl rfl
  | some body =>
    dsimp only
    rw [Trail.value_bind]
    cases hlower : ((c.place p d m.method).lower m.method m.params body).run.value with
    | error e =>
      cases e
      exact Or.inl rfl
    | ok code => exact Or.inr ⟨body, code, rfl, hlower, rfl⟩

end Catalog
end Index
end ServiceReach
