import ServiceReach.Model.Basic
import ServiceReach.Model.Trail

/-
  Programs. A program is a list of declared types, no two of one name, in the order in which they
  were declared; a second declaration of a name is ignored. Every other reference name stands for a
  phantom, a type without parents or members.
-/

namespace ServiceReach

/-- The declared types, in order. -/
structure Program where
  types : List TypeDecl
  nodup : (types.map TypeDecl.name).Nodup

namespace Program

/-- The program without types. -/
def empty : Program := ⟨[], List.nodup_nil⟩

/-- The program with a type added, unless its name is taken. -/
def declare (p : Program) (t : TypeDecl) : Program :=
  if h : t.name ∈ p.types.map TypeDecl.name then p
  else ⟨p.types ++ [t], by
    simp only [List.map_append, List.map_cons, List.map_nil]
    refine List.nodup_append.2 ⟨p.nodup, by simp, ?_⟩
    intro a ha b hb hab
    simp only [List.mem_singleton] at hb
    exact h (hb ▸ hab ▸ ha)⟩

/-- The program of the types, in order. -/
def ofTypes (types : List TypeDecl) : Program :=
  types.foldl declare empty

/-- The declared type of a name. -/
def find? (p : Program) (name : String) : Option TypeDecl :=
  p.types.find? fun t => t.name == name

/-- The declared type of a name that may be unknown or empty. -/
def get? (p : Program) (name : Option String) : Option TypeDecl :=
  (present? name).bind p.find?

/-- The type a reference name stands for. -/
def lookup (p : Program) (name : String) : TypeDecl :=
  (p.find? name).getD (.phantom name)

/-- The names that no type declares. -/
def undeclared (p : Program) (names : List String) : List String :=
  names.filter fun n => (p.find? n).isNone

/-- Looks a type up; primitives, arrays and unknown types have none. -/
def resolve (p : Program) (name : Option String) : Trail (Option TypeDecl) :=
  match name.filter isReferenceName with
  | none => ⟨none, []⟩
  | some n => ⟨some (p.lookup n), p.undeclared [n]⟩

/-- The types of the application, in order. -/
def applicationTypes (p : Program) : List TypeDecl :=
  p.types.filter TypeDecl.isApplication

/-- Whether the name is that of an application type. -/
def isApplication (p : Program) (name : Option String) : Bool :=
  match p.get? name with
  | none => false
  | some t => t.isApplication

/-- The methods of all declared types, in order. -/
def methods (p : Program) : List Method :=
  p.types.flatMap TypeDecl.methods

/-- The first method with a given signature. -/
def method? (p : Program) (signature : String) : Option Method :=
  p.methods.find? fun m => m.signature == signature

end Program
end ServiceReach
