import ServiceReach.Proofs.Model.Inheritance
import ServiceReach.Proofs.Model.Walks

/-
  Subtypes and supertypes are converse. The index of subtypes goes by the parents as they are
  written, a walk up by those that can be looked up. The two differ only in names that are no
  reference names, and where no type is declared under such a name, none of them lies on a path from
  a declared type to a reference name (`atOrBelow_iff_reaches`). So a type is listed below a name
  exactly if the name is met above the type (`subtypes_converse_supertypes`).
-/

namespace ServiceReach

namespace Program

variable {p : Program} {name top : String}

theorem mem_supersOf_iff :
    top ∈ p.supersOf name ↔ p.Extends name top ∧ isReferenceName top = true := by
  unfold supersOf TypeDecl.supers
  rw [List.mem_filter]
  refine and_congr_left fun _ => ?_
  constructor
  · intro htop
    rcases declared_or_phantom (p.lookup_lookup name) with hmem | hphantom
    · exact ⟨p.lookup name, hmem, p.lookup_name name, htop⟩
    · rw [hphantom] at htop
      cases htop
  · rintro ⟨t, ht, rfl, htop⟩
    rwa [lookup_of_mem ht]

/-- Where the declared types have reference names, every step on the way to a reference name leads
    to a name that can be looked up. -/
theorem atOrBelow_iff_reaches (hnames : ∀ t ∈ p.types, isReferenceName t.name = true)
    (htop : isReferenceName top = true) :
    p.AtOrBelow name top ↔ Search.Reaches p.supersOf name top := by
  constructor
  · intro h
    unfold AtOrBelow at h
    induction h using Relation.ReflTransGen.head_induction_on with
    | refl => exact .refl
    | @head child parent hstep hrest ih =>
      have hparent : isReferenceName parent = true := by
        rcases Relation.ReflTransGen.cases_head hrest with heq | ⟨_, ⟨t, ht, hname, _⟩, _⟩
        · rwa [heq]
        · rw [← hname]
          exact hnames t ht
      exact .head (mem_supersOf_iff.mpr ⟨hstep, hparent⟩) ih
  · exact Relation.ReflTransGen.mono (fun _ _ hstep => (mem_supersOf_iff.mp hstep).1) name top

theorem not_mem_subtypes_and_nodup (p : Program) (top : String) :
    top ∉ p.subtypes top ∧ (p.subtypes top).Nodup := by
  have hnodup := Search.nodup_reached p.children (p.types.length + 1) top
  rw [← cons_subtypes] at hnodup
  exact List.nodup_cons.mp hnodup

theorem mem_names_supertypes {t : TypeDecl} (ht : t ∈ p.types) :
    top ∈ ((p.supertypes t).map Visit.type).map TypeDecl.name ↔
      Search.Reaches p.supersOf t.name top := by
  rw [← mem_above_iff, ← lookup_of_mem ht, types_supertypes, lookup_name, names_map_lookup]

end Program

namespace Store

/-- After any history in which only types with reference names were declared, a declared type is
    listed below another reference name exactly if a walk over its supertypes meets that name. No
    name is listed below itself or twice. -/
theorem subtypes_converse_supertypes (history : List Operation) (top : String)
    (hnames : ∀ t ∈ (after history).program.types, isReferenceName t.name = true)
    (htop : isReferenceName top = true) :
    (∀ t ∈ (after history).program.types, t.name ≠ top →
      (t.name ∈ (subtypes top (after history)).1 ↔
        top ∈ (supertypes t (after history)).1.map TypeDecl.name)) ∧
      top ∉ (subtypes top (after history)).1 ∧ (subtypes top (after history)).1.Nodup := by
  have hs : (after history).Sound := (sound_empty.foldl_perform history).1
  rw [(hs.subtypes top).1]
  refine ⟨fun t ht hne => ?_, Program.not_mem_subtypes_and_nodup _ top⟩
  rw [hs.supertypes, Program.mem_names_supertypes ht, ← Program.atOrBelow_iff_reaches hnames htop,
    ← Program.mem_subtypes_iff, List.mem_cons, or_iff_right hne]

/-- Below a name that is not declared lie the interface that names it and both classes of a
    cycle. -/
theorem subtypes_converse_ring :
    (∀ t ∈ (after ringHistory).program.types, isReferenceName t.name = true) ∧
      isReferenceName "Seen" = true ∧ ringClass ∈ (after ringHistory).program.types ∧
      ringClass.name ∈ (subtypes "Seen" (after ringHistory)).1 ∧
      "Seen" ∈ (supertypes ringClass (after ringHistory)).1.map TypeDecl.name := by
  have hnames : ∀ t ∈ (after ringHistory).program.types, isReferenceName t.name = true := by
    decide +kernel
  have href : isReferenceName "Seen" = true := by decide +kernel
  have hring : ringClass ∈ (after ringHistory).program.types := by decide +kernel
  have hmem : ringClass.name ∈ (subtypes "Seen" (after ringHistory)).1 := by decide +kernel
  obtain ⟨hconverse, _⟩ := subtypes_converse_supertypes ringHistory "Seen" hnames href
  exact ⟨hnames, href, hring, hmem, (hconverse ringClass hring (by decide)).mp hmem⟩

end Store
end ServiceReach
