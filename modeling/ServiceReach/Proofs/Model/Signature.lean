import ServiceReach.Model.Basic
import ServiceReach.Proofs.Text.Space

/-
  What a signature tells. If the names of types hold no space and the names of methods no
  parenthesis, a signature gives the declaring type, the return type and the name of the method
  away. A call that could not be resolved is recorded with `?` in the place of the return type; no
  method with another return type has such a signature (`signature_ne_openTarget`).
-/

namespace ServiceReach

open Text

/-- What is recorded as the target of a call that could not be resolved. -/
def CallSite.openTarget (s : CallSite) : String :=
  "<" ++ (present? s.receiver).getD "?" ++ ": ? " ++ s.name ++ "(" ++
    ",".intercalate (s.args.map fun a => (present? a.type).getD "?") ++ ")>"

/-- A signature up to its second space and from there to its first parenthesis. -/
theorem Method.toList_signature (m : Method) :
    m.signature.toList =
      ('<' :: m.owner.toList ++ [':']) ++ ' ' :: (m.returnType.toList ++ ' ' ::
        (m.name.toList ++ '(' :: ((",".intercalate m.params).toList ++ [')', '>']))) := by
  have hopen : "<".toList = ['<'] := by decide
  have hcolon : ": ".toList = [':', ' '] := by decide
  have hspace : " ".toList = [' '] := by decide
  have hparen : "(".toList = ['('] := by decide
  have hclose : ")".toList = [')'] := by decide
  have hend : ">".toList = ['>'] := by decide
  simp only [signature, subsignature, ServiceReach.subsignature, String.toList_append, hopen, hcolon,
    hspace, hparen, hclose, hend, List.append_assoc, List.cons_append, List.nil_append]

theorem CallSite.toList_openTarget (s : CallSite) :
    ∃ rest, s.openTarget.toList =
      ('<' :: ((present? s.receiver).getD "?").toList ++ [':']) ++ ' ' :: (['?'] ++ ' ' :: rest) := by
  have hopen : "<".toList = ['<'] := by decide
  have hmiddle : ": ? ".toList = [':', ' ', '?', ' '] := by decide
  refine ⟨(s.name ++ "(" ++
    ",".intercalate (s.args.map fun a => (present? a.type).getD "?") ++ ")>").toList, ?_⟩
  simp only [openTarget, String.toList_append, hopen, hmiddle, List.append_assoc, List.cons_append,
    List.nil_append]

namespace Method

/-- What a signature needs to be read back: no space in the names of types, no parenthesis in that
    of the method, and a return type that is known. -/
structure Plain (m : Method) : Prop where
  owner : Spaceless m.owner
  returns : Spaceless m.returnType
  name : '(' ∉ m.name.toList
  known : m.returnType ≠ "?"

variable {m n : Method}

/-- The first word of a signature holds no space. -/
theorem space_not_mem_first {name : String} (h : Spaceless name) :
    ' ' ∉ '<' :: name.toList ++ [':'] := by
  have hname : ' ' ∉ name.toList := h
  simp [hname]

theorem Plain.eq_of_signature (hm : m.Plain) (hn : n.Plain) (h : m.signature = n.signature) :
    m.owner = n.owner ∧ m.name = n.name := by
  have hlist := congrArg String.toList h
  rw [toList_signature, toList_signature] at hlist
  obtain ⟨hfirst, hrest⟩ :=
    append_cons_inj (space_not_mem_first hm.owner) (space_not_mem_first hn.owner) hlist
  obtain ⟨_, hrest⟩ := append_cons_inj hm.returns hn.returns hrest
  obtain ⟨hname, _⟩ := append_cons_inj hm.name hn.name hrest
  have howner : m.owner.toList = n.owner.toList :=
    List.append_cancel_right (List.tail_eq_of_cons_eq hfirst)
  exact ⟨String.toList_injective howner, String.toList_injective hname⟩

/-- No method is what is recorded for a call that could not be resolved. -/
theorem Plain.signature_ne_openTarget (hm : m.Plain) {s : CallSite}
    (hreceiver : ∀ r ∈ s.receiver, Spaceless r) : m.signature ≠ s.openTarget := by
  intro h
  have hshown : Spaceless ((present? s.receiver).getD "?") := by
    cases hr : present? s.receiver with
    | none => decide
    | some r => exact hreceiver r (Option.filter_eq_some_iff.mp hr).1
  have hlist := congrArg String.toList h
  obtain ⟨rest, hopen⟩ := s.toList_openTarget
  rw [toList_signature, hopen] at hlist
  obtain ⟨_, hrest⟩ :=
    append_cons_inj (space_not_mem_first hm.owner) (space_not_mem_first hshown) hlist
  obtain ⟨hreturn, _⟩ := append_cons_inj hm.returns (by decide : ' ' ∉ ['?']) hrest
  exact hm.known (String.toList_injective hreturn)

end Method
end ServiceReach
