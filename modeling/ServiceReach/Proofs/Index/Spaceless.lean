import ServiceReach.Index.Scope
import ServiceReach.Proofs.Text.Space

/-
  The name of a type holds no space. A written type may hold blanks, but they are dropped when it is
  read. What it means is a declared type, or it is put together from its words, the names of the
  types around it, the package and an imported name; if these hold no space, the result holds none
  (`resolve_spaceless`).
-/

namespace ServiceReach.Index

open Text

theorem mem_of_lookup {α β : Type} [BEq α] [LawfulBEq α] {l : List (α × β)} {key : α} {value : β}
    (h : l.lookup key = some value) : (key, value) ∈ l := by
  obtain ⟨before, rest, hl, _⟩ := List.lookup_eq_some_iff.mp h
  rw [hl]
  exact List.mem_append_right before List.mem_cons_self

/-! ## Written types -/

theorem eraseArguments_spaceless (s : String) : Spaceless (eraseArguments s) := by
  have hfold : ∀ (cs : List Char) (state : Int × List Char), ' ' ∉ state.2 →
      ' ' ∉ (cs.foldl eraseChar state).2 := by
    intro cs
    induction cs with
    | nil => exact fun state h => h
    | cons c cs ih =>
      intro state h
      refine ih _ ?_
      unfold eraseChar
      split
      · exact h
      · split
        · exact h
        · split
          · rename_i hkept
            have hblank : isBlank c = false := by simpa using (Bool.and_eq_true_iff.mp hkept).2
            intro hmem
            rcases List.mem_cons.mp hmem with hc | hmem
            · subst hc
              exact absurd hblank (by decide)
            · exact h hmem
          · exact h
  unfold Spaceless eraseArguments
  rw [String.toList_ofList, List.mem_reverse]
  exact hfold s.toList (0, []) List.not_mem_nil

theorem takeBrackets_subset (cs : List Char) : (takeBrackets cs).1 ⊆ cs := by
  fun_induction takeBrackets cs with
  | case1 rest base n hrest ih =>
    rw [hrest] at ih
    intro c hc
    exact List.mem_cons_of_mem _ (List.mem_cons_of_mem _ (ih hc))
  | case2 cs _ => exact List.Subset.refl cs

theorem readType_spaceless (raw : String) : Spaceless (readType raw).1 := by
  have htext : ∀ s, Spaceless s → Spaceless (ellipsisToBrackets s) := by
    intro s hs
    unfold ellipsisToBrackets
    split
    · exact (hs.dropLast 3).append (by decide)
    · exact hs
  refine (htext _ (eraseArguments_spaceless
    (" ".intercalate ((words raw).filter fun w => !startsWith "@" w)))).of_subset fun c hc => ?_
  have hbase : (readType raw).1.toList = (takeBrackets (ellipsisToBrackets (eraseArguments
      (" ".intercalate ((words raw).filter fun w => !startsWith "@" w)))).toList.reverse).1.reverse := by
    unfold readType
    exact String.toList_ofList
  rw [hbase, List.mem_reverse] at hc
  exact List.mem_reverse.mp (takeBrackets_subset _ hc)

theorem withDims_spaceless {name : String} (h : Spaceless name) (dims : Nat) :
    Spaceless (withDims name dims) := by
  refine h.append (spaceless_join fun s hs => ?_)
  rw [List.eq_of_mem_replicate hs]
  decide

/-! ## Names -/

/-- The declared names, the package and the binary names of the imported types hold no space. What
    is imported on demand counts only if it is declared. -/
structure Header.Spaceless (h : Header) (s : Scopes) : Prop where
  declared : ∀ name, s.declares name = true → Text.Spaceless name
  package : Text.Spaceless h.package
  imports : ∀ x ∈ h.imports, Text.Spaceless (s.toBinary x.2)

theorem inPackage_spaceless {package name : String} (hpackage : Spaceless package)
    (hname : Spaceless name) : Spaceless (inPackage package name) := by
  unfold inPackage
  split
  · exact hname
  · exact (hpackage.append (by decide)).append hname

theorem nestAfter_spaceless {parts : List String} (h : ∀ s ∈ parts, Spaceless s) (n : Nat) :
    Spaceless (nestAfter n parts) := by
  have hhead : Spaceless (".".intercalate (parts.take n)) :=
    spaceless_intercalate (by decide) fun s hs => h s (List.mem_of_mem_take hs)
  refine Spaceless.append hhead (spaceless_join fun s hs => ?_)
  obtain ⟨part, hpart, rfl⟩ := List.mem_map.mp hs
  exact Spaceless.append (by decide) (h part (List.mem_of_mem_drop hpart))

namespace Scopes

variable {s : Scopes} {h : Header} {scope : Option String} {name : String}

theorem toBinary_spaceless (s : Scopes) {dotted : String} (hdotted : Spaceless dotted) :
    Spaceless (s.toBinary dotted) := by
  have hparts := hdotted.split '.'
  have hnested : ∀ n r, s.nestedIn? (split '.' dotted) n = some r → Spaceless r := by
    intro n
    induction n with
    | zero => exact fun r hr => nomatch hr
    | succ n ih =>
      intro r hr
      rw [nestedIn?] at hr
      split at hr
      · cases hr
        exact nestAfter_spaceless hparts (n + 1)
      · exact ih r hr
  unfold toBinary
  dsimp only
  split
  · rename_i r hr
    exact hnested _ r hr
  · split
    · exact hdotted
    · split
      · exact nestAfter_spaceless hparts _
      · exact hdotted

theorem declares_of_ifDeclared {r : String} (hr : s.ifDeclared name = some r) :
    s.declares r = true := by
  obtain ⟨hdeclares, heq⟩ := Option.ite_none_right_eq_some.mp hr
  exact Option.some.inj heq ▸ hdeclares

theorem declares_of_memberOf {r around : String} (hr : s.memberOf? name around = some r) :
    r = around ∨ s.declares r = true := by
  unfold memberOf? at hr
  split at hr
  · exact Or.inl (Option.some.inj hr).symm
  · exact Or.inr (declares_of_ifDeclared hr)

theorem simple_spaceless (hheader : h.Spaceless s) (haround : ∀ n ∈ s.around scope, Spaceless n)
    {r : String} (hr : s.simple? h scope name = some r) : Spaceless r := by
  unfold simple? at hr
  rcases Option.or_eq_some_iff.mp hr with hr | ⟨_, hr⟩
  · obtain ⟨around, hmem, hr⟩ := List.exists_of_findSome?_eq_some hr
    rcases declares_of_memberOf hr with rfl | hdeclares
    · exact haround _ hmem
    · exact hheader.declared r hdeclares
  rcases Option.or_eq_some_iff.mp hr with hr | ⟨_, hr⟩
  · obtain ⟨dotted, hdotted, rfl⟩ := Option.map_eq_some_iff.mp hr
    exact hheader.imports (name, dotted) (mem_of_lookup hdotted)
  rcases Option.or_eq_some_iff.mp hr with hr | ⟨_, hr⟩
  · exact hheader.declared r (declares_of_ifDeclared hr)
  rcases Option.or_eq_some_iff.mp hr with hr | ⟨_, hr⟩
  · obtain ⟨package, _, hr⟩ := List.exists_of_findSome?_eq_some hr
    have hr : s.ifDeclared (s.toBinary (package ++ "." ++ name)) = some r := hr
    exact hheader.declared r (declares_of_ifDeclared hr)
  · exact hheader.declared r (declares_of_ifDeclared hr)

theorem resolveClass_spaceless (hheader : h.Spaceless s)
    (haround : ∀ n ∈ s.around scope, Spaceless n) (hname : Spaceless name) :
    Spaceless (s.resolveClass h scope name) := by
  have hhead := hname.beforeFirst '.'
  have hrest := hname.afterFirst '.'
  unfold resolveClass
  dsimp only
  split
  · rename_i outer houter
    have houter := simple_spaceless hheader haround houter
    split
    · exact houter
    · exact (houter.append (by decide)).append (hrest.replaceChar '.' (by decide))
  · split
    · exact s.toBinary_spaceless hname
    · split
      · exact Spaceless.append (by decide) hhead
      · exact inPackage_spaceless hheader.package hhead

/-- What a written type means holds no space. -/
theorem resolve_spaceless (hheader : h.Spaceless s) (haround : ∀ n ∈ s.around scope, Spaceless n)
    {raw r : String} (hr : s.resolve h scope raw = some r) : Spaceless r := by
  have hbase := readType_spaceless raw
  unfold resolve at hr
  generalize readType raw = written at hr hbase
  obtain ⟨base, dims⟩ := written
  dsimp only at hr
  split at hr
  · cases hr
  · split at hr
    · cases hr
      exact withDims_spaceless hbase dims
    · cases hr
      exact withDims_spaceless (resolveClass_spaceless hheader haround hbase) dims

end Scopes
end ServiceReach.Index
