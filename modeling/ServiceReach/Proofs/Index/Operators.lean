import ServiceReach.Proofs.Index.CallSites
import ServiceReach.Proofs.Index.Depth

/-
  Types of binary expressions. Typing walks down the left operands of a binary expression in a loop,
  stops at the first comparison or at the first operand that is no binary expression, and comes back
  up operator by operator. `recursiveType` has no loop and no limit: a comparison is a truth value,
  a sum with a string is a string, and any other binary expression has the type of its left operand.
  The loop is this recursion (`fold_leftSpine`), so typing either gives up or has the type of the
  recursion. It does not give up an expression for which there is room, however long its chains of
  left operands are (`typeOfAt_sameUnless`).
-/

namespace ServiceReach.Source.Tree

variable {t c : Tree}

theorem size_pos (t : Tree) : 0 < t.size := by
  cases t
  exact Nat.succ_pos _

theorem size_le_sizeAll {ts : List Tree} (h : c ∈ ts) : c.size ≤ sizeAll ts := by
  induction ts with
  | nil => cases h
  | cons t ts ih =>
    rw [sizeAll]
    rcases List.mem_cons.mp h with rfl | h
    · exact Nat.le_add_right _ _
    · exact Nat.le_trans (ih h) (Nat.le_add_left _ _)

theorem size_lt_of_mem_children (h : c ∈ t.children) : c.size < t.size := by
  cases t with
  | node label children =>
    rw [size]
    exact Nat.lt_succ_of_le (size_le_sizeAll h)

end ServiceReach.Source.Tree

namespace ServiceReach.Index

open Source Tree Trail

/-! ## Giving up -/

section SameUnless

variable {α β : Type}

/-- The computation gives up. -/
def GivesUp (x : Typing α) : Prop :=
  x.run.value = .error .tooDeep

/-- The computations are the same, unless the first gives up and `may` allows it to. -/
def SameUnless (may : Prop) (x y : Typing α) : Prop :=
  x = y ∨ (may ∧ GivesUp x)

variable {may : Prop}

theorem SameUnless.refl (x : Typing α) : SameUnless may x x :=
  Or.inl rfl

theorem SameUnless.imp {may' : Prop} {x y : Typing α} (h : SameUnless may x y)
    (hmay : may → may') : SameUnless may' x y :=
  Or.imp_right (And.imp_left hmay) h

theorem sameUnless_false {x y : Typing α} : SameUnless False x y ↔ x = y := by
  unfold SameUnless
  rw [false_and, or_false]

/-- What comes after a computation counts only at its answer. -/
theorem bind_eq_of_answer {x : Typing α} {f g : α → Typing β}
    (h : ∀ a, x.run.value = .ok a → f a = g a) : x >>= f = x >>= g := by
  have hrest : ExceptT.bindCont f x.run.value = ExceptT.bindCont g x.run.value := by
    cases hvalue : x.run.value with
    | ok a => exact h a hvalue
    | error e => rfl
  exact congrArg (fun r : Trail (Except TooDeep β) => Trail.mk r.value (x.run.names ++ r.names))
    hrest

theorem SameUnless.bind {x y : Typing α} {f g : α → Typing β} (hx : SameUnless may x y)
    (hf : ∀ a, SameUnless may (f a) (g a)) : SameUnless may (x >>= f) (y >>= g) := by
  rcases hx with rfl | ⟨hmay, hx⟩
  · by_cases hsame : ∀ a, x.run.value = .ok a → f a = g a
    · exact Or.inl (bind_eq_of_answer hsame)
    · push Not at hsame
      obtain ⟨a, ha, hne⟩ := hsame
      obtain ⟨hmay, hgives⟩ := (hf a).resolve_left hne
      refine Or.inr ⟨hmay, ?_⟩
      unfold GivesUp
      rw [value_run_bind, ha]
      exact hgives
  · exact Or.inr ⟨hmay, value_run_bind_of_error hx f⟩

/-- Computations that are the same, unless the first gives up. -/
def sameUnless (may : Prop) : Simulation Typing Typing where
  Rel := SameUnless may
  pure a := .refl (pure a)
  bind := SameUnless.bind

end SameUnless

namespace Place

variable {f g : Tree → Typing (Option String)} (p : Place) (locals : Locals) (known : Resolved)
  {t : Tree}

/-! ## The recursion -/

/-- The type of an expression, given how its parts are typed. A binary expression is typed from its
    two operands; a missing operand has no type. -/
def recursiveWith (operand : Tree → Typing (Option String)) (t : Tree) : Typing (Option String) :=
  if t.kind = .binaryExpression then
    if operatorOf t ∈ comparisons then pure (some "boolean")
    else do
      let left ← typeOfOption operand (t.field? .left)
      if operatorOf t = "+" then
        let right ← typeOfOption operand (t.field? .right)
        if left = some "java.lang.String" ∨ right = some "java.lang.String" then
          return some "java.lang.String"
        else return left
      else return left
  else p.typeWith locals known operand t

/-- The type of an expression by recursion over the expression. -/
def recursiveType (t : Tree) : Typing (Option String) :=
  -- Only parts of the expression are asked for, and these are less deep.
  p.recursiveWith locals known
    (fun u => if _h : u.depth < t.depth then recursiveType u else pure none) t
termination_by t.depth
decreasing_by exact _h

theorem recursiveWith_congr (h : ∀ u, u.depth < t.depth → f u = g u) :
    p.recursiveWith locals known f t = p.recursiveWith locals known g t := by
  have hfield : ∀ k, typeOfOption f (t.field? k) = typeOfOption g (t.field? k) := by
    intro k
    cases hu : t.field? k with
    | none => rfl
    | some u => exact h u (depth_lt_of_mem_children (mem_children_of_field? hu))
  unfold recursiveWith
  rw [hfield, hfield]
  congr 1
  refine sameUnless_false.mp
    (p.typeWith_rel (sameUnless False) locals known (fun x => .refl (liftM x)) fun u hu => ?_)
  exact sameUnless_false.mpr (h u hu.depth_lt)

/-- The recursion is one over the parts of an expression. -/
theorem recursiveType_eq (t : Tree) :
    p.recursiveType locals known t =
      p.recursiveWith locals known (p.recursiveType locals known) t := by
  rw [recursiveType]
  exact p.recursiveWith_congr locals known fun u hu => dif_pos hu

/-! ## The loop -/

theorem joinType_eq (left right : Option String) :
    joinType left right =
      if left = some "java.lang.String" ∨ right = some "java.lang.String" then
        some "java.lang.String"
      else left := by
  simp only [joinType, Bool.or_eq_true, beq_iff_eq]

theorem joinType_none (left : Option String) : joinType left none = left := by
  rw [joinType_eq]
  split
  · rename_i hstring
    exact (hstring.resolve_right (Option.some_ne_none _).symm).symm
  · rfl

/-- One operator on the way back up. -/
theorem foldSpine_cons (op : String) (right : Option Tree) (above : List (String × Option Tree))
    (left : Option String) :
    foldSpine f ((op, right) :: above) left =
      (if op = "+" then typeOfOption f right >>= fun other => pure (joinType left other)
        else pure left) >>= foldSpine f above := by
  unfold foldSpine
  by_cases hplus : op = "+"
  · rw [if_pos (beq_iff_eq.mpr hplus), if_pos hplus, bind_assoc]
    cases right with
    | none => rw [typeOfOption, pure_bind, pure_bind, joinType_none]
    | some u =>
      refine bind_congr fun other => ?_
      rw [pure_bind]
  · rw [if_neg (mt beq_iff_eq.mp hplus), if_neg hplus, pure_bind]

/-- A binary expression that is no comparison, by recursion. -/
theorem recursiveType_binary (hkind : t.kind = .binaryExpression)
    (hop : operatorOf t ∉ comparisons) :
    p.recursiveType locals known t =
      typeOfOption (p.recursiveType locals known) (t.field? .left) >>= fun left =>
        if operatorOf t = "+" then
          typeOfOption (p.recursiveType locals known) (t.field? .right) >>= fun right =>
            pure (joinType left right)
        else pure left := by
  rw [recursiveType_eq, recursiveWith, if_pos hkind, if_neg hop]
  refine bind_congr fun left => ?_
  split
  · refine bind_congr fun right => ?_
    rw [joinType_eq]
    split <;> rfl
  · rfl

/-- Walking down the left operands and back up is the recursion, followed by what was met above. -/
theorem fold_leftSpine {fuel : Nat} (hfuel : t.size ≤ fuel) (above : List (String × Option Tree)) :
    endType (p.recursiveType locals known) (leftSpine fuel (some t) above).2 >>=
        foldSpine (p.recursiveType locals known) (leftSpine fuel (some t) above).1 =
      p.recursiveType locals known t >>= foldSpine (p.recursiveType locals known) above := by
  induction fuel generalizing t above with
  | zero => exact absurd hfuel (Nat.not_le.mpr t.size_pos)
  | succ fuel ih =>
    rw [leftSpine]
    by_cases hkind : t.kind = .binaryExpression
    · rw [if_pos (beq_iff_eq.mpr hkind)]
      dsimp only
      by_cases hop : operatorOf t ∈ comparisons
      · rw [if_pos (List.contains_iff_mem.mpr hop), p.recursiveType_eq locals known t,
          recursiveWith, if_pos hkind, if_pos hop]
        rfl
      · rw [if_neg (mt List.contains_iff_mem.mp hop), p.recursiveType_binary locals known hkind hop,
          bind_assoc]
        -- The walk goes on at the left operand, with this operator on top of those above.
        simp only [← foldSpine_cons]
        cases hleft : t.field? .left with
        | none =>
          cases fuel with
          | zero => rfl
          | succ fuel => rfl
        | some v =>
          have hlt := size_lt_of_mem_children (mem_children_of_field? hleft)
          exact ih (by omega) _
    · rw [if_neg (mt beq_iff_eq.mp hkind)]
      rfl

/-- The recursion solves the equation of typing. -/
theorem recursiveType_eq_typeWith (t : Tree) :
    p.recursiveType locals known t =
      p.typeWith locals known (p.recursiveType locals known) t := by
  by_cases hkind : t.kind = .binaryExpression
  · rw [typeWith_binary p locals known hkind, p.fold_leftSpine locals known (Nat.le_refl _)]
    exact (bind_pure _).symm
  · rw [recursiveType_eq, recursiveWith, if_neg hkind]

/-! ## Limited room -/

/-- With any room, typing is the recursion or gives up, the latter only for want of room. -/
theorem typeOfAt_sameUnless (room : Nat) (t : Tree) :
    SameUnless (room < t.frames) (p.typeOfAt locals known room t)
      (p.recursiveType locals known t) := by
  induction room using Nat.strongRecOn generalizing t with
  | ind room ih =>
    have hpos := ownFrames_pos t.kind
    rw [typeOfAt_eq, recursiveType_eq_typeWith]
    split
    · rename_i hless
      exact Or.inr ⟨Nat.lt_of_lt_of_le hless (by rw [t.frames_eq]; omega), rfl⟩
    · refine p.typeWith_rel (sameUnless _) locals known (fun x => .refl (liftM x)) fun u hu => ?_
      have hdown := hu.frames_add_le
      exact (ih _ (by omega) u).imp fun hless => by omega

theorem recursiveType_answers (t : Tree) : Answers (p.recursiveType locals known t) := by
  have hanswers := p.typeOfAt_answers locals known (Nat.le_refl t.frames)
  rcases p.typeOfAt_sameUnless locals known t.frames t with hsame | ⟨hless, _⟩
  · rwa [hsame] at hanswers
  · exact absurd hless (Nat.lt_irrefl _)

/-- The loop along the left operands is the recursion, in any mix of operators: a binary expression,
    like any other, is typed by recursion over its operands. The recursion always has an answer.
    With any room (`typeOf` has that of the place), typing has the same answer and looks the same
    names up, or it gives up; it gives up only an expression with more calls open at once than there
    is room for, and a chain of left operands counts once, however long it is. -/
theorem typeOfAt_eq_recursion (p : Place) (locals : Locals) (known : Resolved) (t : Tree) :
    p.recursiveType locals known t =
        p.recursiveWith locals known (p.recursiveType locals known) t ∧
      Answers (p.recursiveType locals known t) ∧
      ∀ room,
        (p.typeOfAt locals known room t = p.recursiveType locals known t ∨
          GivesUp (p.typeOfAt locals known room t)) ∧
        (t.frames ≤ room →
          p.typeOfAt locals known room t = p.recursiveType locals known t) := by
  refine ⟨p.recursiveType_eq locals known t, p.recursiveType_answers locals known t,
    fun room => ?_⟩
  rcases p.typeOfAt_sameUnless locals known room t with hsame | ⟨hless, hgives⟩
  · exact ⟨Or.inl hsame, fun _ => hsame⟩
  · exact ⟨Or.inr hgives, fun hroom => absurd hless (Nat.not_lt.mpr hroom)⟩

/-- A literal as an operand. -/
def operandNode (kind : Kind) (f : Field) : Tree :=
  .node { kind, field := some f } []

/-- An operator between two operands. -/
def operationNode (op : String) (f : Option Field) (left right : Tree) : Tree :=
  .node { kind := .binaryExpression, field := f }
    [left, .node { kind := .other op, named := false, field := some .operator } [], right]

/-- `1 * 2 + "s" + 3 - 4`, the operators from left to right. -/
def mixedChain : Tree :=
  operationNode "-" none
    (operationNode "+" (some .left)
      (operationNode "+" (some .left)
        (operationNode "*" (some .left) (operandNode .decimalIntegerLiteral .left)
          (operandNode .decimalIntegerLiteral .right))
        (operandNode .stringLiteral .right))
      (operandNode .decimalIntegerLiteral .right))
    (operandNode .decimalIntegerLiteral .right)

/-- Room for three calls is enough for a chain of four operators. -/
theorem typeOfAt_mixedChain :
    mixedChain.depth = 5 ∧ mixedChain.frames ≤ 3 ∧
      barePlace.typeOfAt [] [] 3 mixedChain = barePlace.recursiveType [] [] mixedChain ∧
      (barePlace.recursiveType [] [] mixedChain).run.value = .ok (some "java.lang.String") := by
  have hframes : mixedChain.frames ≤ 3 := by decide
  have hsame := ((barePlace.typeOfAt_eq_recursion [] [] mixedChain).2.2 3).2 hframes
  exact ⟨rfl, hframes, hsame, hsame ▸ rfl⟩

end Place
end ServiceReach.Index
