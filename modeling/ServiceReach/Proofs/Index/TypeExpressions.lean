import ServiceReach.Index.Scope
import ServiceReach.Proofs.Text.Parts
import ServiceReach.Proofs.Text.Words

/-
  Written types. A type is written as dotted segments, each with type arguments or not, pairs of
  brackets and maybe an ellipsis, with blanks wherever one likes. However it is written, what is
  read off it is the dotted name of its segments and its number of dimensions (`readType_spell`).
  Hence type arguments, blanks and brackets never change which class is meant
  (`Scopes.resolve_spell`).
-/

namespace ServiceReach.Index

/-! ## Type expressions -/

/-- A piece of a written type: without blanks, and not of an annotation. -/
structure Token where
  text : String
  plain : ∀ c ∈ text.toList, Text.isBlank c = false ∧ c ≠ '@'

namespace Token

theorem plain_of_all {text : String}
    (h : text.toList.all (fun c => !Text.isBlank c && c != '@') = true) :
    ∀ c ∈ text.toList, Text.isBlank c = false ∧ c ≠ '@' := by
  simpa using h

def less : Token := ⟨"<", plain_of_all (by decide)⟩
def greater : Token := ⟨">", plain_of_all (by decide)⟩
def dot : Token := ⟨".", plain_of_all (by decide)⟩
def leftBracket : Token := ⟨"[", plain_of_all (by decide)⟩
def rightBracket : Token := ⟨"]", plain_of_all (by decide)⟩
def ellipsis : Token := ⟨"...", plain_of_all (by decide)⟩

end Token

/-- A name without dots, angle brackets and square brackets. -/
structure Identifier extends Token where
  nonempty : text ≠ ""
  unmarked : ∀ c ∈ text.toList, c ∉ ['.', '<', '>', '[', ']']

/-- Anything between the angle brackets of type arguments but the angle brackets of others. -/
structure Atom extends Token where
  unbracketed : ∀ c ∈ text.toList, c ≠ '<' ∧ c ≠ '>'

/-- What stands between the angle brackets of type arguments: balanced pairs of angle brackets, and
    names, commas, wildcards and brackets in and around them. -/
inductive Arguments where
  | done
  | atom (a : Atom) (rest : Arguments)
  | nested (inner rest : Arguments)

/-- A segment of a type name, with type arguments or not. -/
structure Segment where
  name : Identifier
  args : Option Arguments := none

/-- A type without annotations. -/
structure TypeExpr where
  first : Segment
  more : List Segment := []
  /-- The number of pairs of brackets. -/
  dims : Nat := 0
  ellipsis : Bool := false

def Arguments.tokens : Arguments → List Token
  | .done => []
  | .atom a rest => a.toToken :: rest.tokens
  | .nested inner rest => .less :: (inner.tokens ++ .greater :: rest.tokens)

def Segment.tokens (s : Segment) : List Token :=
  match s.args with
  | none => [s.name.toToken]
  | some args => s.name.toToken :: .less :: (args.tokens ++ [.greater])

namespace TypeExpr

/-- What stands behind the segments. -/
def suffix (t : TypeExpr) : List Token :=
  (List.replicate t.dims [.leftBracket, .rightBracket]).flatten ++
    if t.ellipsis then [.ellipsis] else []

def tokens (t : TypeExpr) : List Token :=
  t.first.tokens ++ t.more.flatMap (fun s => .dot :: s.tokens) ++ t.suffix

/-- The dotted name of the segments. -/
def bare (t : TypeExpr) : String :=
  ".".intercalate ((t.first :: t.more).map (·.name.text))

/-- The number of dimensions; an ellipsis adds one. -/
def rank (t : TypeExpr) : Nat :=
  if t.ellipsis then t.dims + 1 else t.dims

end TypeExpr

/-- Blanks between tokens, or none. -/
structure Blanks where
  text : String
  blank : ∀ c ∈ text.toList, Text.isBlank c = true

/-- Tokens with blanks before, between and behind them. -/
def spell (gap : Nat → Blanks) : List Token → String
  | [] => (gap 0).text
  | t :: rest => (gap 0).text ++ t.text ++ spell (fun i => gap (i + 1)) rest

/-! ## Blanks -/

/-- The characters of the tokens. -/
def charsOf (ts : List Token) : List Char :=
  ts.flatMap fun t => t.text.toList

@[simp] theorem charsOf_nil : charsOf [] = [] := rfl

@[simp] theorem charsOf_cons (t : Token) (ts : List Token) :
    charsOf (t :: ts) = t.text.toList ++ charsOf ts := rfl

@[simp] theorem charsOf_append (ts us : List Token) :
    charsOf (ts ++ us) = charsOf ts ++ charsOf us := List.flatMap_append

@[simp] theorem chars_less : Token.less.text.toList = ['<'] := by decide

@[simp] theorem chars_greater : Token.greater.text.toList = ['>'] := by decide

@[simp] theorem chars_dot : Token.dot.text.toList = ['.'] := by decide

theorem visible_spell (gap : Nat → Blanks) (ts : List Token) :
    Text.visible (spell gap ts) = charsOf ts := by
  induction ts generalizing gap with
  | nil => exact Text.visible_of_blank (gap 0).blank
  | cons t ts ih =>
    rw [spell, Text.visible_append, Text.visible_append, Text.visible_of_blank (gap 0).blank,
      Text.visible_of_not_blank fun c hc => (t.plain c hc).1, ih]
    rfl

theorem not_mem_spell (gap : Nat → Blanks) (ts : List Token) : '@' ∉ (spell gap ts).toList := by
  have hgap : ∀ b : Blanks, '@' ∉ b.text.toList := fun b hc => absurd (b.blank _ hc) (by decide)
  induction ts generalizing gap with
  | nil => exact hgap (gap 0)
  | cons t ts ih =>
    have htoken : '@' ∉ t.text.toList := fun hc => (t.plain _ hc).2 rfl
    simp [spell, hgap, htoken, ih]

/-- No word of a text without `@` is an annotation. -/
theorem filter_words {raw : String} (h : '@' ∉ raw.toList) :
    (Text.words raw).filter (fun w => !Text.startsWith "@" w) = Text.words raw := by
  rw [List.filter_eq_self]
  intro w hw
  rw [Bool.not_eq_true', Bool.eq_false_iff]
  intro hstarts
  obtain ⟨rest, rfl⟩ := Text.startsWith_iff.mp hstarts
  exact h (Text.mem_of_mem_words hw (by simp))

theorem eraseChar_of_blank {c : Char} (h : Text.isBlank c = true) (state : Int × List Char) :
    eraseChar state c = state := by
  have hless : c ≠ '<' := by
    rintro rfl
    exact absurd h (by decide)
  have hgreater : c ≠ '>' := by
    rintro rfl
    exact absurd h (by decide)
  simp [eraseChar, hless, hgreater, h]

theorem foldl_eraseChar_filter (cs : List Char) (state : Int × List Char) :
    cs.foldl eraseChar state = (cs.filter (!Text.isBlank ·)).foldl eraseChar state := by
  induction cs generalizing state with
  | nil => rfl
  | cons c cs ih =>
    by_cases hblank : Text.isBlank c = true
    · simp [hblank, eraseChar_of_blank, ih]
    · simp [hblank, ih]

/-- What is left of a text depends on its visible characters only. -/
theorem eraseArguments_eq (s : String) :
    eraseArguments s = String.ofList ((Text.visible s).foldl eraseChar (0, [])).2.reverse := by
  rw [eraseArguments, foldl_eraseChar_filter]
  rfl

/-! ## Type arguments -/

/-- Outside of type arguments, everything is kept. -/
theorem foldl_eraseChar_top {cs : List Char} (kept : List Char)
    (h : ∀ c ∈ cs, Text.isBlank c = false ∧ c ≠ '<' ∧ c ≠ '>') :
    cs.foldl eraseChar (0, kept) = (0, cs.reverse ++ kept) := by
  induction cs generalizing kept with
  | nil => rfl
  | cons c cs ih =>
    obtain ⟨hblank, hless, hgreater⟩ := h c List.mem_cons_self
    have hstep : eraseChar (0, kept) c = (0, c :: kept) := by
      simp [eraseChar, hblank, hless, hgreater]
    rw [List.foldl_cons, hstep, ih _ fun c' hc' => h c' (List.mem_cons_of_mem c hc')]
    simp

/-- Inside of type arguments, nothing is kept. -/
theorem foldl_eraseChar_inside {cs : List Char} {depth : Int} (hdepth : 0 < depth)
    (kept : List Char) (h : ∀ c ∈ cs, c ≠ '<' ∧ c ≠ '>') :
    cs.foldl eraseChar (depth, kept) = (depth, kept) := by
  induction cs with
  | nil => rfl
  | cons c cs ih =>
    obtain ⟨hless, hgreater⟩ := h c List.mem_cons_self
    have hstep : eraseChar (depth, kept) c = (depth, kept) := by
      have hne : depth ≠ 0 := by omega
      simp [eraseChar, hless, hgreater, hne]
    rw [List.foldl_cons, hstep]
    exact ih fun c' hc' => h c' (List.mem_cons_of_mem c hc')

theorem eraseChar_less (depth : Int) (kept : List Char) :
    eraseChar (depth, kept) '<' = (depth + 1, kept) := by
  simp [eraseChar]

theorem eraseChar_greater (depth : Int) (kept : List Char) :
    eraseChar (depth + 1, kept) '>' = (depth, kept) := by
  simp [eraseChar]

/-- Nothing of type arguments is kept, and they end at the depth at which they begin. -/
theorem Arguments.foldl_eraseChar (a : Arguments) {depth : Int} (hdepth : 0 < depth)
    (kept : List Char) : (charsOf a.tokens).foldl eraseChar (depth, kept) = (depth, kept) := by
  induction a generalizing depth with
  | done => rfl
  | atom a rest ih =>
    rw [tokens, charsOf_cons, List.foldl_append, foldl_eraseChar_inside hdepth kept a.unbracketed,
      ih hdepth]
  | nested inner rest ihInner ihRest =>
    simp only [tokens, charsOf_cons, charsOf_append, chars_less, chars_greater, List.foldl_append,
      List.foldl_cons, List.foldl_nil, eraseChar_less, eraseChar_greater,
      ihInner (show 0 < depth + 1 by omega), ihRest hdepth]

theorem Identifier.foldl_eraseChar (n : Identifier) (kept : List Char) :
    n.text.toList.foldl eraseChar (0, kept) = (0, n.text.toList.reverse ++ kept) := by
  apply foldl_eraseChar_top
  intro c hc
  have hmark := n.unmarked c hc
  refine ⟨(n.plain c hc).1, ?_, ?_⟩ <;> rintro rfl <;> simp at hmark

/-- Of a segment, the name is kept. -/
theorem Segment.foldl_eraseChar (s : Segment) (kept : List Char) :
    (charsOf s.tokens).foldl eraseChar (0, kept) = (0, s.name.text.toList.reverse ++ kept) := by
  unfold tokens
  split
  · rw [charsOf_cons, charsOf_nil, List.append_nil, s.name.foldl_eraseChar]
  · rename_i args _
    have hargs := args.foldl_eraseChar (show (0 : Int) < 0 + 1 by omega)
    simp only [charsOf_cons, charsOf_append, charsOf_nil, chars_less, chars_greater,
      List.append_nil, List.foldl_append, List.foldl_cons, List.foldl_nil,
      s.name.foldl_eraseChar, eraseChar_less, eraseChar_greater, hargs]

theorem foldl_eraseChar_more (more : List Segment) (kept : List Char) :
    (charsOf (more.flatMap fun s => .dot :: s.tokens)).foldl eraseChar (0, kept) =
      (0, (more.flatMap fun s => '.' :: s.name.text.toList).reverse ++ kept) := by
  induction more generalizing kept with
  | nil => rfl
  | cons s more ih =>
    have hdot : eraseChar (0, kept) '.' = (0, '.' :: kept) := by
      have hblank : Text.isBlank '.' = false := by decide
      simp [eraseChar, hblank]
    simp only [List.flatMap_cons, charsOf_append, charsOf_cons, chars_dot, List.foldl_append,
      List.foldl_cons, List.foldl_nil, hdot, s.foldl_eraseChar, ih]
    simp

/-! ## Type expressions, read -/

namespace TypeExpr

/-- What is left of a type without its type arguments and blanks. -/
def erased (t : TypeExpr) : String :=
  withDims t.bare t.dims ++ if t.ellipsis then "..." else ""

theorem toList_bare (t : TypeExpr) :
    t.bare.toList =
      t.first.name.text.toList ++ t.more.flatMap fun s => '.' :: s.name.text.toList := by
  rw [bare, List.map_cons, Text.intercalate_cons_eq_join]
  simp [List.flatMap_map, Function.comp_def]

theorem charsOf_suffix (t : TypeExpr) :
    charsOf t.suffix = (String.join (List.replicate t.dims "[]")).toList ++
      (if t.ellipsis then "..." else "").toList := by
  have hbrackets : ∀ n, charsOf (List.replicate n [.leftBracket, .rightBracket]).flatten =
      (String.join (List.replicate n "[]")).toList := by
    intro n
    induction n with
    | zero => rfl
    | succ n ih =>
      rw [List.replicate_succ, List.flatten_cons, charsOf_append, ih, List.replicate_succ,
        String.join_cons, String.toList_append]
      rfl
  rw [suffix, charsOf_append, hbrackets]
  split <;> rfl

theorem foldl_eraseChar_suffix (t : TypeExpr) (kept : List Char) :
    (charsOf t.suffix).foldl eraseChar (0, kept) = (0, (charsOf t.suffix).reverse ++ kept) := by
  have hmarks : ∀ c ∈ ['[', ']', '.'], Text.isBlank c = false ∧ c ≠ '<' ∧ c ≠ '>' := by
    simp [Text.isBlank]
  apply foldl_eraseChar_top
  intro c hc
  apply hmarks
  rw [charsOf_suffix, List.mem_append] at hc
  rcases hc with hc | hc
  · rw [String.toList_join, List.mem_flatMap] at hc
    obtain ⟨brackets, hbrackets, hc⟩ := hc
    rw [List.eq_of_mem_replicate hbrackets] at hc
    exact List.mem_append_left ['.'] hc
  · split at hc <;> simp_all

theorem eraseArguments_spell (t : TypeExpr) (gap : Nat → Blanks) :
    eraseArguments (spell gap t.tokens) = t.erased := by
  rw [eraseArguments_eq, visible_spell, ← String.toList_inj, String.toList_ofList, tokens,
    charsOf_append, charsOf_append, List.foldl_append, List.foldl_append,
    t.first.foldl_eraseChar, foldl_eraseChar_more, foldl_eraseChar_suffix, erased, withDims]
  simp [toList_bare, charsOf_suffix]

/-- A type name ends with a character of a name. -/
theorem getLast?_bare (t : TypeExpr) :
    ∃ c, t.bare.toList.getLast? = some c ∧ c ≠ '.' ∧ c ≠ ']' := by
  have hends : ∃ (front : String) (n : Identifier), t.bare = front ++ n.text := by
    unfold bare
    rcases List.eq_nil_or_concat t.more with hmore | ⟨more, last, hmore⟩
    · exact ⟨"", t.first.name, by simp [hmore]⟩
    · refine ⟨".".intercalate ((t.first :: more).map (·.name.text)) ++ ".", last.name, ?_⟩
      rw [hmore, List.concat_eq_append, ← List.cons_append, List.map_append,
        String.intercalate_append_of_ne_nil (by simp) (by simp)]
      simp
  obtain ⟨front, n, hbare⟩ := hends
  have hne : n.text.toList ≠ [] := by simpa using n.nonempty
  have hmark := n.unmarked _ (List.getLast_mem hne)
  refine ⟨n.text.toList.getLast hne, ?_, fun h => hmark (by simp [h]), fun h => hmark (by simp [h])⟩
  rw [hbare, String.toList_append, List.getLast?_append, List.getLast?_eq_some_getLast hne,
    Option.some_or]

end TypeExpr

theorem withDims_zero (name : String) : withDims name 0 = name := by
  simp [withDims]

theorem withDims_succ (name : String) (n : Nat) :
    withDims name (n + 1) = withDims name n ++ "[]" := by
  simp [withDims, List.replicate_succ', String.append_assoc]

theorem takeBrackets_withDims {name : String} {c : Char} (hlast : name.toList.getLast? = some c)
    (hc : c ≠ ']') (n : Nat) :
    takeBrackets (withDims name n).toList.reverse = (name.toList.reverse, n) := by
  induction n with
  | zero =>
    rw [withDims_zero]
    unfold takeBrackets
    split
    · rename_i rest hreverse
      rw [← List.head?_reverse, hreverse] at hlast
      simp at hlast
      exact absurd hlast.symm hc
    · rfl
  | succ n ih =>
    have hchars : (withDims name (n + 1)).toList.reverse =
        ']' :: '[' :: (withDims name n).toList.reverse := by
      simp [withDims_succ]
    rw [hchars, takeBrackets, ih]

theorem endsWith_withDims {name : String} {c : Char} (hlast : name.toList.getLast? = some c)
    (hc : c ≠ '.') (n : Nat) : Text.endsWith "..." (withDims name n) = false := by
  rw [Bool.eq_false_iff]
  intro hends
  obtain ⟨front, hfront⟩ := List.isSuffixOf_iff_suffix.mp hends
  have hdot : (withDims name n).toList.getLast? = some '.' := by
    rw [← hfront]
    simp
  cases n with
  | zero =>
    rw [withDims_zero, hlast] at hdot
    exact hc (Option.some.inj hdot)
  | succ n => simp [withDims_succ] at hdot

namespace TypeExpr

theorem ellipsisToBrackets_erased (t : TypeExpr) :
    ellipsisToBrackets t.erased = withDims t.bare t.rank := by
  obtain ⟨c, hlast, hdot, _⟩ := t.getLast?_bare
  unfold ellipsisToBrackets erased rank
  cases t.ellipsis with
  | false => simp [endsWith_withDims hlast hdot]
  | true =>
    have hends : Text.endsWith "..." (withDims t.bare t.dims ++ "...") = true :=
      List.isSuffixOf_iff_suffix.mpr ⟨(withDims t.bare t.dims).toList, by simp⟩
    have hfront : Text.dropLast 3 (withDims t.bare t.dims ++ "...") = withDims t.bare t.dims := by
      simp [Text.dropLast]
    simp [hends, hfront, withDims_succ]

/-- What is read off a written type is its dotted name and its number of dimensions. -/
theorem readType_spell (t : TypeExpr) (gap : Nat → Blanks) :
    readType (spell gap t.tokens) = (t.bare, t.rank) := by
  obtain ⟨c, hlast, _, hbracket⟩ := t.getLast?_bare
  have hwords : eraseArguments (" ".intercalate (Text.words (spell gap t.tokens))) = t.erased := by
    rw [← t.eraseArguments_spell gap, eraseArguments_eq, eraseArguments_eq,
      Text.visible_intercalate_words]
  unfold readType
  simp only [filter_words (not_mem_spell gap t.tokens), hwords, ellipsisToBrackets_erased,
    takeBrackets_withDims hlast hbracket, List.reverse_reverse, String.ofList_toList]

example : readType "Map<K, List<V[]>> . Entry [ ] ..." = ("Map.Entry", 2) := by decide +kernel

end TypeExpr

/-- However a type is written, it means the primitive type or the class that the dotted name of its
    segments means, with as many pairs of brackets as it has dimensions. `var` means no type. -/
theorem Scopes.resolve_spell (s : Scopes) (h : Header) (scope : Option String) (t : TypeExpr)
    (gap : Nat → Blanks) :
    s.resolve h scope (spell gap t.tokens) =
      if t.bare = "var" then none
      else if t.bare ∈ primitiveTypes then some (withDims t.bare t.rank)
      else some (withDims (s.resolveClass h scope t.bare) t.rank) := by
  obtain ⟨c, hlast, _⟩ := t.getLast?_bare
  have hne : t.bare ≠ "" := by
    intro hempty
    simp [hempty] at hlast
  unfold resolve
  rw [t.readType_spell gap]
  simp [hne]

end ServiceReach.Index
