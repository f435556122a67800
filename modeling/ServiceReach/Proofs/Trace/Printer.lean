import ServiceReach.Proofs.Analysis
import ServiceReach.Proofs.Command.Outputs
import ServiceReach.Proofs.Index.InstructionText
import ServiceReach.Proofs.Text.Lines

/-
  A file of traces loses nothing. A trace is a block of lines that ends in a blank line. Every line
  of it starts with text of its own, so none is blank, whatever the steps are; the first line is the
  header, the second the terminus, and all others are steps, whatever they look like. So the blocks
  of a file are read in one way only (`read_eq_some_iff`). All this rests on texts of one line, and
  the steps of the traces of an indexed program are such texts (`oneLine_steps`).
-/

namespace ServiceReach

/-! ## Blocks of lines -/

namespace Trace

/-- What a file says about a trace. -/
structure Shown where
  entry : String
  terminus : String
  steps : List String
deriving DecidableEq, Repr

/-- What a file says about a trace: the signatures of its methods, and its steps. -/
def shown (t : Trace) : Shown :=
  ⟨t.entry.signature, t.terminus.signature, t.steps⟩

namespace Shown

/-- All texts are one line. -/
def OneLine (s : Shown) : Prop :=
  Text.OneLine s.entry ∧ Text.OneLine s.terminus ∧ ∀ step ∈ s.steps, Text.OneLine step

instance (s : Shown) : Decidable s.OneLine :=
  inferInstanceAs (Decidable (_ ∧ _ ∧ ∀ step ∈ s.steps, Text.OneLine step))

/-- The lines of a trace up to the blank one. -/
def block (s : Shown) : List String :=
  ("=== Core Path for " ++ s.entry ++ " ===") :: ("  # ends in " ++ s.terminus) ::
    s.steps.map ("  " ++ ·)

/-- The trace that a block of lines is about. -/
def ofBlock? : List String → Option Shown
  | header :: ending :: steps =>
    (Text.between? "=== Core Path for " " ===" header).bind fun entry =>
      (Text.after? "  # ends in " ending).bind fun terminus =>
        (steps.mapM (Text.after? "  ")).map fun steps => ⟨entry, terminus, steps⟩
  | _ => none

theorem ofBlock?_eq_some_iff (lines : List String) (s : Shown) :
    ofBlock? lines = some s ↔ lines = s.block := by
  obtain ⟨entry, terminus, steps⟩ := s
  unfold ofBlock? block
  split
  case h_1 header ending rest =>
    simp only [Option.bind_eq_some_iff, Option.map_eq_some_iff, Text.between?_eq_some_iff,
      Text.after?_eq_some_iff, Text.mapM_eq_some_iff fun _ _ => Text.after?_eq_some_iff,
      Shown.mk.injEq, List.cons.injEq]
    constructor
    · rintro ⟨_, rfl, _, rfl, _, rfl, rfl, rfl, rfl⟩
      exact ⟨rfl, rfl, rfl⟩
    · rintro ⟨rfl, rfl, rfl⟩
      exact ⟨_, rfl, _, rfl, _, rfl, rfl, rfl, rfl⟩
  case h_2 hshort =>
    constructor
    · intro h
      cases h
    · intro h
      exact absurd h (hshort _ _ _)

theorem blank_not_mem_block (s : Shown) : "" ∉ s.block := by
  simp [block]

theorem oneLine_block {s : Shown} : (∀ line ∈ s.block, Text.OneLine line) ↔ s.OneLine := by
  have hconst : Text.OneLine "=== Core Path for " ∧ Text.OneLine " ===" ∧
      Text.OneLine "  # ends in " ∧ Text.OneLine "  " := by decide
  simp [block, OneLine, Text.oneLine_append, hconst]

/-- The traces that a file is about. -/
def read? (text : String) : Option (List Shown) :=
  Text.readBlocks ofBlock? text

/-- A text is about traces of one-line texts in one way only. -/
theorem read?_eq_some_iff {text : String} {found : List Shown} :
    read? text = some found ↔ (∀ s ∈ found, s.OneLine) ∧ text = Text.writeBlocks block found := by
  unfold read?
  rw [Text.readBlocks_eq_some_iff ofBlock?_eq_some_iff blank_not_mem_block]
  simp only [oneLine_block]

end Shown

theorem lines_eq (t : Trace) : t.lines = t.shown.block ++ [""] := by
  simp [lines, Shown.block, shown]

theorem render_eq_writeBlocks (ts : List Trace) :
    render ts = Text.writeBlocks Shown.block (ts.map shown) := by
  rw [render, Text.writeBlocks, Text.ended, List.map_map, List.flatMap_map, funext lines_eq]
  rfl

theorem read?_render {ts : List Trace} (h : ∀ t ∈ ts, t.shown.OneLine) :
    Shown.read? (render ts) = some (ts.map shown) :=
  Shown.read?_eq_some_iff.mpr ⟨List.forall_mem_map.mpr h, render_eq_writeBlocks ts⟩

/-- Files of traces with texts of one line have the same bytes exactly if they are about the same
    traces. -/
theorem encode_render_inj {ts us : List Trace} (hts : ∀ t ∈ ts, t.shown.OneLine)
    (hus : ∀ t ∈ us, t.shown.OneLine) :
    Text.Utf8.encode (render ts) = Text.Utf8.encode (render us) ↔ ts.map shown = us.map shown := by
  constructor
  · intro h
    have hread := congrArg Shown.read? (Text.Utf8.encode_injective h)
    rw [read?_render hts, read?_render hus] at hread
    exact Option.some.inj hread
  · intro h
    rw [render_eq_writeBlocks, render_eq_writeBlocks, h]

end Trace

/-! ## Steps of one line -/

namespace Extraction

variable {v : View} {g : CallGraph} {P : String → Prop}

theorem forall_scan {visit : List String → Instruction → List Trace} {trace : List String}
    {code : List Instruction} (htrace : ∀ text ∈ trace, P text) (hcode : ∀ i ∈ code, P i.text)
    (hvisit : ∀ trace, (∀ text ∈ trace, P text) → ∀ i ∈ code,
      ∀ t ∈ visit trace i, ∀ text ∈ t.steps, P text) :
    ∀ t ∈ scan visit trace code, ∀ text ∈ t.steps, P text := by
  induction code generalizing trace with
  | nil => exact fun t ht => absurd ht List.not_mem_nil
  | cons i code ih =>
    rw [List.forall_mem_cons] at hcode
    have hnext : ∀ text ∈ trace ++ [i.text], P text :=
      List.forall_mem_append.mpr ⟨htrace, List.forall_mem_singleton.mpr hcode.1⟩
    intro t ht
    rcases List.mem_append.mp ht with ht | ht
    · exact hvisit _ hnext i List.mem_cons_self t ht
    · exact ih hnext hcode.2
        (fun trace h j hj => hvisit trace h j (List.mem_cons_of_mem i hj)) t ht

/-- The steps of a walk are texts of instructions of the method it comes to and of the targets of
    the graph. -/
theorem forall_walk {entry m : Method} {trace opened : List String}
    (hg : ∀ e ∈ g.edges, ∀ i ∈ e.2.instructions, P i.text) (hm : ∀ i ∈ m.instructions, P i.text)
    (htrace : ∀ text ∈ trace, P text) :
    ∀ t ∈ walk v g entry m trace opened, ∀ text ∈ t.steps, P text := by
  induction hd : depthLeft g m opened using Nat.strongRecOn generalizing m trace opened with
  | ind d ih =>
    by_cases hleaf : m.signature ∈ opened ∨ m.instructions = []
    · rw [walk_of_leaf hleaf]
      exact fun t ht => absurd ht List.not_mem_nil
    · rw [walk_of_enter hleaf]
      refine forall_scan htrace hm fun trace htrace i hi t ht => ?_
      rcases List.mem_append.mp ht with ht | ht
      · obtain ⟨c, hc, ht⟩ := List.mem_flatMap.mp ht
        obtain ⟨s, _, hedge⟩ := mem_edges_of_mem_callees hc
        have hlt := depthLeft_lt (fun ho => hleaf (Or.inl ho)) hc
        exact ih _ (hd ▸ hlt) (hg _ hedge) htrace rfl t ht
      · unfold completed at ht
        split at ht
        case isTrue => exact List.mem_singleton.mp ht ▸ htrace
        case isFalse => cases ht

end Extraction

namespace Index.Indexer

/-- The steps of the traces of an indexed program are texts of one line. -/
theorem oneLine_steps {room : Nat} {files : List File} {entries : List Method}
    (hentries : ∀ m ∈ entries, m ∈ (ofFiles room files).build.1.program.methods) :
    ∀ t ∈ ((ofFiles room files).build.1.program.explore entries).traces,
      ∀ step ∈ t.steps, Text.OneLine step := by
  have hmethod : ∀ m ∈ (ofFiles room files).build.1.program.methods,
      ∀ i ∈ m.instructions, Text.OneLine i.text := by
    intro m hm i hi
    rw [build_ofFiles] at hm
    unfold Method.instructions at hi
    split at hi
    case isTrue => exact Catalog.oneLineTexts_build (nodup_names_ofFiles room files) hm i hi
    case isFalse => cases hi
  generalize (ofFiles room files).build.1.program = p at hentries hmethod
  intro t ht
  rw [Program.traces_explore, Extraction.extractAll_eq_flatMap] at ht
  obtain ⟨e, he, ht⟩ := List.mem_flatMap.mp ht
  rw [Extraction.extract_eq_walk] at ht
  refine Extraction.forall_walk (fun edge hedge => ?_) (hmethod e (hentries e he))
    (fun _ h => absurd h List.not_mem_nil) t ht
  obtain ⟨m, _, _, htarget⟩ := (CallGraph.leastClosed_of_invariant
    (CallGraph.invariant_build p entries)).sound edge.1 edge.2 hedge
  exact hmethod _ (Program.mem_methods_of_mem_targets htarget)

end Index.Indexer

/-! ## Files -/

namespace Command

/-- A file of traces tells which traces were written to it: it can be read back, and two files hold
    the same exactly if they were given the same signatures and steps, trace by trace. The traces of
    an indexed program have the steps of one line that this takes. -/
theorem dumpTraces_loses_nothing {r r' s s' : Run} {path path' : String}
    {batches batches' : List (List Trace)}
    (hdump : (dumpTraces path batches).run r = (.ok none, r'))
    (hdump' : (dumpTraces path' batches').run s = (.ok none, s'))
    (hkept : ¬ r.workspace.Discards path) (hkept' : ¬ s.workspace.Discards path')
    (hlines : ∀ t ∈ batches.flatten, t.shown.OneLine)
    (hlines' : ∀ t ∈ batches'.flatten, t.shown.OneLine) :
    (∃ bytes text, r'.workspace.read path = .ok bytes ∧ Text.Utf8.decode? bytes = some text ∧
      Trace.Shown.read? text = some (batches.flatten.map Trace.shown)) ∧
    (r'.workspace.read path = s'.workspace.read path' ↔
      batches.flatten.map Trace.shown = batches'.flatten.map Trace.shown) ∧
    ∀ (room : Nat) (files : List Index.File) (entries : List Method),
      (∀ m ∈ entries, m ∈ (Index.Indexer.ofFiles room files).build.1.program.methods) →
      ∀ t ∈ ((Index.Indexer.ofFiles room files).build.1.program.explore entries).traces,
        ∀ step ∈ t.steps, Text.OneLine step := by
  have hread := read_of_dumpTraces hdump hkept
  have hread' := read_of_dumpTraces hdump' hkept'
  refine ⟨⟨_, _, hread, Text.Utf8.decode?_encode _, Trace.read?_render hlines⟩, ?_,
    fun _ _ _ hentries => Index.Indexer.oneLine_steps hentries⟩
  rw [hread, hread', Except.ok.injEq]
  exact Trace.encode_render_inj hlines hlines'

/-- A trace of a method into itself with some steps. -/
def traceOf (steps : List String) : Trace :=
  ⟨{ owner := "a.B", name := "run" }, { owner := "a.B", name := "run" }, steps⟩

/-- A trace with steps that look like the head of a trace. -/
def oneTrace : List (List Trace) :=
  [[traceOf ["", "=== Core Path for x ===", "  # ends in y", ""]]]

/-- Two traces in two batches. -/
def twoTraces : List (List Trace) :=
  [[traceOf [""]], [traceOf ["  # ends in y", ""]]]

/-- A trace with a step that looks like a header is not taken for two traces. -/
theorem dumpTraces_header_like_step :
    ((dumpTraces "a" oneTrace).run blankRun).1 = .ok none ∧
      ((dumpTraces "a" twoTraces).run blankRun).1 = .ok none ∧
      ((dumpTraces "a" oneTrace).run blankRun).2.workspace.read "a" ≠
        ((dumpTraces "a" twoTraces).run blankRun).2.workspace.read "a" := by
  have hlocate : blankRun.workspace.locate "a" = .ok ["a"] := rfl
  have hkept : ¬ blankRun.workspace.Discards "a" := Workspace.not_discards hlocate nofun
  have hone : (dumpTraces "a" oneTrace).run blankRun =
      (.ok none, ((dumpTraces "a" oneTrace).run blankRun).2) := rfl
  have htwo : (dumpTraces "a" twoTraces).run blankRun =
      (.ok none, ((dumpTraces "a" twoTraces).run blankRun).2) := rfl
  have h := dumpTraces_loses_nothing hone htwo hkept hkept (by decide) (by decide)
  exact ⟨congrArg Prod.fst hone, congrArg Prod.fst htwo,
    fun heq => absurd (h.2.1.mp heq) (by decide)⟩

end Command
end ServiceReach
