import LainLang.Datalog.Pipeline
import LainLang.Datalog.TopologyQueries
/-!
# From the live network to a graph

A trigger snapshots the network, a program derives facts from the snapshots, a query
grounds a pattern in them, and the ids of its rows are drawn with the edges between
them. The propagators run in any order while the network changes. Once none is alerted,
the graph is the one that all snapshots taken so far give at once.
-/
open LainLang.Lib LainLang.Js

namespace LainLang.Datalog

open LainLang.Tracer (DirectedGraph emptyGraph)

/-! ## Rows of a query -/

/-- `query` and `ground` of the matcher library. -/
structure QueryLibrary (P : Pmatcher) where
  query : Atom → List Fact → List P.Dict
  ground : Atom → P.Dict → Option Fact

/-- The bindings found, put into the pattern, are the facts that the pattern stands for. -/
def QueryLibrary.Correct {P : Pmatcher} (lib : QueryLibrary P) : Prop :=
  ∀ pattern facts g, (∃ dict ∈ lib.query pattern facts, lib.ground pattern dict = some g) ↔
    g ∈ facts ∧ ∃ σ, Atom.eval σ pattern = g

/-- The facts the query propagator writes. -/
def groundedRows {P : Pmatcher} (lib : QueryLibrary P) (pattern : Atom) (facts : List Fact) : List Fact :=
  (lib.query pattern facts).filterMap fun dict => (lib.ground pattern dict).map fun g => "q_row" :: g

/-- A decoded answer row. -/
structure QRowDecoded where
  pred : String
  args : List String

/-- `["q_row", pred, ...args]`; anything else is not a row. -/
def decode_q_row : Fact → Option QRowDecoded
  | tag :: pred :: args => if tag = "q_row" then some ⟨pred, args⟩ else none
  | _ => none

/-- The arguments of all answer rows, without repetitions. -/
def entity_ids_from_q_row_facts (facts : List Fact) : List String :=
  (facts.flatMap fun f => ((decode_q_row f).map QRowDecoded.args).getD []).eraseDups

/-- The graph that the last propagator writes. -/
def topology_filtered_graph (Number : String → JsNumber) (topo answers : FactSet) : DirectedGraph :=
  let keep := entity_ids_from_q_row_facts answers.facts
  if keep = [] then emptyGraph else graphology_from_topology_facts Number topo.facts keep

/-! ## The propagators -/

/-- The snapshot of the network, the program, the query and the filter. -/
inductive PipelineStage where
  | snapshot
  | derived
  | query
  | filter
  deriving DecidableEq

/-- The cells of facts. -/
inductive LiveCell where
  | topo
  | derived
  | answers
  deriving DecidableEq

/-- Which cells wake which propagator. -/
def live_reads : PipelineStage → LiveCell → Bool
  | .derived, .topo => true
  | .query, .derived => true
  | .filter, .topo => true
  | .filter, .answers => true
  | _, _ => false

/-- With what was last written to the cell of the graph. -/
structure LivePipeline extends FactCells LiveCell PipelineStage where
  output : Option DirectedGraph

/-- Each propagator is alerted when it is constructed. -/
def wire_live_pipeline : LivePipeline := { FactCells.start with output := none }

namespace LivePipeline

/-- The cell of the trigger is updated. -/
def trigger (s : LivePipeline) : LivePipeline := { s with toFactCells := s.alert true fun stage => stage == .snapshot }

/-- The scheduler takes the propagator from its queue. -/
def taken (s : LivePipeline) (stage : PipelineStage) : LivePipeline := { s with toFactCells := s.toFactCells.taken stage }

/-- A cell gets an increment, and alerts its readers when that changes it. -/
def update (P : Pmatcher) (s : LivePipeline) (cell : LiveCell) (increment : FactSet) : LivePipeline :=
  { s with toFactCells := s.toFactCells.update P live_reads cell increment }

end LivePipeline

/-- The trigger is updated, the snapshot is taken of the network as it is then, or one
of the other propagators runs. -/
inductive LiveEvent where
  | trigger
  | snapshot (net : LiveNetwork)
  | derive
  | query
  | filter

section
variable (P : Pmatcher) (engines : MiniDatalog) (lib : QueryLibrary P) (Number : String → JsNumber) (prog : LogicProgram)
  (pattern : Atom)

/-- The body of the query propagator: rows for the facts of the derived cell. -/
def LivePipeline.run_query_propagator (s : LivePipeline) : LivePipeline :=
  match s.cell .derived with
  | none => s
  | some val => s.update P .answers (make_fact_set (groundedRows lib pattern val.facts))

/-- The body of the filter: the graph of the topology facts on the answered ids. -/
def LivePipeline.run_filter (s : LivePipeline) : LivePipeline :=
  match s.cell .topo, s.cell .answers with
  | some t, some a => { s with output := some (topology_filtered_graph Number t a) }
  | _, _ => s

/-- A run from the wired pipeline. -/
inductive LiveRuns : List LiveEvent → LivePipeline → Prop where
  | init : LiveRuns [] wire_live_pipeline
  | trigger {events s} : LiveRuns events s → LiveRuns (events ++ [.trigger]) s.trigger
  | snapshot {events s} (net : LiveNetwork) : LiveRuns events s →
      LiveRuns (events ++ [.snapshot net])
        ((s.taken .snapshot).update P .topo (make_fact_set (snapshot_topology_facts net)))
  | derive {events s} {fuel : ℕ} {facts : List Fact} : LiveRuns events s →
      evaluate_program P engines fuel prog (contentFacts (s.cell .topo)) = some facts →
      LiveRuns (events ++ [.derive]) ((s.taken .derived).update P .derived (make_fact_set facts))
  | query {events s} : LiveRuns events s →
      LiveRuns (events ++ [.query]) ((s.taken .query).run_query_propagator P lib pattern)
  | filter {events s} : LiveRuns events s → LiveRuns (events ++ [.filter]) ((s.taken .filter).run_filter Number)

end

/-- The scheduler has nothing to run. -/
def LivePipeline.AtRest (s : LivePipeline) : Prop := ∀ stage, s.alerted stage = false

/-- The facts of all snapshots, in their order. -/
def snapshotFacts (events : List LiveEvent) : List Fact :=
  events.flatMap fun e =>
    match e with
    | .snapshot net => snapshot_topology_facts net
    | _ => []

/-! ## What every order keeps -/

/-- The rows of the facts that the pattern stands for. -/
def rowsOf (pattern : Atom) (facts : Set Fact) : Set Fact :=
  {f | ∃ g ∈ facts, (∃ σ, Atom.eval σ pattern = g) ∧ f = "q_row" :: g}

theorem mem_groundedRows {P : Pmatcher} {lib : QueryLibrary P} (hlib : lib.Correct) {pattern : Atom} {facts : List Fact}
    {f : Fact} : f ∈ groundedRows lib pattern facts ↔ f ∈ rowsOf pattern {f | f ∈ facts} := by
  simp only [groundedRows, List.mem_filterMap, Option.map_eq_some_iff, rowsOf, Set.mem_ofPred_eq]
  constructor
  · rintro ⟨dict, hdict, g, hg, rfl⟩
    obtain ⟨hmem, hpattern⟩ := (hlib pattern facts g).1 ⟨dict, hdict, hg⟩
    exact ⟨g, hmem, hpattern, rfl⟩
  · rintro ⟨g, hmem, hpattern, rfl⟩
    obtain ⟨dict, hdict, hg⟩ := (hlib pattern facts g).2 ⟨hmem, hpattern⟩
    exact ⟨dict, hdict, g, hg, rfl⟩

theorem rowsOf_mono (pattern : Atom) {facts facts' : Set Fact} (h : facts ⊆ facts') :
    rowsOf pattern facts ⊆ rowsOf pattern facts' := by
  rintro f ⟨g, hg, hrest⟩
  exact ⟨g, h hg, hrest⟩

theorem snapshotFacts_append (events : List LiveEvent) (e : LiveEvent) :
    snapshotFacts (events ++ [e]) = snapshotFacts events ++ snapshotFacts [e] := by
  rw [snapshotFacts, List.flatMap_append]
  rfl

/-- Only a snapshot adds facts. -/
theorem snapshotFacts_other {events : List LiveEvent} {e : LiveEvent} (h : snapshotFacts [e] = []) :
    snapshotFacts (events ++ [e]) = snapshotFacts events := by
  rw [snapshotFacts_append, h, List.append_nil]

/-- The snapshot and the filter make no facts of other cells. -/
def liveFlow (prog : LogicProgram) (pattern : Atom) : Dataflow LiveCell PipelineStage (WithBot (Set Fact)) where
  reads stage cell := live_reads stage cell = true
  writes
    | .derived => .derived
    | .query => .answers
    | _ => .topo
  value
    | .derived => fun c => ((least_model ∅ prog.rules ((c .topo).unbotD ∅) : Set Fact) :)
    | .query => fun c => (c .derived).map (rowsOf pattern)
    | _ => fun _ => ⊥
  mono stage := by
    intro c c' h
    cases stage with
    | derived => exact WithBot.coe_le_coe.2 (least_model_mono (unbotD_mono (h .topo)))
    | query => exact Monotone.withBot_map (fun _ _ hsub => rowsOf_mono pattern hsub) (h .derived)
    | snapshot => exact le_rfl
    | filter => exact le_rfl
  reads_value stage c c' h := by
    cases stage with
    | derived =>
      dsimp only
      rw [h .topo rfl]
    | query =>
      dsimp only
      rw [h .derived rfl]
    | snapshot => rfl
    | filter => rfl

/-- The cells hold what the dataflow keeps, the first one the facts of the snapshots, and
the graph is that of the cells unless the filter is alerted. -/
structure LiveKept (Number : String → JsNumber) (prog : LogicProgram) (pattern : Atom) (events : List LiveEvent)
    (s : LivePipeline) : Prop where
  topo : {f | f ∈ contentFacts (s.cell .topo)} = {f | f ∈ snapshotFacts events}
  snapshot_taken : s.alerted .snapshot = false → s.cell .topo ≠ none
  kept : ∃ g, g .derived = ⊥ ∧ g .answers = ⊥ ∧ (liveFlow prog pattern).Kept g s.flow
  drawn : s.alerted .filter = false → ∀ t a, s.cell .topo = some t → s.cell .answers = some a →
    s.output = some (topology_filtered_graph Number t a)

section
variable {P : Pmatcher} {Number : String → JsNumber} {prog : LogicProgram} {pattern : Atom} {events : List LiveEvent}
  {s : LivePipeline}

theorem LiveKept.init : LiveKept Number prog pattern [] wire_live_pipeline where
  topo := rfl
  snapshot_taken h := by cases h
  kept := ⟨_, rfl, rfl, FactCells.flow_start ▸ Dataflow.kept_start⟩
  drawn h := by cases h

theorem LiveKept.trigger (h : LiveKept Number prog pattern events s) :
    LiveKept Number prog pattern (events ++ [.trigger]) s.trigger where
  topo := @snapshotFacts_other events .trigger rfl ▸ h.topo
  snapshot_taken hquiet := absurd (FactCells.alert_quiet.1 hquiet).2 (by decide)
  kept := by
    obtain ⟨g, hderived, hanswers, hkept⟩ := h.kept
    refine ⟨g, hderived, hanswers, hkept.alert rfl fun stage halerted => ?_⟩
    exact Bool.or_eq_true_iff.2 (.inl halerted)
  drawn hquiet := h.drawn (FactCells.alert_quiet.1 hquiet).1

/-- A quiet filter has drawn what the cells hold, if it was not the one that ran. -/
theorem LiveKept.drawn_update (h : LiveKept Number prog pattern events s) {stage : PipelineStage} (hstage : .filter ≠ stage)
    {cell : LiveCell} {increment : FactSet} (hread : live_reads .filter cell = true ∨ cell = .derived)
    (hquiet : ((s.taken stage).update P cell increment).alerted .filter = false) {t a : FactSet}
    (ht : ((s.taken stage).update P cell increment).cell .topo = some t)
    (ha : ((s.taken stage).update P cell increment).cell .answers = some a) :
    s.output = some (topology_filtered_graph Number t a) := by
  obtain ⟨hbefore, hunchanged⟩ := FactCells.alert_quiet.1 hquiet
  have hfilter := (FactCells.taken_quiet.1 hbefore).resolve_right hstage
  have hsame : ∀ other, other ≠ .derived → ((s.taken stage).update P cell increment).cell other = s.cell other := by
    intro other hother
    by_cases hcell : other = cell
    · subst hcell
      rcases hunchanged with hchanged | hnot
      · exact FactCells.cell_update.trans (update_unchanged hchanged)
      · rcases hread with hread | hderived
        · exact absurd (hread.symm.trans hnot) (by decide)
        · exact absurd hderived hother
    · exact FactCells.cell_update_of_ne hcell
  rw [hsame .topo (by decide)] at ht
  rw [hsame .answers (by decide)] at ha
  exact h.drawn hfilter t a ht ha

variable (hP : P.FirstOrder)
include hP

theorem flow_update_taken (stage : PipelineStage) (cell : LiveCell) (increment : FactSet) :
    ((s.taken stage).update P cell increment).flow =
      (liveFlow prog pattern).add (Dataflow.taken s.flow stage) cell (increment.contents : Set Fact) := by
  rw [← FactCells.flow_taken]
  exact FactCells.flow_update hP (fun _ _ => Iff.rfl) cell increment

theorem LiveKept.snapshot (h : LiveKept Number prog pattern events s) (net : LiveNetwork) :
    LiveKept Number prog pattern (events ++ [.snapshot net])
      ((s.taken .snapshot).update P .topo (make_fact_set (snapshot_topology_facts net))) where
  topo := by
    have hcell := @FactCells.cell_update _ _ (s.taken .snapshot).toFactCells _ P live_reads .topo
      (make_fact_set (snapshot_topology_facts net))
    ext f
    refine (Iff.of_eq (congrArg (fun content => f ∈ contentFacts content) hcell)).trans ((mem_update_cell hP).trans ?_)
    rw [snapshotFacts_append]
    refine (or_congr_left (Set.ext_iff.1 h.topo f)).trans ?_
    simp [snapshotFacts, make_fact_set]
  snapshot_taken _ := by
    rw [LivePipeline.update, FactCells.cell_update]
    exact update_ne_none P _ _
  kept := by
    obtain ⟨g, hderived, hanswers, hkept⟩ := h.kept
    rw [flow_update_taken hP]
    exact ⟨_, by simp [hderived], by simp [hanswers], (hkept.taken bot_le).add .topo _⟩
  drawn hquiet _ _ := h.drawn_update (by decide) (.inl rfl) hquiet

theorem LiveKept.derive (h : LiveKept Number prog pattern events s) {facts : List Fact}
    (hfacts : {f | f ∈ facts} = least_model ∅ prog.rules {f | f ∈ contentFacts (s.cell .topo)}) :
    LiveKept Number prog pattern (events ++ [.derive]) ((s.taken .derived).update P .derived (make_fact_set facts)) where
  topo := by
    rw [LivePipeline.update, FactCells.cell_update_of_ne (by decide), snapshotFacts_other rfl]
    exact h.topo
  snapshot_taken hquiet := by
    rw [LivePipeline.update, FactCells.cell_update_of_ne (by decide)]
    exact h.snapshot_taken ((FactCells.taken_quiet.1 (FactCells.alert_quiet.1 hquiet).1).resolve_right (by decide))
  kept := by
    obtain ⟨g, hderived, hanswers, hkept⟩ := h.kept
    have hvalue : (liveFlow prog pattern).value .derived s.flow.contents = ((make_fact_set facts).contents : Set Fact) := by
      simp only [liveFlow, FactCells.flow, unbotD_heldFacts, ← hfacts]
      rfl
    rw [flow_update_taken hP, ← hvalue]
    exact ⟨g, hderived, hanswers, hkept.runStage .derived⟩
  drawn hquiet _ _ := h.drawn_update (by decide) (.inr rfl) hquiet

theorem LiveKept.query (h : LiveKept Number prog pattern events s) {lib : QueryLibrary P} (hlib : lib.Correct) :
    LiveKept Number prog pattern (events ++ [.query]) ((s.taken .query).run_query_propagator P lib pattern) := by
  obtain ⟨g, hgderived, hganswers, hkept⟩ := h.kept
  have hevents : snapshotFacts (events ++ [.query]) = snapshotFacts events := snapshotFacts_other rfl
  unfold LivePipeline.run_query_propagator
  cases hderived : (s.taken .query).cell .derived with
  | none =>
    refine ⟨hevents ▸ h.topo, fun hquiet => ?_, ⟨g, hgderived, hganswers, ?_⟩, fun hquiet => ?_⟩
    · exact h.snapshot_taken ((FactCells.taken_quiet.1 hquiet).resolve_right (by decide))
    · -- Nothing has been derived, so there is nothing to answer.
      have hbot : (liveFlow prog pattern).value .query s.flow.contents = ⊥ :=
        congrArg (fun content => (heldFacts content).map (rowsOf pattern)) hderived
      exact FactCells.flow_taken PipelineStage.query ▸ hkept.taken (hbot ▸ bot_le)
    · exact h.drawn ((FactCells.taken_quiet.1 hquiet).resolve_right (by decide))
  | some val =>
    have hvalue : (liveFlow prog pattern).value .query s.flow.contents =
        ((make_fact_set (groundedRows lib pattern val.facts)).contents : Set Fact) := by
      have hrows : {f | f ∈ groundedRows lib pattern val.facts} = rowsOf pattern val.contents :=
        Set.ext fun f => mem_groundedRows hlib
      refine (congrArg (fun content => (heldFacts content).map (rowsOf pattern)) hderived).trans ?_
      exact congrArg _ hrows.symm
    refine ⟨?_, fun hquiet => ?_, ⟨g, hgderived, hganswers, ?_⟩, fun hquiet _ _ => ?_⟩
    · dsimp only
      rw [LivePipeline.update, FactCells.cell_update_of_ne (by decide), hevents]
      exact h.topo
    · dsimp only
      rw [LivePipeline.update, FactCells.cell_update_of_ne (by decide)]
      exact h.snapshot_taken ((FactCells.taken_quiet.1 (FactCells.alert_quiet.1 hquiet).1).resolve_right (by decide))
    · dsimp only
      rw [flow_update_taken hP, ← hvalue]
      exact hkept.runStage .query
    · exact h.drawn_update (by decide) (.inl rfl) hquiet

omit hP in
theorem LiveKept.filter (h : LiveKept Number prog pattern events s) :
    LiveKept Number prog pattern (events ++ [.filter]) ((s.taken .filter).run_filter Number) := by
  have hrun : ∃ output, (s.taken .filter).run_filter Number = { s.taken .filter with output := output } ∧
      ∀ t a, s.cell .topo = some t → s.cell .answers = some a → output = some (topology_filtered_graph Number t a) := by
    unfold LivePipeline.run_filter
    split
    · rename_i t a ht ha
      refine ⟨_, rfl, fun t' a' ht' ha' => ?_⟩
      rw [Option.some.inj (ht.symm.trans ht'), Option.some.inj (ha.symm.trans ha')]
    · rename_i hnone
      exact ⟨s.output, rfl, fun t a ht ha => absurd ha (hnone t a ht)⟩
  obtain ⟨output, hrun, hdrawn⟩ := hrun
  obtain ⟨g, hderived, hanswers, hkept⟩ := h.kept
  rw [hrun]
  have hevents : snapshotFacts (events ++ [.filter]) = snapshotFacts events := snapshotFacts_other rfl
  refine ⟨hevents ▸ h.topo, fun hquiet => ?_, ⟨g, hderived, hanswers, ?_⟩, fun _ => hdrawn⟩
  · exact h.snapshot_taken ((FactCells.taken_quiet.1 hquiet).resolve_right (by decide))
  · exact FactCells.flow_taken PipelineStage.filter ▸ hkept.taken bot_le

end

/-! ## What the graph shows at rest -/

theorem mem_entity_ids {facts : List Fact} {id : String} :
    id ∈ entity_ids_from_q_row_facts facts ↔ ∃ pred args, "q_row" :: pred :: args ∈ facts ∧ id ∈ args := by
  rw [entity_ids_from_q_row_facts, List.mem_eraseDups, List.mem_flatMap]
  constructor
  · rintro ⟨f, hf, hid⟩
    match f with
    | tag :: pred :: args =>
      by_cases htag : tag = "q_row"
      · subst htag
        exact ⟨pred, args, hf, hid⟩
      · simp [decode_q_row, htag] at hid
    | [_] | [] => simp [decode_q_row] at hid
  · rintro ⟨pred, args, hf, hid⟩
    exact ⟨_, hf, hid⟩

/-- The drawn ids, and the reads and writes between them. -/
theorem filtered_graph_spec (Number : String → JsNumber) (topo answers : FactSet) :
    (∀ id, (topology_filtered_graph Number topo answers).hasNode id = true ↔ id ∈ entity_ids_from_q_row_facts answers.facts) ∧
    ∀ e, e ∈ (topology_filtered_graph Number topo answers).edges ↔ e.1 ∈ entity_ids_from_q_row_facts answers.facts ∧
      e.2 ∈ entity_ids_from_q_row_facts answers.facts ∧ ∃ f ∈ topo.facts, factEdge f = some e := by
  rw [topology_filtered_graph]
  by_cases hnone : entity_ids_from_q_row_facts answers.facts = []
  · rw [if_pos hnone, hnone]
    simp [emptyGraph, DirectedGraph.hasNode]
  · rw [if_neg hnone]
    obtain ⟨hnodes, -, hedges⟩ := graphology_kept Number topo.facts (eraseDups_nodup (answers.facts.flatMap fun f =>
      ((decode_q_row f).map QRowDecoded.args).getD []))
    exact ⟨hnodes, hedges⟩

theorem filter_alerted (Number : String → JsNumber) (s : LivePipeline) : (s.run_filter Number).alerted = s.alerted := by
  unfold LivePipeline.run_filter
  split <;> rfl

theorem query_quiet {P : Pmatcher} (lib : QueryLibrary P) (pattern : Atom) {s : LivePipeline} {stage : PipelineStage}
    (h : s.alerted stage = false) (hread : live_reads stage .answers = false) :
    (s.run_query_propagator P lib pattern).alerted stage = false := by
  unfold LivePipeline.run_query_propagator
  split
  · exact h
  · exact FactCells.update_quiet h hread

/-- Of the three-element facts of a snapshot, only reads and writes are edges. -/
theorem snapshotFacts_edge {events : List LiveEvent} (x y : String) :
    (∃ f ∈ snapshotFacts events, factEdge f = some (x, y)) ↔
      ["reads", y, x] ∈ snapshotFacts events ∨ ["writes", x, y] ∈ snapshotFacts events := by
  constructor
  · rintro ⟨f, hf, hedge⟩
    obtain ⟨e, he, hfe⟩ := List.mem_flatMap.1 hf
    have hshape : ∃ tag id text, f = [tag, id, text] := by
      cases e with
      | snapshot net =>
        obtain ⟨tag, -, id, text, rfl, -⟩ := subject_mem_ids hfe
        exact ⟨tag, id, text, rfl⟩
      | _ => cases hfe
    obtain ⟨tag, id, text, rfl⟩ := hshape
    simp only [factEdge] at hedge
    split at hedge
    · rename_i htag
      obtain ⟨rfl, rfl⟩ := Prod.mk.inj (Option.some.inj hedge)
      exact .inl (htag ▸ hf)
    · split at hedge
      · rename_i htag
        obtain ⟨rfl, rfl⟩ := Prod.mk.inj (Option.some.inj hedge)
        exact .inr (htag ▸ hf)
      · cases hedge
  · rintro (h | h)
    · exact ⟨_, h, rfl⟩
    · exact ⟨_, h, rfl⟩

section
variable {P : Pmatcher} (hP : P.FirstOrder) {engines : MiniDatalog} (hE : engines.Correct P) {lib : QueryLibrary P}
  (hlib : lib.Correct) (Number : String → JsNumber) {prog : LogicProgram} (hsafe : ∀ r ∈ prog.rules, r.Safe)
  (hneg : NegFree prog) {pattern : Atom} {events : List LiveEvent} {s : LivePipeline}
include hP hE hlib hsafe hneg

theorem liveKept_of_runs (h : LiveRuns P engines lib Number prog pattern events s) :
    LiveKept Number prog pattern events s := by
  induction h with
  | init => exact .init
  | trigger _ ih => exact ih.trigger
  | snapshot net _ ih => exact ih.snapshot hP net
  | derive _ heval ih => exact ih.derive hP (Set.ext (evaluate_program_model hP hE hsafe hneg heval))
  | query _ ih => exact ih.query hP hlib
  | filter _ ih => exact ih.filter

omit hE hlib hsafe hneg in
/-- Taking a snapshot and running the others after it in their order leaves none alerted. -/
theorem live_settles (h : LiveRuns P engines lib Number prog pattern events s) (net : LiveNetwork) :
    ∃ s', LiveRuns P engines lib Number prog pattern (events ++ [.snapshot net, .derive, .query, .filter]) s' ∧ s'.AtRest := by
  obtain ⟨s₁, hs₁⟩ : ∃ s₁, s₁ = (s.taken .snapshot).update P .topo (make_fact_set (snapshot_topology_facts net)) := ⟨_, rfl⟩
  have hsnapshot := h.snapshot net
  rw [← hs₁] at hsnapshot
  obtain ⟨fuel, facts, heval⟩ := evaluate_program_ends hP engines prog (contentFacts (s₁.cell .topo))
  have hfilter := ((hsnapshot.derive heval).query).filter
  simp only [List.append_assoc, List.singleton_append] at hfilter
  refine ⟨_, hfilter, fun stage => ?_⟩
  -- Each runs after those that alert it.
  have hfirst : s₁.alerted .snapshot = false :=
    hs₁ ▸ FactCells.update_quiet (FactCells.taken_quiet.2 (.inr rfl)) rfl
  obtain ⟨s₂, hs₂⟩ : ∃ s₂, s₂ = (s₁.taken .derived).update P .derived (make_fact_set facts) := ⟨_, rfl⟩
  have hsecond : ∀ x, x = .snapshot ∨ x = .derived → s₂.alerted x = false := by
    rintro x (rfl | rfl)
    · exact hs₂ ▸ FactCells.update_quiet (FactCells.taken_quiet.2 (.inl hfirst)) rfl
    · exact hs₂ ▸ FactCells.update_quiet (FactCells.taken_quiet.2 (.inr rfl)) rfl
  rw [← hs₂, filter_alerted]
  refine FactCells.taken_quiet.2 ?_
  cases stage with
  | filter => exact .inr rfl
  | query => exact .inl (query_quiet lib pattern (FactCells.taken_quiet.2 (.inr rfl)) (by decide))
  | derived => exact .inl (query_quiet lib pattern (FactCells.taken_quiet.2 (.inl (hsecond _ (.inr rfl)))) (by decide))
  | snapshot => exact .inl (query_quiet lib pattern (FactCells.taken_quiet.2 (.inl (hsecond _ (.inl rfl)))) (by decide))

omit hE hlib hsafe hneg hP in
/-- At rest the cells hold what is derived from the snapshots, and its rows. -/
theorem LiveKept.at_rest (h : LiveKept Number prog pattern events s) (hrest : s.AtRest) :
    ∃ t d a, s.cell .topo = some t ∧ s.cell .derived = some d ∧ s.cell .answers = some a ∧
      t.contents = {f | f ∈ snapshotFacts events} ∧ d.contents = least_model ∅ prog.rules t.contents ∧
      a.contents = rowsOf pattern d.contents := by
  obtain ⟨g, hgderived, hganswers, hkept⟩ := h.kept
  have hdone : ∀ stage, (liveFlow prog pattern).value stage s.flow.contents ≤
      s.flow.contents ((liveFlow prog pattern).writes stage) :=
    fun stage => hkept.done stage (by simp [FactCells.flow, hrest stage])
  obtain ⟨t, ht⟩ := Option.ne_none_iff_exists'.1 (h.snapshot_taken (hrest .snapshot))
  have htopo := h.topo
  have hderived := hkept.contents_eq (j := .derived) hdone (fun k hk => by cases k <;> first | rfl | cases hk) hgderived
  have hanswers := hkept.contents_eq (j := .query) hdone (fun k hk => by cases k <;> first | rfl | cases hk) hganswers
  simp only [liveFlow, FactCells.flow, unbotD_heldFacts, ht] at hderived
  obtain ⟨d, hd, hmodel⟩ := heldFacts_eq_coe.1 hderived
  simp only [liveFlow, FactCells.flow, hd] at hanswers
  obtain ⟨a, ha, hrows⟩ := heldFacts_eq_coe.1 hanswers
  rw [ht] at htopo
  exact ⟨t, d, a, ht, hd, ha, htopo, hmodel, hrows⟩

/-- From every state a snapshot can be drawn to the end, and whenever nothing is alerted
the graph has the ids of the derived facts that the pattern stands for, with the reads
and writes between them, as one evaluation over all snapshots so far gives them. -/
theorem live_graph_at_rest (h : LiveRuns P engines lib Number prog pattern events s) :
    (∀ net, ∃ s', LiveRuns P engines lib Number prog pattern (events ++ [.snapshot net, .derive, .query, .filter]) s' ∧
      s'.AtRest) ∧
    (s.AtRest → ∃ graph, s.output = some graph ∧ ∀ fuel derived,
      evaluate_program P engines fuel prog (snapshotFacts events) = some derived →
        (∀ id, graph.hasNode id = true ↔
          ∃ pred args, pred :: args ∈ derived ∧ (∃ σ, Atom.eval σ pattern = pred :: args) ∧ id ∈ args) ∧
        ∀ x y, (x, y) ∈ graph.edges ↔ graph.hasNode x = true ∧ graph.hasNode y = true ∧
          (["reads", y, x] ∈ snapshotFacts events ∨ ["writes", x, y] ∈ snapshotFacts events)) := by
  refine ⟨live_settles hP Number h, fun hrest => ?_⟩
  have hkept := liveKept_of_runs hP hE hlib Number hsafe hneg h
  obtain ⟨t, d, a, ht, -, ha, htopo, hmodel, hrowsOf⟩ := hkept.at_rest Number hrest
  refine ⟨_, hkept.drawn (hrest .filter) t a ht ha, fun fuel derived heval => ?_⟩
  obtain ⟨hnodes, hedges⟩ := filtered_graph_spec Number t a
  have hfacts : ∀ f, f ∈ t.facts ↔ f ∈ snapshotFacts events := Set.ext_iff.1 htopo
  have hderived : d.contents = {f | f ∈ derived} := by
    rw [hmodel, htopo]
    exact (Set.ext (evaluate_program_model hP hE hsafe hneg heval)).symm
  have hrows : ∀ f, f ∈ a.facts ↔ f ∈ rowsOf pattern {f | f ∈ derived} := Set.ext_iff.1 (hderived ▸ hrowsOf)
  refine ⟨fun id => ?_, fun x y => ?_⟩
  · rw [hnodes, mem_entity_ids]
    simp only [hrows, rowsOf, Set.mem_ofPred_eq, List.cons.injEq, true_and]
    constructor
    · rintro ⟨pred, args, ⟨g, hg, hpattern, rfl⟩, hid⟩
      exact ⟨pred, args, hg, hpattern, hid⟩
    · rintro ⟨pred, args, hg, hpattern, hid⟩
      exact ⟨pred, args, ⟨_, hg, hpattern, rfl⟩, hid⟩
  · rw [hedges (x, y), hnodes, hnodes, ← snapshotFacts_edge]
    simp only [hfacts]

end

/-! ## A query library and a run -/

/-- `query` by unification with each fact, as the matcher library does it. -/
def unifyQuery (P : Pmatcher) : QueryLibrary P where
  query pattern facts := facts.filterMap fun f => unify_premise P pattern f P.empty_dict
  ground := ground_fact P

section
variable {P : Pmatcher} (hP : P.FirstOrder)
include hP

/-- A binding found by unification with a fact turns the pattern into the fact. -/
theorem ground_of_unify {pattern : Atom} {f : Fact} {d : P.Dict} (h : unify_premise P pattern f P.empty_dict = some d) :
    ground_fact P pattern d = some f := by
  have hanswer := hP.unify_internal_atoms pattern f.terms P.empty_dict
  unfold unify_premise at h
  split at h
  · rename_i d' hdict
    obtain rfl := Option.some.inj h
    rw [hdict] at hanswer
    have hall : ∀ τ, P.Solves d' τ → Atom.eval τ pattern = f := by
      intro τ hτ
      rw [((hanswer τ).1 hτ).2, Fact.eval_terms]
    -- Every variable of the pattern is determined by the fact.
    obtain ⟨g, hg⟩ := @groundAtom_some (pattern.map (P.match_dict_substitute d')) (by
      intro u hu
      obtain ⟨t, ht, rfl⟩ := List.mem_map.1 hu
      cases t with
      | str s => exact ⟨s, hP.substitute_str d' s⟩
      | V x =>
        refine hP.ground_of_determined fun τ τ' hτ hτ' => ?_
        have hmap : pattern.map (Term.eval τ) = pattern.map (Term.eval τ') := (hall τ hτ).trans (hall τ' hτ').symm
        exact List.map_inj_left.1 hmap _ ht)
    have hsolves := hP.solves_eval d' fun _ => ""
    have hgf : g = f := (eval_of_groundAtom hP hg hsolves).symm.trans (hall _ hsolves)
    exact hgf ▸ hg
  · cases h
  · cases h

theorem unifyQuery_correct : (unifyQuery P).Correct := by
  intro pattern facts g
  simp only [unifyQuery, List.mem_filterMap]
  constructor
  · rintro ⟨d, ⟨f, hf, hunify⟩, hground⟩
    obtain rfl := Option.some.inj ((ground_of_unify hP hunify).symm.trans hground)
    exact ⟨hf, _, eval_of_groundAtom hP hground (hP.solves_eval d fun _ => "")⟩
  · rintro ⟨hg, σ, hσ⟩
    have hanswer := hP.unify_internal_atoms pattern g.terms P.empty_dict
    have hsolved : Atom.eval σ pattern = Atom.eval σ g.terms := by rw [hσ, Fact.eval_terms]
    cases hunify : P.unify_internal_atoms pattern g.terms P.empty_dict with
    | fail =>
      rw [hunify] at hanswer
      exact absurd hsolved (hanswer σ (hP.solves_empty σ))
    | undefined =>
      rw [hunify] at hanswer
      exact hanswer.elim
    | dict d =>
      have hpremise : unify_premise P pattern g P.empty_dict = some d := by simp [unify_premise, hunify]
      exact ⟨d, ⟨g, hg, hpremise⟩, ground_of_unify hP hpremise⟩

end

/-- A cell named `Core` is drawn, and the propagator with it. -/
theorem live_graph_at_rest_pair : ∃ events s,
    LiveRuns firstOrder naiveEngines (unifyQuery firstOrder) readLevel (cell_namespace_program "Core" .incremental)
      (atom "ns_match" [.V "X"]) events s ∧ s.AtRest ∧ .snapshot pairNetwork ∈ events ∧
    ∃ graph, s.output = some graph ∧ ∀ fuel derived,
      evaluate_program firstOrder naiveEngines fuel (cell_namespace_program "Core" .incremental) (snapshotFacts events) =
        some derived →
        (∀ id, graph.hasNode id = true ↔ ∃ pred args, pred :: args ∈ derived ∧
          (∃ σ, Atom.eval σ (atom "ns_match" [.V "X"]) = pred :: args) ∧ id ∈ args) ∧
        ∀ x y, (x, y) ∈ graph.edges ↔ graph.hasNode x = true ∧ graph.hasNode y = true ∧
          (["reads", y, x] ∈ snapshotFacts events ∨ ["writes", x, y] ∈ snapshotFacts events) := by
  have hlayer := cell_namespace_layer .incremental "Core"
  have hall := fun events s => @live_graph_at_rest firstOrder firstOrder_firstOrder naiveEngines naiveEngines_correct
    (unifyQuery firstOrder) (unifyQuery_correct firstOrder_firstOrder) readLevel (cell_namespace_program "Core" .incremental)
    (fun r hr => safe_of_check (hlayer.safe r hr)) hlayer.negFree (atom "ns_match" [.V "X"]) events s
  obtain ⟨s, hruns, hrest⟩ := (hall _ _ .init).1 pairNetwork
  exact ⟨_, s, hruns, hrest, by simp, (hall _ s hruns).2 hrest⟩

end LainLang.Datalog
