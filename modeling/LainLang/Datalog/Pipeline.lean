import LainLang.Datalog.FactCells
import LainLang.Datalog.Staging
/-!
# Programs one after another

`wire_sequential_programs` runs each program on the facts the one before derived. The
scheduler runs a stage some time after its input cell changed, so a run updates the
first cell and executes the stages in any order. Once no stage is alerted, the last
cell holds what the composed program derives from the first, as long as no program
looks for what a later one derives.
-/
open LainLang.Lib

namespace LainLang.Datalog

/-- Cell 0 is `edbCell`, and stage `i` reads cell `i` and writes cell `i + 1`. -/
abbrev Pipeline := FactCells ℕ ℕ

/-- Each stage is alerted when it is constructed. -/
def wire_sequential_programs : Pipeline := .start

/-- Stage `i` reads cell `i`. -/
def reads_edb (stage cell : ℕ) : Bool := stage == cell

/-- The facts that the stage sees. -/
def Pipeline.edb (s : Pipeline) (i : ℕ) : Set Fact := {f | f ∈ contentFacts (s.cell i)}

/-- The first cell is updated, or a stage runs. -/
inductive PipelineEvent where
  | update (increment : FactSet)
  | execute (stage : ℕ)

/-- A run from the wired stages. -/
inductive PipelineRuns (P : Pmatcher) (engines : MiniDatalog) (programs : List LogicProgram) :
    List PipelineEvent → Pipeline → Prop where
  | init : PipelineRuns P engines programs [] wire_sequential_programs
  | update {events s} (increment : FactSet) : PipelineRuns P engines programs events s →
      PipelineRuns P engines programs (events ++ [.update increment]) (s.update P reads_edb 0 increment)
  | execute {events s} {stage : ℕ} {prog : LogicProgram} {fuel : ℕ} {derived : List Fact} :
      PipelineRuns P engines programs events s → programs[stage]? = some prog →
      evaluate_program P engines fuel prog (contentFacts (s.cell stage)) = some derived →
      PipelineRuns P engines programs (events ++ [.execute stage])
        ((s.taken stage).update P reads_edb (stage + 1) (make_fact_set derived))

/-- The scheduler has nothing to run. -/
def Pipeline.AtRest (programs : List LogicProgram) (s : Pipeline) : Prop := ∀ i < programs.length, s.alerted i = false

/-- All of the programs composed, in this order. -/
def compose_all (strategy : ExecutionStrategy) (programs : List LogicProgram) : LogicProgram :=
  programs.foldl (fun composed prog => compose_programs composed prog none) (program strategy [])

/-! ## Composed programs -/

theorem rules_compose_all (strategy : ExecutionStrategy) (programs : List LogicProgram) :
    (compose_all strategy programs).rules = programs.flatMap LogicProgram.rules := by
  suffices h : ∀ composed : LogicProgram, (programs.foldl (fun c prog => compose_programs c prog none) composed).rules =
      composed.rules ++ programs.flatMap LogicProgram.rules from h _
  induction programs with
  | nil => simp
  | cons prog programs ih =>
    intro composed
    rw [List.foldl_cons, ih, List.flatMap_cons, ← List.append_assoc]
    rfl

/-- No program looks for what a later one derives. -/
def InOrder (programs : List LogicProgram) : Prop := programs.Pairwise fun a b => NoFeedback a.rules b.rules

/-- What each stage makes of the facts of the one before. -/
def stages (programs : List LogicProgram) (edb : Set Fact) : Set Fact :=
  programs.foldl (fun facts prog => least_model ∅ prog.rules facts) edb

theorem stages_eq_composed {programs : List LogicProgram} (h : InOrder programs) (edb : Set Fact) :
    stages programs edb = least_model ∅ (programs.flatMap LogicProgram.rules) edb := by
  induction programs generalizing edb with
  | nil =>
    ext f
    rw [mem_least_model]
    simp [stages]
  | cons prog programs ih =>
    obtain ⟨hfirst, hrest⟩ := List.pairwise_cons.1 h
    have hfeedback : NoFeedback prog.rules (programs.flatMap LogicProgram.rules) := by
      intro r hr a ha q hq
      obtain ⟨later, hlater, hq⟩ := List.mem_flatMap.1 hq
      exact hfirst later hlater r hr a ha q hq
    rw [List.flatMap_cons, least_model_stages hfeedback, ← ih hrest]
    rfl

/-! ## The stages as a dataflow -/

/-- Stages past the last program make nothing. -/
def pipelineFlow (programs : List LogicProgram) : Dataflow ℕ ℕ (WithBot (Set Fact)) where
  reads stage cell := stage = cell
  writes stage := stage + 1
  value stage c := programs[stage]?.elim ⊥ fun prog => ((least_model ∅ prog.rules ((c stage).unbotD ∅) : Set Fact) :)
  mono stage := by
    intro c c' h
    cases programs[stage]? with
    | none => exact le_rfl
    | some prog => exact WithBot.coe_le_coe.2 (least_model_mono (unbotD_mono (h stage)))
  reads_value stage c c' h := by rw [h stage rfl]

theorem reads_edb_iff (programs : List LogicProgram) (stage cell : ℕ) :
    reads_edb stage cell = true ↔ (pipelineFlow programs).reads stage cell := beq_iff_eq

section
variable {P : Pmatcher} (hP : P.FirstOrder) {engines : MiniDatalog} (hE : engines.Correct P) {programs : List LogicProgram}
  (hsafe : ∀ prog ∈ programs, ∀ r ∈ prog.rules, r.Safe) (hneg : ∀ prog ∈ programs, NegFree prog)
include hP hE hsafe hneg

/-- A run of the pipeline keeps what the dataflow keeps, and only the first cell is given
facts. -/
theorem kept_of_runs {events : List PipelineEvent} {s : Pipeline} (h : PipelineRuns P engines programs events s) :
    ∃ g : ℕ → WithBot (Set Fact), (∀ i, g (i + 1) = ⊥) ∧ (pipelineFlow programs).Kept g s.flow := by
  induction h with
  | init =>
    rw [wire_sequential_programs, FactCells.flow_start]
    exact ⟨_, fun _ => rfl, Dataflow.kept_start⟩
  | update increment _ ih =>
    obtain ⟨g, hg, hkept⟩ := ih
    rw [FactCells.flow_update hP (reads_edb_iff programs)]
    exact ⟨_, fun i => by simp [hg], hkept.add 0 _⟩
  | @execute events s stage prog fuel derived _ hprog heval ih =>
    obtain ⟨g, hg, hkept⟩ := ih
    have hmem := List.mem_of_getElem? hprog
    have hmodel : {f | f ∈ derived} = least_model ∅ prog.rules {f | f ∈ contentFacts (s.cell stage)} :=
      Set.ext (evaluate_program_model hP hE (hsafe prog hmem) (hneg prog hmem) heval)
    have hvalue : (pipelineFlow programs).value stage s.flow.contents = ((make_fact_set derived).contents : Set Fact) := by
      simp only [pipelineFlow, hprog, Option.elim_some, FactCells.flow, unbotD_heldFacts, ← hmodel]
      rfl
    rw [FactCells.flow_update hP (reads_edb_iff programs), FactCells.flow_taken, ← hvalue]
    exact ⟨g, hg, hkept.runStage stage⟩

/-- At rest each cell holds what its stage derives from the one before. -/
theorem stage_at_rest {events : List PipelineEvent} {s : Pipeline} (h : PipelineRuns P engines programs events s)
    (hrest : s.AtRest programs) {i : ℕ} {prog : LogicProgram} (hprog : programs[i]? = some prog) :
    s.edb (i + 1) = least_model ∅ prog.rules (s.edb i) := by
  obtain ⟨g, hg, hkept⟩ := kept_of_runs hP hE hsafe hneg h
  have hdone : ∀ k, (pipelineFlow programs).value k s.flow.contents ≤ s.flow.contents (k + 1) := by
    intro k
    by_cases hk : k < programs.length
    · exact hkept.done k (by simp [FactCells.flow, hrest k hk])
    · simp [pipelineFlow, List.getElem?_eq_none (Nat.le_of_not_lt hk)]
  have hcell := hkept.contents_eq hdone (fun k hk => Nat.succ_injective hk) (hg i)
  have hunbot := congrArg (fun x : WithBot (Set Fact) => x.unbotD ∅) hcell
  simpa [pipelineFlow, hprog, FactCells.flow, unbotD_heldFacts, Pipeline.edb] using hunbot

/-- At rest the cells hold the stages. -/
theorem stages_at_rest {events : List PipelineEvent} {s : Pipeline} (h : PipelineRuns P engines programs events s)
    (hrest : s.AtRest programs) : s.edb programs.length = stages programs (s.edb 0) := by
  suffices hall : ∀ n, n ≤ programs.length → s.edb n = stages (programs.take n) (s.edb 0) by
    rw [hall _ le_rfl, List.take_length]
  intro n
  induction n with
  | zero => exact fun _ => rfl
  | succ n ih =>
    intro hn
    have hprog : programs[n]? = some programs[n] := List.getElem?_eq_getElem hn
    rw [stage_at_rest hP hE hsafe hneg h hrest hprog, ih (Nat.le_of_lt hn), List.take_add_one, hprog, stages, stages,
      Option.toList_some, List.foldl_append]
    rfl

/-! ## The scheduler comes to rest -/

omit hE hsafe hneg in
/-- Running the stages in their order leaves none alerted. -/
theorem settles {events : List PipelineEvent} {s : Pipeline} (h : PipelineRuns P engines programs events s) :
    ∀ n ≤ programs.length, ∃ s' : Pipeline,
      PipelineRuns P engines programs (events ++ (List.range n).map .execute) s' ∧ s'.cell 0 = s.cell 0 ∧
        ∀ j < n, s'.alerted j = false := by
  intro n
  induction n with
  | zero => exact fun _ => ⟨s, by simpa using h, rfl, fun j hj => absurd hj (Nat.not_lt_zero j)⟩
  | succ n ih =>
    intro hn
    obtain ⟨s', hruns, hcell, hquiet⟩ := ih (Nat.le_of_lt hn)
    obtain ⟨fuel, derived, heval⟩ := evaluate_program_ends hP engines programs[n] (contentFacts (s'.cell n))
    have hnext := PipelineRuns.execute hruns (List.getElem?_eq_getElem hn) heval
    rw [List.append_assoc, ← List.map_singleton, ← List.map_append, ← List.range_succ] at hnext
    refine ⟨_, hnext, (FactCells.cell_update_of_ne (Nat.succ_ne_zero n).symm).trans hcell, fun j hj => ?_⟩
    have hread : reads_edb j (n + 1) = false := beq_false_of_ne (Nat.ne_of_lt hj)
    refine FactCells.update_quiet (FactCells.taken_quiet.2 ?_) hread
    rcases Nat.lt_succ_iff_lt_or_eq.1 hj with hj | rfl
    · exact .inl (hquiet j hj)
    · exact .inr rfl

/-- From every state the stages come to rest, and at rest the last cell holds what the
composed program, evaluated at once, derives from the facts of the first. -/
theorem sequential_programs_agree (hfeed : InOrder programs) {events : List PipelineEvent} {s : Pipeline}
    (h : PipelineRuns P engines programs events s) :
    (∃ (more : List ℕ) (s' : Pipeline), PipelineRuns P engines programs (events ++ more.map .execute) s' ∧ s'.cell 0 = s.cell 0 ∧
      s'.AtRest programs) ∧
    (s.AtRest programs → ∀ strategy fuel facts,
      evaluate_program P engines fuel (compose_all strategy programs) (contentFacts (s.cell 0)) = some facts →
        ∀ f, f ∈ contentFacts (s.cell programs.length) ↔ f ∈ facts) := by
  constructor
  · obtain ⟨s', hruns, hcell, hquiet⟩ := settles hP h programs.length le_rfl
    exact ⟨_, s', hruns, hcell, hquiet⟩
  · intro hrest strategy fuel facts heval f
    have hkept := stages_at_rest hP hE hsafe hneg h hrest
    have hrules := rules_compose_all strategy programs
    have hcomposed : ∀ r ∈ (compose_all strategy programs).rules, r.Safe ∧ bodyNegated r.body = [] := by
      intro r hr
      rw [hrules] at hr
      obtain ⟨prog, hprog, hr⟩ := List.mem_flatMap.1 hr
      exact ⟨hsafe prog hprog r hr, hneg prog hprog r hr⟩
    have hmodel := evaluate_program_model hP hE (fun r hr => (hcomposed r hr).1) (fun r hr => (hcomposed r hr).2) heval f
    rw [hmodel, hrules, ← stages_eq_composed hfeed]
    exact Set.ext_iff.1 hkept f

end

/-- Reachability, and after it the cells that reach themselves. -/
def loopPrograms : List LogicProgram :=
  [topology_reachability_program .semi_naive,
    program .naive [rule (atom "looped" [.V "X"]) [.atom (atom "reachable" [.V "X", .V "X"])]]]

theorem loopPrograms_rules : ∀ prog ∈ loopPrograms, ∀ r ∈ prog.rules, r.safe = true ∧ bodyNegated r.body = [] := by
  decide

theorem loopPrograms_inOrder : InOrder loopPrograms := by
  have hcheck : loopPrograms.Pairwise fun a b => noFeedback a.rules b.rules = true := by decide
  exact hcheck.imp fun h => noFeedback_of_check h

/-- Some stages run after the first update, and then the pipeline comes to rest. -/
theorem sequential_programs_agree_loop : ∃ (events : List PipelineEvent) (s : Pipeline),
    PipelineRuns firstOrder naiveEngines loopPrograms events s ∧ s.AtRest loopPrograms ∧
      contentFacts (s.cell 0) = [["reads", "p", "a"], ["writes", "p", "a"]] ∧ ∀ strategy fuel facts,
      evaluate_program firstOrder naiveEngines fuel (compose_all strategy loopPrograms) (contentFacts (s.cell 0)) = some facts →
        ∀ f, f ∈ contentFacts (s.cell 2) ↔ f ∈ facts := by
  have hagree := @sequential_programs_agree firstOrder firstOrder_firstOrder naiveEngines naiveEngines_correct loopPrograms
    (fun prog hprog r hr => safe_of_check (loopPrograms_rules prog hprog r hr).1)
    (fun prog hprog r hr => (loopPrograms_rules prog hprog r hr).2) loopPrograms_inOrder
  have hupdate : PipelineRuns firstOrder naiveEngines loopPrograms [.update _] _ :=
    .update (make_fact_set [["reads", "p", "a"], ["writes", "p", "a"]]) .init
  obtain ⟨more, s, hruns, hcell, hrest⟩ := (hagree hupdate).1
  exact ⟨_, s, hruns, hrest, congrArg contentFacts hcell, (hagree hruns).2 hrest⟩

end LainLang.Datalog
