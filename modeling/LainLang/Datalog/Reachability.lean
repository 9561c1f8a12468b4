import LainLang.Datalog.NetworkTopologyGraphology
import LainLang.Datalog.Negation
/-!
# Two ways to reachability

Both implementations say of two cells whether data flows from one to the other
in one step or more: the program by composing `flows_to`, the query by a path
that visits a cell at every other node.
-/
open LainLang.Lib LainLang.Js

namespace LainLang.Datalog

/-! ## Topology facts -/

/-- The predicates of the snapshot. -/
def topologyTags : List String :=
  ["cell", "propagator", "reads", "writes", "kind", "namespace", "level", "label", "value"]

/-- The ids that the facts speak of as cells. -/
def cellIds (facts : List Fact) : Set String :=
  {c | (∃ name, ["cell", c, name] ∈ facts) ∨ ∃ p, ["reads", p, c] ∈ facts ∨ ["writes", p, c] ∈ facts}

/-- The ids that the facts speak of as propagators. -/
def propagatorIds (facts : List Fact) : Set String :=
  {p | (∃ name, ["propagator", p, name] ∈ facts) ∨ ∃ c, ["reads", p, c] ∈ facts ∨ ["writes", p, c] ∈ facts}

/-- The ids that the facts mention: cells, propagators and the subjects of
attributes. -/
def allIds (facts : List Fact) : Set String :=
  {id | id ∈ cellIds facts ∨ id ∈ propagatorIds facts ∨ ∃ tag text, [tag, id, text] ∈ facts}

/-- Facts about an id, with the tags of a snapshot. -/
def Tagged (facts : List Fact) : Prop := ∀ f ∈ facts, ∃ tag id text, f = [tag, id, text] ∧ tag ∈ topologyTags

/-- Facts with the tags of a snapshot, where no id is a cell's and a
propagator's and none has an arrow in it. -/
structure WellFormed (facts : List Fact) : Prop where
  tagged : Tagged facts
  disjoint : ∀ id ∈ cellIds facts, id ∉ propagatorIds facts
  arrowFree : ∀ id ∈ allIds facts, includes id "->" = false

/-- A propagator reads the first cell and writes the second. -/
def Flows (facts : List Fact) (a b : String) : Prop := ∃ p, ["reads", p, a] ∈ facts ∧ ["writes", p, b] ∈ facts

theorem Flows.cells {facts : List Fact} {a b : String} (h : Flows facts a b) : a ∈ cellIds facts ∧ b ∈ cellIds facts := by
  obtain ⟨p, hreads, hwrites⟩ := h
  exact ⟨.inr ⟨p, .inl hreads⟩, .inr ⟨p, .inr hwrites⟩⟩

section
variable {facts : List Fact}

theorem Tagged.no_predicate (hfacts : Tagged facts) {pred : String} (hpred : pred ∉ topologyTags) {args : List String} :
    pred :: args ∉ facts := by
  intro hmem
  obtain ⟨tag, id, text, heq, htag⟩ := hfacts _ hmem
  simp only [List.cons.injEq] at heq
  exact hpred (heq.1 ▸ htag)

/-! ## What the program derives -/

/-- The facts, with those for steps and for flows of any length. -/
def flowModel (facts : List Fact) : Set Fact :=
  {f | f ∈ facts ∨ (∃ a b, f = ["flows_to", a, b] ∧ Flows facts a b) ∨
    ∃ a b, f = ["reachable", a, b] ∧ Relation.TransGen (Flows facts) a b}

theorem flowModel_edb {pred : String} {args : List String} (hflows : pred ≠ "flows_to") (hreach : pred ≠ "reachable") :
    pred :: args ∈ flowModel facts ↔ pred :: args ∈ facts := by
  simp [flowModel, hflows, hreach]

theorem flowModel_flows (hfacts : Tagged facts) {a b : String} : ["flows_to", a, b] ∈ flowModel facts ↔ Flows facts a b := by
  have hnot := @Tagged.no_predicate facts hfacts "flows_to" (by decide) [a, b]
  simp [flowModel, hnot]

theorem flowModel_reachable (hfacts : Tagged facts) {a b : String} :
    ["reachable", a, b] ∈ flowModel facts ↔ Relation.TransGen (Flows facts) a b := by
  have hnot := @Tagged.no_predicate facts hfacts "reachable" (by decide) [a, b]
  simp [flowModel, hnot]

/-- The bodies of the three rules, read in a set of facts. -/
theorem body_flowsTo {I N : Set Fact} {σ : Assignment} :
    AllHold I N σ flowsToRule.body ↔ ["reads", σ "P", σ "A"] ∈ I ∧ ["writes", σ "P", σ "B"] ∈ I := by
  simp only [flowsToRule, rule, AllHold, and_true]
  rw [holds_atom (by decide) (by decide), holds_atom (by decide) (by decide)]
  rfl

theorem body_reachable {I N : Set Fact} {σ : Assignment} :
    AllHold I N σ reachableRule.body ↔ ["flows_to", σ "A", σ "B"] ∈ I := by
  simp only [reachableRule, rule, AllHold, and_true]
  rw [holds_atom (by decide) (by decide)]
  rfl

theorem body_reachableStep {I N : Set Fact} {σ : Assignment} :
    AllHold I N σ reachableStepRule.body ↔ ["reachable", σ "A", σ "B"] ∈ I ∧ ["flows_to", σ "B", σ "C"] ∈ I := by
  simp only [reachableStepRule, rule, AllHold, and_true]
  rw [holds_atom (by decide) (by decide), holds_atom (by decide) (by decide)]
  rfl

/-- A step of two atoms for variables. -/
def valuesFor (a b c p : String) : Assignment := fun x =>
  if x = "A" then a else if x = "B" then b else if x = "C" then c else p

theorem least_model_flows (hfacts : Tagged facts) :
    least_model ∅ [flowsToRule, reachableRule, reachableStepRule] {f | f ∈ facts} = flowModel facts := by
  let M := least_model ∅ [flowsToRule, reachableRule, reachableStepRule] {f | f ∈ facts}
  have hmem := fun f => @mem_least_model ∅ {f | f ∈ facts} [flowsToRule, reachableRule, reachableStepRule] f
  apply Set.Subset.antisymm
  · refine (closure {f | f ∈ facts} (immediate_consequence ∅) _).lfp_le (closure_le.2 ⟨fun f hf => .inl hf, fun r hr => ?_⟩)
    rintro f ⟨σ, hbody, rfl⟩
    simp only [Set.mem_ofPred_eq, List.mem_cons, List.not_mem_nil, or_false] at hr
    rcases hr with rfl | rfl | rfl
    · obtain ⟨hreads, hwrites⟩ := body_flowsTo.1 hbody
      rw [flowModel_edb (by decide) (by decide)] at hreads hwrites
      exact (flowModel_flows hfacts).2 ⟨_, hreads, hwrites⟩
    · have hflows := (flowModel_flows hfacts).1 (body_reachable.1 hbody)
      exact (flowModel_reachable hfacts).2 (.single hflows)
    · obtain ⟨hreach, hflows⟩ := body_reachableStep.1 hbody
      exact (flowModel_reachable hfacts).2 (((flowModel_reachable hfacts).1 hreach).tail ((flowModel_flows hfacts).1 hflows))
  · have hedb : ∀ f ∈ facts, f ∈ M := fun f hf => (hmem f).2 (.inl hf)
    have hflows : ∀ {a b}, Flows facts a b → ["flows_to", a, b] ∈ M := by
      rintro a b ⟨p, hreads, hwrites⟩
      exact (hmem _).2 (.inr ⟨flowsToRule, by simp, valuesFor a b b p, body_flowsTo.2 ⟨hedb _ hreads, hedb _ hwrites⟩, rfl⟩)
    rintro f (hf | ⟨a, b, rfl, hab⟩ | ⟨a, b, rfl, hab⟩)
    · exact hedb f hf
    · exact hflows hab
    · induction hab with
      | @single b hab =>
        exact (hmem _).2 (.inr ⟨reachableRule, by simp, valuesFor a b b "", body_reachable.2 (hflows hab), rfl⟩)
      | @tail b c _ hbc ih =>
        exact (hmem _).2 (.inr ⟨reachableStepRule, by simp, valuesFor a b c "", body_reachableStep.2 ⟨ih, hflows hbc⟩, rfl⟩)

/-! ## What the graph joins -/

theorem factEdge_iff (hfacts : WellFormed facts) {x y : String} :
    (∃ f ∈ facts, factEdge f = some (x, y)) ↔ ["reads", y, x] ∈ facts ∨ ["writes", x, y] ∈ facts := by
  constructor
  · rintro ⟨f, hf, hedge⟩
    obtain ⟨tag, id, text, rfl, -⟩ := hfacts.tagged f hf
    rw [factEdge] at hedge
    by_cases hreads : tag = "reads"
    · rw [if_pos hreads, Option.some.injEq, Prod.mk.injEq] at hedge
      obtain ⟨rfl, rfl⟩ := hedge
      exact .inl (hreads ▸ hf)
    · rw [if_neg hreads] at hedge
      by_cases hwrites : tag = "writes"
      · rw [if_pos hwrites, Option.some.injEq, Prod.mk.injEq] at hedge
        obtain ⟨rfl, rfl⟩ := hedge
        exact .inr (hwrites ▸ hf)
      · rw [if_neg hwrites] at hedge
        cases hedge
  · rintro (h | h)
    · exact ⟨_, h, rfl⟩
    · exact ⟨_, h, rfl⟩

/-- An edge from a cell leads to a propagator that reads it, one from a
propagator to a cell that it writes. -/
theorem path_iff_flows (hfacts : WellFormed facts) {graph : Tracer.DirectedGraph}
    (hedges : ∀ x y, (x, y) ∈ graph.edges ↔ ["reads", y, x] ∈ facts ∨ ["writes", x, y] ∈ facts) {a b : String}
    (ha : a ∈ cellIds facts) (hb : b ∈ cellIds facts) : graph.Path a b ↔ Relation.TransGen (Flows facts) a b := by
  have hfrom : ∀ {x y}, x ∈ cellIds facts → (x, y) ∈ graph.edges → ["reads", y, x] ∈ facts := by
    intro x y hx hxy
    exact ((hedges x y).1 hxy).resolve_right fun h => hfacts.disjoint x hx (.inr ⟨y, .inr h⟩)
  have hto : ∀ {x y}, x ∈ propagatorIds facts → (x, y) ∈ graph.edges → ["writes", x, y] ∈ facts := by
    intro x y hx hxy
    exact ((hedges x y).1 hxy).resolve_left fun h => hfacts.disjoint x (.inr ⟨y, .inl h⟩) hx
  constructor
  · intro hpath
    -- A path from `a` ends in a cell `a` flows to, or in a reader of `a` or of such a cell.
    suffices h : b ∈ cellIds facts ∧ Relation.TransGen (Flows facts) a b ∨
        b ∈ propagatorIds facts ∧ ∃ c, (c = a ∨ Relation.TransGen (Flows facts) a c) ∧ ["reads", b, c] ∈ facts by
      rcases h with ⟨-, h⟩ | ⟨hprop, -⟩
      · exact h
      · exact absurd hprop (hfacts.disjoint b hb)
    clear hb
    induction hpath with
    | single hedge =>
      have hreads := hfrom ha hedge
      exact .inr ⟨.inr ⟨a, .inl hreads⟩, a, .inl rfl, hreads⟩
    | @tail x y _ hedge ih =>
      rcases ih with ⟨hx, hax⟩ | ⟨hx, c, hc, hreads⟩
      · have hreads := hfrom hx hedge
        exact .inr ⟨.inr ⟨x, .inl hreads⟩, x, .inr hax, hreads⟩
      · have hwrites := hto hx hedge
        have hflows : Flows facts c y := ⟨x, hreads, hwrites⟩
        refine .inl ⟨hflows.cells.2, ?_⟩
        rcases hc with rfl | hac
        · exact .single hflows
        · exact hac.tail hflows
  · intro hflows
    have hstep : ∀ {x y}, Flows facts x y → graph.Path x y := by
      rintro x y ⟨p, hreads, hwrites⟩
      exact (Relation.TransGen.single ((hedges x p).2 (.inl hreads))).tail ((hedges p y).2 (.inr hwrites))
    clear hb
    induction hflows with
    | single h => exact hstep h
    | tail _ h ih => exact Relation.TransGen.trans ih (hstep h)

/-! ## They agree -/

/-- The program's `reachable` and the graph's query return and agree on cells. -/
theorem reachability_agrees {P : Pmatcher} (hP : P.FirstOrder) (engines : MiniDatalog) (Number : String → JsNumber)
    (hfacts : WellFormed facts) {keepIds : List String} (hkeep : ∀ id, id ∈ keepIds ↔ id ∈ allIds facts) {a b : String}
    (ha : a ∈ cellIds facts) (hb : b ∈ cellIds facts) (next : ℕ) :
    (∃ fuel derived, evaluate_program P engines fuel (topology_reachability_program .incremental) facts = some derived) ∧
    (∃ fuel answer, Tracer.graph_query_reachable next fuel (graphology_from_topology_facts Number facts keepIds) a b = .ok answer) ∧
    ∀ fuel derived fuel' answer,
      evaluate_program P engines fuel (topology_reachability_program .incremental) facts = some derived →
      Tracer.graph_query_reachable next fuel' (graphology_from_topology_facts Number facts keepIds) a b = .ok answer →
        (["reachable", a, b] ∈ derived ↔ answer = true) := by
  have hends : ∀ f ∈ facts, ∀ x y, factEdge f = some (x, y) → x ∈ keepIds ∧ y ∈ keepIds := by
    intro f hf x y hedge
    rw [hkeep, hkeep]
    rcases (factEdge_iff hfacts).1 ⟨f, hf, hedge⟩ with h | h
    · exact ⟨.inl (.inr ⟨y, .inl h⟩), .inr (.inl (.inr ⟨x, .inl h⟩))⟩
    · exact ⟨.inr (.inl (.inr ⟨y, .inr h⟩)), .inl (.inr ⟨x, .inr h⟩)⟩
  obtain ⟨hnodes, hedges⟩ := @graphology_spec Number facts keepIds hends
  have hids : Tracer.ArrowFree (graphology_from_topology_facts Number facts keepIds) := fun id hid =>
    hfacts.arrowFree id ((hkeep id).1 ((hnodes id).1 hid))
  obtain ⟨hreturns, hanswer⟩ := Tracer.query_reachable_iff hids next a b
  refine ⟨evaluate_ends hP _ facts, hreturns, fun fuel derived fuel' answer hderived hquery => ?_⟩
  have hmodel := evaluate_positive hP (reachability_safe .incremental) (reachability_positive .incremental) hderived
  rw [hanswer fuel' answer hquery, path_iff_flows hfacts (fun x y => (hedges (x, y)).trans (factEdge_iff hfacts)) ha hb,
    ← flowModel_reachable hfacts.tagged, ← least_model_flows hfacts.tagged]
  exact Set.ext_iff.1 hmodel ["reachable", a, b]

end

/-- Two cells with a propagator between them. -/
def pairFacts : List Fact := [
  ["cell", "a", "first"], ["cell", "b", "second"], ["propagator", "p", "copy"], ["kind", "a", "cell"], ["kind", "p", "prop"],
  ["reads", "p", "a"], ["writes", "p", "b"]]

theorem pairFacts_cells {id : String} : id ∈ cellIds pairFacts ↔ id = "a" ∨ id = "b" := by
  constructor
  · rintro (⟨name, h⟩ | ⟨p, h | h⟩)
    · simp [pairFacts] at h
      tauto
    · simp [pairFacts] at h
      exact .inl h.2
    · simp [pairFacts] at h
      exact .inr h.2
  · rintro (rfl | rfl)
    · exact .inl ⟨"first", by decide⟩
    · exact .inl ⟨"second", by decide⟩

theorem pairFacts_propagators {id : String} : id ∈ propagatorIds pairFacts ↔ id = "p" := by
  constructor
  · rintro (⟨name, h⟩ | ⟨c, h | h⟩)
    · simp [pairFacts] at h
      exact h.1
    · simp [pairFacts] at h
      exact h.1
    · simp [pairFacts] at h
      exact h.1
  · rintro rfl
    exact .inl ⟨"copy", by decide⟩

theorem pairFacts_ids {id : String} : id ∈ allIds pairFacts ↔ id = "a" ∨ id = "b" ∨ id = "p" := by
  have hother : (∃ tag text, [tag, id, text] ∈ pairFacts) ↔ id = "a" ∨ id = "b" ∨ id = "p" := by
    simp only [pairFacts, List.mem_cons, List.cons.injEq, List.not_mem_nil, or_false]
    constructor
    · rintro ⟨tag, text, h⟩
      tauto
    · rintro (rfl | rfl | rfl)
      · exact ⟨"cell", "first", by simp⟩
      · exact ⟨"cell", "second", by simp⟩
      · exact ⟨"propagator", "copy", by simp⟩
  rw [allIds, Set.mem_ofPred_eq, pairFacts_cells, pairFacts_propagators, hother]
  tauto

theorem pairFacts_wellFormed : WellFormed pairFacts where
  tagged f hf := by
    simp only [pairFacts, List.mem_cons, List.not_mem_nil, or_false] at hf
    rcases hf with rfl | rfl | rfl | rfl | rfl | rfl | rfl <;> exact ⟨_, _, _, rfl, by decide⟩
  disjoint id hid := by
    rw [pairFacts_cells] at hid
    rw [pairFacts_propagators]
    rcases hid with rfl | rfl <;> decide
  arrowFree id hid := by
    rw [pairFacts_ids] at hid
    rcases hid with rfl | rfl | rfl <;> decide

theorem reachability_agrees_pair :
    (∃ fuel derived, evaluate_program firstOrder naiveEngines fuel (topology_reachability_program .incremental) pairFacts = some derived) ∧
    (∃ fuel answer, Tracer.graph_query_reachable 0 fuel
      (graphology_from_topology_facts (fun _ => .nan) pairFacts ["a", "b", "p"]) "a" "b" = .ok answer) ∧
    ∀ fuel derived fuel' answer,
      evaluate_program firstOrder naiveEngines fuel (topology_reachability_program .incremental) pairFacts = some derived →
      Tracer.graph_query_reachable 0 fuel' (graphology_from_topology_facts (fun _ => .nan) pairFacts ["a", "b", "p"]) "a" "b" =
        .ok answer → (["reachable", "a", "b"] ∈ derived ↔ answer = true) :=
  reachability_agrees firstOrder_firstOrder naiveEngines _ pairFacts_wellFormed (fun id => by rw [pairFacts_ids]; simp)
    (pairFacts_cells.2 (.inl rfl)) (pairFacts_cells.2 (.inr rfl)) 0

end LainLang.Datalog
