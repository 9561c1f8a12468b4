import LainLang.Tracer.Subgraph
/-!
# Upstream and downstream of a node

`graph_query_downstream_of` asks the kernel for the node itself and the targets
of its pairs, `graph_query_upstream_of` for the node itself and the sources of
the pairs that the reversed graph has with it. The node variable is the source
of these pairs, so what the second query finds is downstream, too.
-/
open LainLang.Lib LainLang.Js

namespace LainLang.Tracer

/-- The node itself or upstream of it. -/
def upstreamGoal (graph : DirectedGraph) (node_id : String) (node_var : Term) : Goal :=
  goal_or [goal_equal node_var (.str node_id), upstream_of graph node_var (.str node_id)]

/-- The subgraph of what the upstream goal finds. -/
def graph_query_upstream_of (next_logic_var_id fuel : ℕ) (graph : DirectedGraph) (node_id : String) :
    Run DirectedGraph := do
  let ids ← query_node_ids next_logic_var_id fuel (upstreamGoal graph node_id) none
  return induced_subgraph_from_ids graph ids

/-- The node itself or downstream of it. -/
def downstreamGoal (graph : DirectedGraph) (node_id : String) (node_var : Term) : Goal :=
  goal_or [goal_equal node_var (.str node_id), downstream_of graph (.str node_id) node_var]

/-- The subgraph of what the downstream goal finds. -/
def graph_query_downstream_of (next_logic_var_id fuel : ℕ) (graph : DirectedGraph) (node_id : String) :
    Run DirectedGraph := do
  let ids ← query_node_ids next_logic_var_id fuel (downstreamGoal graph node_id) none
  return induced_subgraph_from_ids graph ids

/-! ## The states of the two goals -/

section
variable {next k : ℕ} {graph : DirectedGraph}

theorem equal_node (id : String) : goal_equal (nodeVar next).term (.str id) bind_unchecked (k + 2) (startState next) =
    .ok ([id].map (nodeState next)) := node_rows [id]

/-- The sources of the pairs with a target. -/
theorem reachable_sources {pairs : List EdgeTuple} (h : enumerate_reachable_pairs (k + 2) graph = .ok pairs) (n : String) :
    reachable graph (nodeVar next).term (.str n) bind_unchecked (k + 2) (startState next) =
      .ok ((pairs.filterMap fun p => if n = p.2 then some p.1 else none).map (nodeState next)) := by
  rw [reachable, h, except_bind_ok, pairRows, node_states pairs _ _ fun p _ => ?_]
  rw [unifyAll, unify_node, except_bind_ok]
  dsimp only
  rw [unifyAll, unify_str, except_bind_ok]
  by_cases hn : n = p.2
  · rw [if_pos hn, if_pos hn]
    rfl
  · rw [if_neg hn, if_neg hn]
    rfl

/-- The targets of the pairs with a source. -/
theorem reachable_targets {pairs : List EdgeTuple} (h : enumerate_reachable_pairs (k + 2) graph = .ok pairs) (n : String) :
    reachable graph (.str n) (nodeVar next).term bind_unchecked (k + 2) (startState next) =
      .ok ((pairs.filterMap fun p => if n = p.1 then some p.2 else none).map (nodeState next)) := by
  rw [reachable, h, except_bind_ok, pairRows, node_states pairs _ _ fun p _ => ?_]
  rw [unifyAll, unify_str, except_bind_ok]
  by_cases hn : n = p.1
  · rw [if_pos hn, if_pos hn]
    dsimp only
    rw [unifyAll, unify_node]
    rfl
  · rw [if_neg hn, if_neg hn]
    rfl

theorem goal_or_two {first second : Goal} {fuel : ℕ} {state : GoalState} {states states' : List GoalState}
    (h : first bind_unchecked fuel state = .ok states) (h' : second bind_unchecked fuel state = .ok states') :
    goal_or [first, second] bind_unchecked fuel state = .ok (states ++ states') := by
  rw [goal_or, collect, mapAll, h, except_bind_ok, mapAll, h', except_bind_ok, mapAll]
  change Except.ok (states ++ (states' ++ [])) = _
  rw [List.append_nil]

theorem downstream_eq {pairs : List EdgeTuple} (h : enumerate_reachable_pairs (k + 3) graph = .ok pairs) (n : String) :
    ∃ ids, graph_query_downstream_of next (k + 3) graph n = .ok (induced_subgraph_from_ids graph ids) ∧
      ∀ m, m ∈ ids ↔ m = n ∨ (n, m) ∈ pairs := by
  have hstates : downstreamGoal graph n (nodeVar next).term bind_unchecked (k + 3) (startState next) =
      .ok (([n] ++ pairs.filterMap fun p => if n = p.1 then some p.2 else none).map (nodeState next)) := by
    rw [List.map_append]
    exact goal_or_two (equal_node n) (reachable_targets h n)
  refine ⟨_, by rw [graph_query_downstream_of, query_node_ids_eq hstates]; rfl, fun m => ?_⟩
  simp only [List.mem_eraseDups, List.mem_append, List.mem_singleton, List.mem_filterMap, Prod.exists]
  refine or_congr_right ⟨?_, fun hm => ⟨n, m, hm, by simp⟩⟩
  rintro ⟨a, b, hab, heq⟩
  split at heq
  · rename_i hn
    cases heq
    exact hn ▸ hab
  · cases heq

theorem upstream_eq {pairs : List EdgeTuple} (h : enumerate_reachable_pairs (k + 3) (reverse_graph graph) = .ok pairs)
    (n : String) : ∃ ids, graph_query_upstream_of next (k + 3) graph n = .ok (induced_subgraph_from_ids graph ids) ∧
      ∀ m, m ∈ ids ↔ m = n ∨ (m, n) ∈ pairs := by
  have hstates : upstreamGoal graph n (nodeVar next).term bind_unchecked (k + 3) (startState next) =
      .ok (([n] ++ pairs.filterMap fun p => if n = p.2 then some p.1 else none).map (nodeState next)) := by
    rw [List.map_append]
    exact goal_or_two (equal_node n) (reachable_sources h n)
  refine ⟨_, by rw [graph_query_upstream_of, query_node_ids_eq hstates]; rfl, fun m => ?_⟩
  simp only [List.mem_eraseDups, List.mem_append, List.mem_singleton, List.mem_filterMap, Prod.exists]
  refine or_congr_right ⟨?_, fun hm => ⟨m, n, hm, by simp⟩⟩
  rintro ⟨a, b, hab, heq⟩
  split at heq
  · rename_i hn
    cases heq
    exact hn ▸ hab
  · cases heq

end

/-! ## What the queries return -/

theorem enumerate_grows (graph : DirectedGraph) : Grows .outOfFuel (fun fuel => enumerate_reachable_pairs fuel graph) :=
  fun n m hnm => @enumerate_upto (· = .outOfFuel) n m rfl hnm graph

theorem downstream_grows (next : ℕ) (graph : DirectedGraph) (n : String) :
    Grows .outOfFuel (fun fuel => graph_query_downstream_of next fuel graph n) := by
  refine .bind (query_node_ids_grows (fun t => regular_or ?_) next none) fun _ => .const _
  simpa using ⟨regular_rows _, regular_reachable _ _ _⟩

theorem upstream_grows (next : ℕ) (graph : DirectedGraph) (n : String) :
    Grows .outOfFuel (fun fuel => graph_query_upstream_of next fuel graph n) := by
  refine .bind (query_node_ids_grows (fun t => regular_or ?_) next none) fun _ => .const _
  simpa using ⟨regular_rows _, regular_reachable _ _ _⟩

/-- A run of the search with as much fuel as the queries need. -/
theorem enumerate_from (graph : DirectedGraph) (j : ℕ) :
    ∃ n pairs, enumerate_reachable_pairs (n + j) graph = .ok pairs ∧ pairs.Nodup ∧ ∀ p, p ∈ pairs ↔ Listed graph p := by
  obtain ⟨n, pairs, h⟩ := enumerate_returns graph
  exact ⟨n, pairs, (enumerate_grows graph n (n + j) (by omega)).ok h, enumerate_spec h⟩

/-- The downstream query finds the node and the targets listed with it. -/
theorem downstream_returns (next : ℕ) (graph : DirectedGraph) (n : String) :
    Returns (fun fuel => graph_query_downstream_of next fuel graph n)
      fun sub => Induced graph sub fun m => m = n ∨ Listed graph (n, m) := by
  obtain ⟨fuel, pairs, hpairs, -, hlisted⟩ := enumerate_from graph 3
  obtain ⟨ids, hrun, hids⟩ := downstream_eq hpairs n
  refine .of_ok (downstream_grows next graph n) hrun ((induced_subgraph_spec graph ids).congr fun m _ => ?_)
  rw [hids, hlisted]

/-- The upstream query finds the node and the sources that the reversed graph
lists with it. -/
theorem upstream_returns (next : ℕ) (graph : DirectedGraph) (n : String) :
    Returns (fun fuel => graph_query_upstream_of next fuel graph n)
      fun sub => Induced graph sub fun m => m = n ∨ Listed (reverse_graph graph) (m, n) := by
  obtain ⟨fuel, pairs, hpairs, -, hlisted⟩ := enumerate_from (reverse_graph graph) 3
  obtain ⟨ids, hrun, hids⟩ := upstream_eq hpairs n
  refine .of_ok (upstream_grows next graph n) hrun ((induced_subgraph_spec graph ids).congr fun m _ => ?_)
  rw [hids, hlisted]

theorem reachable_returns (next : ℕ) (graph : DirectedGraph) (a b : String) :
    Returns (fun fuel => graph_query_reachable next fuel graph a b) fun answer => answer = true ↔ Listed graph (a, b) := by
  obtain ⟨fuel, pairs, hpairs, -, hlisted⟩ := enumerate_from graph 4
  refine .of_ok (query_reachable_grows next graph a b) (query_reachable_eq hpairs a b) ?_
  rw [decide_eq_true_iff, hlisted]

/-! ## Downstream and reachable -/

/-- The search lists each pair joined by a path once and no other; downstream of
a node are the node and what it reaches; and reachable is what a path joins. -/
structure ReachabilityExact (graph : DirectedGraph) : Prop where
  pairs : Returns (fun fuel => enumerate_reachable_pairs fuel graph)
    fun pairs => pairs.Nodup ∧ ∀ a b, (a, b) ∈ pairs ↔ graph.Path a b
  downstream : ∀ next n, Returns (fun fuel => graph_query_downstream_of next fuel graph n)
    fun sub => Induced graph sub fun m => m = n ∨ graph.Path n m
  reachable : ∀ next a b, Returns (fun fuel => graph_query_reachable next fuel graph a b)
    fun answer => answer = true ↔ graph.Path a b

/-- Reachability is exact if and only if no two pairs joined by a path have the
same key. -/
theorem reachability_exact_iff (graph : DirectedGraph) : ReachabilityExact graph ↔ KeysDistinct graph := by
  constructor
  · intro h
    obtain ⟨fuel, pairs, hrun⟩ := h.pairs.1
    obtain ⟨-, hpath⟩ := h.pairs.2 fuel pairs hrun
    refine keysDistinct_of_listed fun p hp => ?_
    exact ((enumerate_spec hrun).2 p).1 ((hpath p.1 p.2).2 hp)
  · intro h
    have hlisted := fun a b => listed_iff_path h (a, b)
    refine ⟨?_, fun next n => ?_, fun next a b => ?_⟩
    · obtain ⟨fuel, pairs, hrun, hnodup, hpairs⟩ := enumerate_from graph 0
      exact .of_ok (enumerate_grows graph) hrun ⟨hnodup, fun a b => (hpairs (a, b)).trans (hlisted a b)⟩
    · obtain ⟨hex, hall⟩ := downstream_returns next graph n
      exact ⟨hex, fun fuel sub hsub => (hall fuel sub hsub).congr fun m _ => or_congr_right (hlisted n m)⟩
    · obtain ⟨hex, hall⟩ := reachable_returns next graph a b
      exact ⟨hex, fun fuel answer h' => (hall fuel answer h').trans (hlisted a b)⟩

/-- Ids with an arrow in them. -/
def arrowNodes : OrdMap String Attributes := (((OrdMap.empty.set "a" []).set "b->c" []).set "a->b" []).set "c" []

/-- The pairs of its two edges have one key. -/
def arrowGraph : DirectedGraph where
  nodes := arrowNodes
  edges := [("a", "b->c"), ("a->b", "c")]
  nodup := by decide
  ends := by decide +kernel

/-- The pair of the second edge is lost. -/
theorem arrow_pair_lost : enumerate_reachable_pairs 9 arrowGraph = .ok [("a", "b->c")] ∧ ("a->b", "c") ∈ arrowGraph.edges ∧
    ¬ ReachabilityExact arrowGraph := by
  have hrun : enumerate_reachable_pairs 9 arrowGraph = .ok [("a", "b->c")] := by decide +kernel
  have hedge : ("a->b", "c") ∈ arrowGraph.edges := by decide
  refine ⟨hrun, hedge, fun h => ?_⟩
  have hlisted := ((h.pairs.2 9 _ hrun).2 "a->b" "c").2 (.single hedge)
  exact absurd hlisted (by decide)

/-! ## Upstream -/

/-- The upstream query returns the node and the nodes with a path to it. -/
def UpstreamExact (graph : DirectedGraph) (n : String) : Prop :=
  ∀ next, Returns (fun fuel => graph_query_upstream_of next fuel graph n)
    fun sub => Induced graph sub fun m => m = n ∨ graph.Path m n

/-- The upstream query is right if and only if the other nodes with a path to
the node are those that the node has a path to, as far as the search lists them. -/
theorem upstream_exact_iff (graph : DirectedGraph) (n : String) : UpstreamExact graph n ↔
    ∀ m, graph.hasNode m = true → m ≠ n → (graph.Path m n ↔ Listed (reverse_graph graph) (m, n)) := by
  constructor
  · intro h m hm hne
    obtain ⟨fuel, sub, hrun⟩ := (h 0).1
    have hsub := (upstream_returns 0 graph n).2 fuel sub hrun
    have hiff := hsub.iff.1 ((h 0).2 fuel sub hrun) m hm
    simpa [hne] using hiff.symm
  · intro h next
    refine (upstream_returns next graph n).mono fun sub hsub => hsub.congr fun m hm => ?_
    by_cases hne : m = n
    · simp [hne]
    · simp [hne, h m hm hne]

/-- What the search lists in the reversed graph are downstream nodes. -/
theorem path_of_listed_reverse {graph : DirectedGraph} {m n : String} (h : Listed (reverse_graph graph) (m, n)) :
    graph.Path n m := path_reverse.1 h.1

/-- Three nodes of a pipe. -/
def pipeNodes : OrdMap String Attributes := ((OrdMap.empty.set "a" []).set "b" []).set "c" []

/-- Two edges one after the other. -/
def pipeGraph : DirectedGraph where
  nodes := pipeNodes
  edges := [("a", "b"), ("b", "c")]
  nodup := by decide
  ends := by decide +kernel

/-- Upstream of the middle node the query finds the node after it and not the
one before it. -/
theorem upstream_is_downstream :
    (graph_query_upstream_of 0 9 pipeGraph "b").toOption.map (fun sub => (sub.nodes.keys, sub.edges)) =
      some (["b", "c"], [("b", "c")]) ∧ ¬ UpstreamExact pipeGraph "b" := by
  have hrun : (graph_query_upstream_of 0 9 pipeGraph "b").toOption.map (fun sub => (sub.nodes.keys, sub.edges)) =
      some (["b", "c"], [("b", "c")]) := by decide +kernel
  refine ⟨hrun, fun h => ?_⟩
  have hpath : pipeGraph.Path "a" "b" := .single (by decide)
  have hlisted := ((upstream_exact_iff pipeGraph "b").1 h "a" (by decide +kernel) (by decide)).1 hpath
  -- Nothing that `b` leads to leads to `a`.
  have hback : ∀ x, pipeGraph.Path "b" x → x = "c" := by
    intro x hx
    induction hx with
    | single he => simpa [pipeGraph] using he
    | tail _ he ih =>
      subst ih
      simp [pipeGraph] at he
  exact absurd (hback "a" (path_of_listed_reverse hlisted)) (by decide)

end LainLang.Tracer
