import LainLang.Tracer.Reachable
/-!
# Subgraphs

How the queries build a graph: nodes and edges merged into an empty one. The
subgraph induced by a list of ids has the nodes among them, with their
attributes, and the edges between these.
-/
open LainLang.Lib LainLang.Js

namespace LainLang.Tracer

/-! ## Building a graph -/

namespace DirectedGraph

/-- The graph has the node. -/
def hasNode (graph : DirectedGraph) (id : String) : Bool := graph.nodes.has id

/-- Adds the node or merges the attributes into those it has. -/
def mergeNode (graph : DirectedGraph) (id : String) (attrs : Attributes) : DirectedGraph where
  nodes := graph.nodes.set id (attrs ++ (graph.nodes.get? id).getD [])
  edges := graph.edges
  nodup := graph.nodup
  ends e he := by simp [graph.ends e he]

/-- The graph has the edge. -/
def hasEdge (graph : DirectedGraph) (source target : String) : Bool := decide ((source, target) ∈ graph.edges)

/-- Adds an edge between nodes that have none, where the library does not throw. -/
def addEdge (graph : DirectedGraph) (source target : String) : DirectedGraph :=
  if h : (source, target) ∉ graph.edges ∧ graph.nodes.has source = true ∧ graph.nodes.has target = true then
    { nodes := graph.nodes
      edges := graph.edges ++ [(source, target)]
      nodup := graph.nodup.append (List.nodup_singleton _) (by simpa using h.1)
      ends := fun e he => by
        rcases List.mem_append.1 he with he | he
        · exact graph.ends e he
        · rw [List.mem_singleton.1 he]
          exact h.2 }
  else graph

/-- Adds the node without attributes if it is not there. -/
def ensureNode (graph : DirectedGraph) (id : String) : DirectedGraph :=
  if graph.hasNode id then graph else graph.mergeNode id []

theorem hasNode_mergeNode (graph : DirectedGraph) (id x : String) (attrs : Attributes) :
    (graph.mergeNode id attrs).hasNode x = (decide (x = id) || graph.hasNode x) := OrdMap.has_set ..

theorem hasNode_ensureNode (graph : DirectedGraph) (id x : String) :
    (graph.ensureNode id).hasNode x = (decide (x = id) || graph.hasNode x) := by
  unfold ensureNode
  split
  · rename_i h
    by_cases hx : x = id
    · simp [hx, h]
    · simp [hx]
  · exact hasNode_mergeNode graph id x []

/-- Adds the edge, and the nodes it joins, if they are not there. -/
def mergeEdge (graph : DirectedGraph) (source target : String) : DirectedGraph where
  nodes := ((graph.ensureNode source).ensureNode target).nodes
  edges := if (source, target) ∈ graph.edges then graph.edges else graph.edges ++ [(source, target)]
  nodup := by
    split
    · exact graph.nodup
    · rename_i hnew
      exact List.nodup_append.2 ⟨graph.nodup, by simp, fun e he e' he' heq =>
        hnew (List.mem_singleton.1 he' ▸ heq ▸ he)⟩
  ends := by
    have hends : ∀ x, ((graph.ensureNode source).ensureNode target).nodes.has x =
        (decide (x = target) || (decide (x = source) || graph.hasNode x)) := by
      intro x
      rw [← hasNode_ensureNode]
      exact hasNode_ensureNode _ _ _
    intro e he
    have hmem : e ∈ graph.edges ∨ e = (source, target) := by
      split at he
      · exact .inl he
      · simpa using he
    rw [hends, hends]
    rcases hmem with hmem | rfl
    · obtain ⟨h1, h2⟩ := graph.ends e hmem
      simp [hasNode, h1, h2]
    · simp

theorem mem_edges_mergeEdge {graph : DirectedGraph} {source target : String} {e : EdgeTuple} :
    e ∈ (graph.mergeEdge source target).edges ↔ e ∈ graph.edges ∨ e = (source, target) := by
  simp only [mergeEdge]
  split
  · rename_i h
    constructor
    · exact .inl
    · rintro (he | rfl)
      · exact he
      · exact h
  · simp

/-- An edge between nodes of the graph adds no node. -/
theorem nodes_mergeEdge {graph : DirectedGraph} {source target : String} (hs : graph.hasNode source = true)
    (ht : graph.hasNode target = true) : (graph.mergeEdge source target).nodes = graph.nodes := by
  have hsource : graph.ensureNode source = graph := if_pos hs
  have htarget : graph.ensureNode target = graph := if_pos ht
  simp only [mergeEdge, hsource, htarget]

theorem nodes_addEdge (graph : DirectedGraph) (source target : String) :
    (graph.addEdge source target).nodes = graph.nodes := by
  unfold addEdge
  split <;> rfl

theorem mem_edges_addEdge {graph : DirectedGraph} {source target : String} (hs : graph.hasNode source = true)
    (ht : graph.hasNode target = true) {e : EdgeTuple} :
    e ∈ (graph.addEdge source target).edges ↔ e ∈ graph.edges ∨ e = (source, target) := by
  unfold addEdge
  by_cases h : (source, target) ∈ graph.edges
  · rw [dif_neg (fun hnew => hnew.1 h)]
    constructor
    · exact .inl
    · rintro (he | rfl)
      · exact he
      · exact h
  · rw [dif_pos ⟨h, hs, ht⟩]
    simp

theorem get?_mergeNode_new {graph : DirectedGraph} {id : String} (h : graph.nodes.get? id = none) (attrs : Attributes)
    (x : String) : (graph.mergeNode id attrs).nodes.get? x = if x = id then some attrs else graph.nodes.get? x := by
  simp [mergeNode, h]

end DirectedGraph

/-! ## Merging the nodes and edges of another graph -/

/-- Merges the nodes that `keep` lets through. -/
def mergeNodes (keep : String × Attributes → Bool) (nodes : List (String × Attributes)) (result : DirectedGraph) :
    DirectedGraph :=
  nodes.foldl (fun result node => if keep node then result.mergeNode node.1 node.2 else result) result

/-- Merges the edges that `keep` lets through. -/
def mergeEdges (keep : EdgeTuple → Bool) (edges : List EdgeTuple) (result : DirectedGraph) : DirectedGraph :=
  edges.foldl (fun result e => if keep e then result.mergeEdge e.1 e.2 else result) result

theorem mergeNodes_edges (keep : String × Attributes → Bool) (nodes : List (String × Attributes))
    (result : DirectedGraph) : (mergeNodes keep nodes result).edges = result.edges := by
  induction nodes generalizing result with
  | nil => rfl
  | cons node nodes ih =>
    rw [mergeNodes, List.foldl_cons, ← mergeNodes, ih]
    split <;> rfl

/-- Merging new nodes adds those that are kept. -/
theorem mergeNodes_get? {keep : String × Attributes → Bool} {nodes : List (String × Attributes)}
    (hnodup : (nodes.map Prod.fst).Nodup) {result : DirectedGraph} (hnew : ∀ node ∈ nodes, result.nodes.get? node.1 = none)
    (id : String) (attrs : Attributes) : (mergeNodes keep nodes result).nodes.get? id = some attrs ↔
      result.nodes.get? id = some attrs ∨ (id, attrs) ∈ nodes ∧ keep (id, attrs) = true := by
  induction nodes generalizing result with
  | nil => simp [mergeNodes]
  | cons node nodes ih =>
    rw [List.forall_mem_cons] at hnew
    obtain ⟨hnode, hnodup⟩ := List.nodup_cons.1 hnodup
    have hother : ∀ n ∈ nodes, n.1 ≠ node.1 := fun n hn heq => hnode (heq ▸ List.mem_map_of_mem hn)
    rw [mergeNodes, List.foldl_cons, ← mergeNodes]
    by_cases hkeep : keep node = true
    · rw [if_pos hkeep, ih hnodup fun n hn => by
        rw [DirectedGraph.get?_mergeNode_new hnew.1, if_neg (hother n hn), hnew.2 n hn]]
      rw [DirectedGraph.get?_mergeNode_new hnew.1]
      -- The id of the new node is not met again.
      by_cases hid : id = node.1
      · subst hid
        have hold : (node.1, attrs) ∉ nodes := fun hmem => hother _ hmem rfl
        simp only [if_true, Option.some.injEq, hold, false_and, or_false, hnew.1, reduceCtorEq, false_or, List.mem_cons]
        constructor
        · rintro rfl
          exact ⟨rfl, hkeep⟩
        · rintro ⟨heq, -⟩
          exact (congrArg Prod.snd heq).symm
      · have hne : (id, attrs) ≠ node := fun heq => hid (congrArg Prod.fst heq)
        simp [hid, hne]
    · rw [if_neg hkeep, ih hnodup hnew.2]
      have hne : keep (id, attrs) = true → (id, attrs) ≠ node := fun h heq => hkeep (heq ▸ h)
      simp only [List.mem_cons]
      grind

/-- Merging edges between nodes of the graph adds those that are kept. -/
theorem mergeEdges_spec {keep : EdgeTuple → Bool} {edges : List EdgeTuple} {result : DirectedGraph}
    (hends : ∀ e ∈ edges, keep e = true → result.hasNode e.1 = true ∧ result.hasNode e.2 = true) :
    (mergeEdges keep edges result).nodes = result.nodes ∧
      ∀ e, e ∈ (mergeEdges keep edges result).edges ↔ e ∈ result.edges ∨ e ∈ edges ∧ keep e = true := by
  induction edges generalizing result with
  | nil => simp [mergeEdges]
  | cons first edges ih =>
    rw [List.forall_mem_cons] at hends
    rw [mergeEdges, List.foldl_cons, ← mergeEdges]
    by_cases hkeep : keep first = true
    · -- Both ends are there, so the merge adds no node.
      obtain ⟨hs, ht⟩ := hends.1 hkeep
      have hnodes := DirectedGraph.nodes_mergeEdge hs ht
      rw [if_pos hkeep]
      obtain ⟨hnodes', hedges⟩ := @ih (result.mergeEdge first.1 first.2) fun e he hk => by
        rw [DirectedGraph.hasNode, DirectedGraph.hasNode, hnodes]
        exact hends.2 e he hk
      refine ⟨hnodes'.trans hnodes, fun e => ?_⟩
      rw [hedges, DirectedGraph.mem_edges_mergeEdge, List.mem_cons]
      grind
    · rw [if_neg hkeep]
      obtain ⟨hnodes, hedges⟩ := ih hends.2
      refine ⟨hnodes, fun e => ?_⟩
      rw [hedges, List.mem_cons]
      grind

/-! ## Induced subgraphs -/

/-- The nodes with these ids, and the edges between them. -/
def induced_subgraph_from_ids (graph : DirectedGraph) (ids : List String) : DirectedGraph :=
  let id_set := ids.eraseDups
  mergeEdges (fun e => decide (e.1 ∈ id_set ∧ e.2 ∈ id_set)) graph.edges
    (mergeNodes (fun node => decide (node.1 ∈ id_set)) graph.nodes.entries emptyGraph)

/-- `sub` has the nodes of the graph that satisfy `P`, with their attributes, and
the edges between them. -/
structure Induced (graph sub : DirectedGraph) (P : String → Prop) : Prop where
  nodes : ∀ id attrs, sub.nodes.get? id = some attrs ↔ graph.nodes.get? id = some attrs ∧ P id
  edges : ∀ e, e ∈ sub.edges ↔ e ∈ graph.edges ∧ P e.1 ∧ P e.2

theorem induced_subgraph_spec (graph : DirectedGraph) (ids : List String) :
    Induced graph (induced_subgraph_from_ids graph ids) (· ∈ ids) := by
  have hnodes := @mergeNodes_get? (fun node => decide (node.1 ∈ ids.eraseDups)) graph.nodes.entries graph.nodes.nodup
    emptyGraph (by simp [emptyGraph])
  -- The ends of an edge that is kept were kept.
  have hends : ∀ e ∈ graph.edges, decide (e.1 ∈ ids.eraseDups ∧ e.2 ∈ ids.eraseDups) = true →
      (mergeNodes (fun node => decide (node.1 ∈ ids.eraseDups)) graph.nodes.entries emptyGraph).hasNode e.1 = true ∧
        (mergeNodes (fun node => decide (node.1 ∈ ids.eraseDups)) graph.nodes.entries emptyGraph).hasNode e.2 = true := by
    intro e he hkeep
    obtain ⟨h1, h2⟩ := graph.ends e he
    obtain ⟨a1, h1⟩ := (OrdMap.has_iff ..).1 h1
    obtain ⟨a2, h2⟩ := (OrdMap.has_iff ..).1 h2
    simp only [decide_eq_true_eq] at hkeep
    refine ⟨(OrdMap.has_iff ..).2 ⟨a1, (hnodes _ _).2 (.inr ⟨(OrdMap.mem_entries_iff ..).2 h1, ?_⟩)⟩,
      (OrdMap.has_iff ..).2 ⟨a2, (hnodes _ _).2 (.inr ⟨(OrdMap.mem_entries_iff ..).2 h2, ?_⟩)⟩⟩
    · simpa using hkeep.1
    · simpa using hkeep.2
  obtain ⟨hsame, hedges⟩ := mergeEdges_spec hends
  refine ⟨fun id attrs => ?_, fun e => ?_⟩
  · rw [induced_subgraph_from_ids, hsame, hnodes]
    simp [emptyGraph, OrdMap.mem_entries_iff]
  · rw [induced_subgraph_from_ids, hedges, mergeNodes_edges]
    simp [emptyGraph]

/-- Only the nodes of the graph matter to what it induces. -/
theorem Induced.congr {graph sub : DirectedGraph} {P Q : String → Prop} (h : Induced graph sub P)
    (hPQ : ∀ id, graph.hasNode id = true → (P id ↔ Q id)) : Induced graph sub Q := by
  refine ⟨fun id attrs => ?_, fun e => ?_⟩
  · rw [h.nodes]
    exact and_congr_right fun hid => hPQ id ((OrdMap.has_iff ..).2 ⟨attrs, hid⟩)
  · rw [h.edges]
    exact and_congr_right fun he => and_congr (hPQ _ (graph.ends e he).1) (hPQ _ (graph.ends e he).2)

/-- The nodes of an induced subgraph tell which nodes it was induced by. -/
theorem Induced.iff {graph sub : DirectedGraph} {P Q : String → Prop} (h : Induced graph sub P) :
    Induced graph sub Q ↔ ∀ id, graph.hasNode id = true → (P id ↔ Q id) := by
  refine ⟨fun hQ id hid => ?_, h.congr⟩
  obtain ⟨attrs, hattrs⟩ := (OrdMap.has_iff ..).1 hid
  have hboth := (h.nodes id attrs).symm.trans (hQ.nodes id attrs)
  simpa [hattrs] using hboth

/-! ## Queries for node ids -/

/-- The id of a row that is a string. -/
def stringRow : Term → Option String
  | .atom (.str id) => some id
  | _ => none

/-- The ids that a goal of one variable finds. -/
def query_node_ids (next_logic_var_id fuel : ℕ) (build_goal : Term → Goal) (limit : Option ℕ) : Run (List String) := do
  let node_var : LogicVar := { id := next_logic_var_id, name := some "node" }
  let results ← run_goal bind_unchecked fuel (build_goal node_var.term) node_var.term limit (next_logic_var_id + 1)
  return (results.filterMap stringRow).eraseDups

section
variable {next k : ℕ}

/-- The variable of the node. -/
def nodeVar (next : ℕ) : LogicVar := { id := next, name := some "node" }

/-- The state after the variable was taken. -/
def startState (next : ℕ) : GoalState := { subst := OrdMap.empty, counter := next + 1 }

/-- The state in which the variable is bound to an id. -/
def nodeState (next : ℕ) (id : String) : GoalState :=
  { subst := (OrdMap.empty : Substitution).set (.ofNat next) (.str id), counter := next + 1 }

theorem unify_str {p q : String} {s : Substitution} :
    unifyWith bind_unchecked (k + 2) (.str p) (.str q) s = .ok (if p = q then some s else none) := by
  rw [unifyWith, resolve_str, resolve_str, except_bind_ok, except_bind_ok, unifyResolved, is_logic_var_str,
    is_logic_var_str]
  by_cases hpq : p = q
  · rw [if_pos hpq, hpq]
    simp [childPairs, Term.str, unifyAll]
  · rw [if_neg hpq]
    simp [childPairs, Term.str, hpq]
    rfl

/-- Equating the variable with an id binds it. -/
theorem unify_node (id : String) : unifyWith bind_unchecked (k + 2) (nodeVar next).term (.str id) (startState next).subst =
    .ok (some (nodeState next id).subst) := unify_unbound (by simp [nodeVar, startState])

/-- The states of a goal that unifies the variable with an id in each row. -/
theorem node_states {α : Type} {fuel : ℕ} (rows : List α) (toRow : α → List (Term × Term)) (id : α → Option String)
    (h : ∀ x ∈ rows, unifyAll (unifyWith bind_unchecked fuel) (toRow x) (startState next).subst =
      .ok ((id x).map fun i => (nodeState next i).subst)) :
    goal_rows (rows.map toRow) bind_unchecked fuel (startState next) = .ok ((rows.filterMap id).map (nodeState next)) := by
  rw [goal_rows, collect_map, collect_eq (fun x => ((id x).map (nodeState next)).toList) fun x hx => ?_]
  · congr 1
    induction rows with
    | nil => rfl
    | cons x rows ih =>
      have htail := ih fun y hy => h y (List.mem_cons_of_mem _ hy)
      rw [List.flatMap_cons, htail, List.filterMap_cons]
      cases id x <;> rfl
  · rw [h x hx, except_bind_ok]
    cases id x <;> rfl

theorem node_rows (ids : List String) : goal_rows (ids.map fun id => [((nodeVar next).term, .str id)]) bind_unchecked
    (k + 2) (startState next) = .ok (ids.map (nodeState next)) := by
  rw [node_states ids _ some fun id _ => ?_]
  · simp
  · rw [unifyAll, unify_node]
    rfl

/-- The rows of the states are their ids. -/
theorem reify_nodes (ids : List String) (count : ℕ) :
    reifyRows (k + 3) (nodeVar next).term none (ids.map (nodeState next)) count = .ok (ids.map Term.str) := by
  have hvar : ∀ id, reify (k + 3) (nodeVar next).term (nodeState next id).subst = .ok (.str id) := by
    intro id
    have hbound : (nodeState next id).subst.get? (.ofNat (nodeVar next).id) = some (.str id) := by
      simp [nodeState, nodeVar]
    rw [reify, substitute, resolve_bound hbound]
    rfl
  induction ids generalizing count with
  | nil => rfl
  | cons id ids ih =>
    rw [List.map_cons, reifyRows, hvar, except_bind_ok]
    simp only [Option.any_none, Bool.false_eq_true, if_false]
    rw [ih, except_bind_ok]
    rfl

/-- The answer by the states of the goal. -/
theorem query_node_ids_eq {build_goal : Term → Goal} {ids : List String}
    (h : build_goal (nodeVar next).term bind_unchecked (k + 3) (startState next) = .ok (ids.map (nodeState next))) :
    query_node_ids next (k + 3) build_goal none = .ok ids.eraseDups := by
  have hrun : run_goal bind_unchecked (k + 3) (build_goal (nodeVar next).term) (nodeVar next).term none (next + 1) =
      .ok (ids.map Term.str) := by
    change (build_goal (nodeVar next).term bind_unchecked (k + 3) (startState next) >>= fun states =>
      reifyRows (k + 3) (nodeVar next).term none states 0) = _
    rw [h, except_bind_ok, reify_nodes]
  change (run_goal bind_unchecked (k + 3) (build_goal (nodeVar next).term) (nodeVar next).term none (next + 1) >>=
    fun results => .ok (results.filterMap stringRow).eraseDups) = _
  have hstrings : (ids.map Term.str).filterMap stringRow = ids := by
    rw [List.filterMap_map]
    exact List.filterMap_some
  rw [hrun, except_bind_ok, hstrings]

end

theorem query_node_ids_grows {build_goal : Term → Goal} (hgoal : ∀ t, Regular (build_goal t)) (next : ℕ)
    (limit : Option ℕ) : Grows .outOfFuel (fun fuel => query_node_ids next fuel build_goal limit) := by
  refine .bind (fun n m hnm => ?_) fun _ => .const _
  exact @run_goal_upto (· = .outOfFuel) rfl _ _ bind_unchecked_upto n m hnm _ (hgoal _) _ _ _

end LainLang.Tracer
