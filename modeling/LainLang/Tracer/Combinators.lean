import LainLang.Tracer.Subgraph
/-!
# Graph combinators

The filters keep the nodes whose attributes pass a test and the edges between
them. `subgraph` is the one of graphology-operators, a parameter.
-/
open LainLang.Lib LainLang.Js

namespace LainLang.Tracer

namespace DirectedGraph

/-- Removes a node and its edges. -/
def dropNode (graph : DirectedGraph) (id : String) : DirectedGraph where
  nodes := graph.nodes.delete id
  edges := graph.edges.filter fun e => e.1 ≠ id && e.2 ≠ id
  nodup := graph.nodup.filter _
  ends := by
    intro e he
    obtain ⟨hmem, hne⟩ := List.mem_filter.1 he
    obtain ⟨h1, h2⟩ := graph.ends e hmem
    simp only [ne_eq, decide_not, Bool.and_eq_true, Bool.not_eq_true', decide_eq_false_iff_not] at hne
    simp [h1, h2, hne.1, hne.2]

end DirectedGraph

/-! ## Filters -/

/-- `induced_subgraph_by_node_predicate`: the others are dropped from a copy. -/
def induced_subgraph_by_node_predicate (graph : DirectedGraph) (keep : String → Attributes → Bool) : DirectedGraph :=
  let drop_ids := (graph.nodes.entries.filter fun node => !keep node.1 node.2).map Prod.fst
  drop_ids.foldl DirectedGraph.dropNode graph

/-- The two values of `kind`. -/
inductive NodeKind where
  | cell
  | propagator
  deriving DecidableEq

/-- The text of a kind. -/
def NodeKind.text : NodeKind → String
  | .cell => "cell"
  | .propagator => "propagator"

/-- Nodes of the kind. -/
def subgraph_by_kind (graph : DirectedGraph) (kind : NodeKind) : DirectedGraph :=
  induced_subgraph_by_node_predicate graph fun _ attrs => decide (get_attr attrs "kind" = .str kind.text)

/-- `typeof t === "string" && t.startsWith(ns)`. -/
def isStringFrom (ns : String) : Term → Bool
  | .atom (.str text) => startsWith text ns
  | _ => false

/-- `subgraph_by_namespace`: namespaces that start with the text. -/
def subgraph_by_namespace (graph : DirectedGraph) (ns : String) : DirectedGraph :=
  induced_subgraph_by_node_predicate graph fun _ attrs => isStringFrom ns (get_attr attrs "namespace")

/-- `a === b` on numbers. -/
def numberEquals : JsNumber → JsNumber → Bool
  | .finite d, .finite d' => decide (d = d') || d.mantissa == 0 && d'.mantissa == 0
  | .infinity negative, .infinity negative' => negative == negative'
  | _, _ => false

/-- `t === n` for a number. -/
def isNumber (n : JsNumber) : Term → Bool
  | .atom (.num m) => numberEquals m n
  | _ => false

/-- Nodes of the relation level. -/
def subgraph_by_level (graph : DirectedGraph) (level : JsNumber) : DirectedGraph :=
  induced_subgraph_by_node_predicate graph fun _ attrs => isNumber level (get_attr attrs "relationLevel")

/-! ## Graph algebra -/

/-- `intersect_graphs`: the nodes of the first that the second has. -/
def intersect_graphs (subgraph : DirectedGraph → (String → Bool) → DirectedGraph) (a b : DirectedGraph) : DirectedGraph :=
  subgraph a fun id => b.hasNode id

/-- Merges an edge between nodes of the graph. -/
def mergePresent (result : DirectedGraph) (e : EdgeTuple) : DirectedGraph :=
  if result.hasNode e.1 && result.hasNode e.2 then result.mergeEdge e.1 e.2 else result

/-- The second graph merged into a copy of the first. -/
def union_graphs (a b : DirectedGraph) : DirectedGraph :=
  b.edges.foldl mergePresent (b.nodes.entries.foldl (fun result node => result.mergeNode node.1 node.2) a)

/-! ## What they keep -/

theorem foldl_dropNode_get? (ids : List String) (graph : DirectedGraph) (id : String) (attrs : Attributes) :
    (ids.foldl DirectedGraph.dropNode graph).nodes.get? id = some attrs ↔
      graph.nodes.get? id = some attrs ∧ id ∉ ids := by
  induction ids generalizing graph with
  | nil => simp
  | cons dropped ids ih =>
    rw [List.foldl_cons, ih, List.mem_cons, not_or]
    simp only [DirectedGraph.dropNode, OrdMap.get?_delete]
    by_cases hid : id = dropped
    · simp [hid]
    · simp [hid]

theorem foldl_dropNode_edges (ids : List String) (graph : DirectedGraph) (e : EdgeTuple) :
    e ∈ (ids.foldl DirectedGraph.dropNode graph).edges ↔ e ∈ graph.edges ∧ e.1 ∉ ids ∧ e.2 ∉ ids := by
  induction ids generalizing graph with
  | nil => simp
  | cons dropped ids ih =>
    rw [List.foldl_cons, ih]
    simp only [DirectedGraph.dropNode, List.mem_filter, ne_eq, decide_not, Bool.and_eq_true, Bool.not_eq_true',
      decide_eq_false_iff_not, List.mem_cons, not_or]
    tauto

/-- A filter keeps the nodes that pass and the edges between them. -/
theorem induced_by_predicate (graph : DirectedGraph) (keep : String → Attributes → Bool) :
    Induced graph (induced_subgraph_by_node_predicate graph keep)
      fun id => ∃ attrs, graph.nodes.get? id = some attrs ∧ keep id attrs = true := by
  have hdropped : ∀ id attrs, graph.nodes.get? id = some attrs →
      (id ∉ (graph.nodes.entries.filter fun node => !keep node.1 node.2).map Prod.fst ↔
        ∃ attrs, graph.nodes.get? id = some attrs ∧ keep id attrs = true) := by
    intro id attrs hid
    simp [OrdMap.mem_entries_iff, hid]
  refine ⟨fun id attrs => ?_, fun e => ?_⟩
  · rw [induced_subgraph_by_node_predicate, foldl_dropNode_get?]
    exact and_congr_right fun hid => hdropped id attrs hid
  · rw [induced_subgraph_by_node_predicate, foldl_dropNode_edges]
    refine and_congr_right fun he => ?_
    obtain ⟨h1, h2⟩ := graph.ends e he
    obtain ⟨a1, h1⟩ := (OrdMap.has_iff ..).1 h1
    obtain ⟨a2, h2⟩ := (OrdMap.has_iff ..).1 h2
    rw [hdropped _ _ h1, hdropped _ _ h2]

theorem Induced.hasNode_iff {graph sub : DirectedGraph} {P : String → Prop} (h : Induced graph sub P) (id : String) :
    sub.hasNode id = true ↔ graph.hasNode id = true ∧ P id := by
  simp only [DirectedGraph.hasNode, OrdMap.has_iff, h.nodes, exists_and_right]

theorem hasNode_by_predicate (graph : DirectedGraph) (keep : String → Attributes → Bool) (id : String) :
    (induced_subgraph_by_node_predicate graph keep).hasNode id = true ↔
      ∃ attrs, graph.nodes.get? id = some attrs ∧ keep id attrs = true := by
  rw [(induced_by_predicate graph keep).hasNode_iff, DirectedGraph.hasNode, OrdMap.has_iff]
  refine and_iff_right_of_imp ?_
  rintro ⟨attrs, hid, -⟩
  exact ⟨attrs, hid⟩

theorem hasNode_intersect_graphs {subgraph : DirectedGraph → (String → Bool) → DirectedGraph}
    (hsubgraph : ∀ graph keep, Induced graph (subgraph graph keep) (keep · = true)) (a b : DirectedGraph) (id : String) :
    (intersect_graphs subgraph a b).hasNode id = true ↔ a.hasNode id = true ∧ b.hasNode id = true :=
  (hsubgraph a _).hasNode_iff id

/-- The union has the nodes of both graphs. -/
theorem hasNode_union_graphs (a b : DirectedGraph) (id : String) :
    (union_graphs a b).hasNode id = true ↔ a.hasNode id = true ∨ b.hasNode id = true := by
  have hedges : ∀ (edges : List EdgeTuple) (result : DirectedGraph),
      (edges.foldl mergePresent result).hasNode id = result.hasNode id := by
    intro edges
    induction edges with
    | nil => exact fun _ => rfl
    | cons e edges ih =>
      intro result
      rw [List.foldl_cons, ih, mergePresent]
      split
      · rename_i hboth
        rw [Bool.and_eq_true] at hboth
        rw [DirectedGraph.hasNode, DirectedGraph.nodes_mergeEdge hboth.1 hboth.2, DirectedGraph.hasNode]
      · rfl
  have hnodes : ∀ (nodes : List (String × Attributes)) (result : DirectedGraph),
      (nodes.foldl (fun result node => result.mergeNode node.1 node.2) result).hasNode id = true ↔
        result.hasNode id = true ∨ id ∈ nodes.map Prod.fst := by
    intro nodes
    induction nodes with
    | nil => simp
    | cons node nodes ih =>
      intro result
      rw [List.foldl_cons, ih, DirectedGraph.hasNode_mergeNode]
      simp [or_assoc, or_left_comm]
  rw [union_graphs, hedges, hnodes]
  exact or_congr_right (b.nodes.has_iff_mem_keys id).symm

end LainLang.Tracer
