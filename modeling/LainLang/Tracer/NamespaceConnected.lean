import LainLang.Tracer.ConnectedPrefix
/-!
# What a namespace is connected to

`subgraph_by_namespace_connected` keeps the nodes of a namespace with everything they
lead to and everything that leads to them. Nothing between a node of the namespace and
another node is lost, and nothing is left to take away: to filter the result by the same
namespace changes nothing. `bfsFromNode` of graphology-traversal is a parameter.
-/
open LainLang.Lib LainLang.Js

namespace LainLang.Tracer

/-! ## The filter -/

/-- The `mode` of a traversal: along the edges, or against them. -/
inductive TraversalMode where
  | outbound
  | inbound
  deriving DecidableEq

/-- The ids that a traversal from a node calls back with. -/
abbrev BfsFromNode := DirectedGraph → String → TraversalMode → List String

section
variable (bfsFromNode : BfsFromNode)

/-- The sets of ids are lists without repetitions. -/
def collect_reachable_from_anchors (graph : DirectedGraph) (anchor_ids : List String) (mode : TraversalMode) :
    List String :=
  anchor_ids.foldl (fun visited seed => (bfsFromNode graph seed mode).foldl (fun visited id => visited.insert id) visited) []

/-- The ids of both, without repetitions. -/
def set_union (a b : List String) : List String := (a ++ b).eraseDups

/-- Reached from an anchor, or reaching one. -/
def nodes_connected_to_anchors_any_direction (graph : DirectedGraph) (anchor_ids : List String) : List String :=
  let reachable_from_anchor := collect_reachable_from_anchors bfsFromNode graph anchor_ids .outbound
  let can_reach_anchor := collect_reachable_from_anchors bfsFromNode graph anchor_ids .inbound
  set_union reachable_from_anchor can_reach_anchor

/-- The ids whose namespace starts with the prefix. -/
def namespace_anchors (graph : DirectedGraph) (ns : String) : List String :=
  (graph.nodes.entries.filter fun node => isStringFrom ns (get_attr node.2 "namespace")).map Prod.fst

/-- The anchors of a namespace, and what is connected to them. -/
def subgraph_by_namespace_connected (graph : DirectedGraph) (ns : String) : DirectedGraph :=
  let kept_ids := nodes_connected_to_anchors_any_direction bfsFromNode graph (namespace_anchors graph ns)
  induced_subgraph_by_node_predicate graph fun id _ => decide (id ∈ kept_ids)

end

/-! ## What is kept -/

/-- The walk goes from the seed to the node. -/
def TraversalMode.Leads (graph : DirectedGraph) : TraversalMode → String → String → Prop
  | .outbound, seed, id => Reaches graph seed id
  | .inbound, seed, id => Reaches graph id seed

/-- A traversal from a node visits what the node leads to in its mode. -/
def Visits (bfsFromNode : BfsFromNode) (graph : DirectedGraph) : Prop :=
  ∀ seed mode, graph.hasNode seed = true → ∀ id, id ∈ bfsFromNode graph seed mode ↔ mode.Leads graph seed id

/-- A node of the namespace leads to the node, or the other way round. -/
def JoinedTo (graph : DirectedGraph) (ns id : String) : Prop :=
  ∃ anchor, (subgraph_by_namespace graph ns).hasNode anchor = true ∧ (Reaches graph anchor id ∨ Reaches graph id anchor)

section
variable {bfsFromNode : BfsFromNode} {graph : DirectedGraph} {ns : String}

theorem mem_foldl_insert {ids : List String} {visited : List String} {id : String} :
    id ∈ ids.foldl (fun visited id => visited.insert id) visited ↔ id ∈ visited ∨ id ∈ ids := by
  induction ids generalizing visited with
  | nil => simp
  | cons x ids ih =>
    rw [List.foldl_cons, ih, List.mem_insert_iff, List.mem_cons]
    tauto

theorem mem_collect_reachable (hbfs : Visits bfsFromNode graph) {anchor_ids : List String}
    (hanchors : ∀ anchor ∈ anchor_ids, graph.hasNode anchor = true) (mode : TraversalMode) (id : String) :
    id ∈ collect_reachable_from_anchors bfsFromNode graph anchor_ids mode ↔
      ∃ anchor ∈ anchor_ids, mode.Leads graph anchor id := by
  have hfold : ∀ visited : List String, id ∈ anchor_ids.foldl (fun visited seed =>
      (bfsFromNode graph seed mode).foldl (fun visited id => visited.insert id) visited) visited ↔ id ∈ visited ∨ ∃ anchor ∈ anchor_ids, mode.Leads graph anchor id := by
    induction anchor_ids with
    | nil => simp
    | cons anchor anchor_ids ih =>
      rw [List.forall_mem_cons] at hanchors
      intro visited
      rw [List.foldl_cons, ih hanchors.2, mem_foldl_insert, hbfs anchor mode hanchors.1]
      simp [or_assoc]
  simpa [collect_reachable_from_anchors] using hfold []

theorem mem_namespace_anchors (graph : DirectedGraph) (ns id : String) :
    id ∈ namespace_anchors graph ns ↔ (subgraph_by_namespace graph ns).hasNode id = true := by
  rw [subgraph_by_namespace, hasNode_by_predicate]
  simp [namespace_anchors, OrdMap.mem_entries_iff]

theorem anchor_hasNode {anchor : String} (h : (subgraph_by_namespace graph ns).hasNode anchor = true) :
    graph.hasNode anchor = true :=
  (((induced_by_predicate graph _).hasNode_iff anchor).1 h).1

/-- The filter keeps the nodes that are joined to the namespace. -/
theorem connected_induced (hbfs : Visits bfsFromNode graph) (ns : String) :
    Induced graph (subgraph_by_namespace_connected bfsFromNode graph ns) (JoinedTo graph ns) := by
  rw [subgraph_by_namespace_connected]
  refine (induced_by_predicate graph _).congr fun id hid => ?_
  have hanchors : ∀ anchor ∈ namespace_anchors graph ns, graph.hasNode anchor = true :=
    fun anchor hanchor => anchor_hasNode ((mem_namespace_anchors ..).1 hanchor)
  have hkept : id ∈ nodes_connected_to_anchors_any_direction bfsFromNode graph (namespace_anchors graph ns) ↔
      JoinedTo graph ns id := by
    rw [nodes_connected_to_anchors_any_direction, set_union, List.mem_eraseDups, List.mem_append,
      mem_collect_reachable hbfs hanchors, mem_collect_reachable hbfs hanchors]
    simp only [mem_namespace_anchors, TraversalMode.Leads, JoinedTo]
    grind
  obtain ⟨attrs, hattrs⟩ := (OrdMap.has_iff ..).1 hid
  simp [hattrs, hkept]

/-! ## What is joined to the namespace stays so -/

variable {sub : DirectedGraph}

theorem joined_anchor {anchor : String} (h : (subgraph_by_namespace graph ns).hasNode anchor = true) :
    JoinedTo graph ns anchor := ⟨anchor, h, .inl .refl⟩

/-- Every node on the way from the namespace is kept. -/
theorem reaches_from_anchor (hsub : Induced graph sub (JoinedTo graph ns)) {anchor id : String}
    (hanchor : (subgraph_by_namespace graph ns).hasNode anchor = true) : Reaches sub anchor id ↔ Reaches graph anchor id := by
  constructor
  · exact Relation.ReflTransGen.mono (fun a b he => ((hsub.edges (a, b)).1 he).1) _ _
  · intro h
    induction h with
    | refl => exact .refl
    | @tail b c hb hedge ih =>
      exact ih.tail ((hsub.edges (b, c)).2 ⟨hedge, ⟨anchor, hanchor, .inl hb⟩, ⟨anchor, hanchor, .inl (hb.tail hedge)⟩⟩)

theorem reaches_to_anchor (hsub : Induced graph sub (JoinedTo graph ns)) {anchor id : String}
    (hanchor : (subgraph_by_namespace graph ns).hasNode anchor = true) : Reaches sub id anchor ↔ Reaches graph id anchor := by
  constructor
  · exact Relation.ReflTransGen.mono (fun a b he => ((hsub.edges (a, b)).1 he).1) _ _
  · intro h
    induction h using Relation.ReflTransGen.head_induction_on with
    | refl => exact .refl
    | @head a b hedge hb ih =>
      exact ih.head ((hsub.edges (a, b)).2 ⟨hedge, ⟨anchor, hanchor, .inr (hb.head hedge)⟩, ⟨anchor, hanchor, .inr hb⟩⟩)

/-- The nodes of the namespace are kept with their attributes. -/
theorem anchor_of_induced (hsub : Induced graph sub (JoinedTo graph ns)) (anchor : String) :
    (subgraph_by_namespace sub ns).hasNode anchor = true ↔ (subgraph_by_namespace graph ns).hasNode anchor = true := by
  constructor
  · intro h
    rw [subgraph_by_namespace, hasNode_by_predicate] at h ⊢
    obtain ⟨attrs, hattrs, hns⟩ := h
    exact ⟨attrs, ((hsub.nodes anchor attrs).1 hattrs).1, hns⟩
  · intro h
    have hjoined := joined_anchor h
    rw [subgraph_by_namespace, hasNode_by_predicate] at h ⊢
    obtain ⟨attrs, hattrs, hns⟩ := h
    exact ⟨attrs, (hsub.nodes anchor attrs).2 ⟨hattrs, hjoined⟩, hns⟩

theorem joined_of_induced (hsub : Induced graph sub (JoinedTo graph ns)) (id : String) :
    JoinedTo sub ns id ↔ JoinedTo graph ns id := by
  refine exists_congr fun anchor => ?_
  rw [anchor_of_induced hsub]
  refine and_congr_right fun hanchor => ?_
  rw [reaches_from_anchor hsub hanchor, reaches_to_anchor hsub hanchor]

/-- A longer prefix has fewer nodes in its namespace. -/
theorem JoinedTo.of_longer {ns' id : String} (hns : startsWith ns' ns = true) (h : JoinedTo graph ns' id) :
    JoinedTo graph ns id := by
  obtain ⟨anchor, hanchor, hjoined⟩ := h
  refine ⟨anchor, ?_, hjoined⟩
  rw [subgraph_by_namespace, hasNode_by_predicate] at hanchor ⊢
  obtain ⟨attrs, hattrs, htest⟩ := hanchor
  refine ⟨attrs, hattrs, ?_⟩
  unfold isStringFrom at htest ⊢
  split at htest
  · rw [startsWith, List.isPrefixOf_iff_prefix] at htest hns ⊢
    exact hns.trans htest
  · cases htest

end

/-- The filter keeps exactly what is joined to the namespace, with the edges between.
From and to the namespace every node is reached as before. To filter again by the same
prefix changes nothing, and a longer prefix keeps nothing else. -/
theorem namespace_connected {bfsFromNode : BfsFromNode} (hbfs : ∀ graph, Visits bfsFromNode graph) (graph : DirectedGraph)
    (ns : String) :
    Induced graph (subgraph_by_namespace_connected bfsFromNode graph ns) (JoinedTo graph ns) ∧
    (∀ anchor, (subgraph_by_namespace graph ns).hasNode anchor = true → ∀ id,
      (Reaches (subgraph_by_namespace_connected bfsFromNode graph ns) anchor id ↔ Reaches graph anchor id) ∧
      (Reaches (subgraph_by_namespace_connected bfsFromNode graph ns) id anchor ↔ Reaches graph id anchor)) ∧
    Induced (subgraph_by_namespace_connected bfsFromNode graph ns)
      (subgraph_by_namespace_connected bfsFromNode (subgraph_by_namespace_connected bfsFromNode graph ns) ns)
      (fun _ => True) ∧
    ∀ ns', startsWith ns' ns = true → ∀ id, (subgraph_by_namespace_connected bfsFromNode graph ns').hasNode id = true →
      (subgraph_by_namespace_connected bfsFromNode graph ns).hasNode id = true := by
  have hsub := connected_induced (hbfs graph) ns
  refine ⟨hsub, fun anchor hanchor id => ⟨reaches_from_anchor hsub hanchor, reaches_to_anchor hsub hanchor⟩, ?_, ?_⟩
  · refine (connected_induced (hbfs _) ns).congr fun id hid => iff_true_intro ?_
    exact (joined_of_induced hsub id).2 ((hsub.hasNode_iff id).1 hid).2
  · intro ns' hns id hid
    obtain ⟨hnode, hjoined⟩ := ((connected_induced (hbfs graph) ns').hasNode_iff id).1 hid
    exact (hsub.hasNode_iff id).2 ⟨hnode, hjoined.of_longer hns⟩

/-! ## The traversal that visits level by level -/

/-- The neighbours in the mode. -/
def TraversalMode.neighbors (graph : DirectedGraph) : TraversalMode → String → List String
  | .outbound, id => graph.outNeighbors id
  | .inbound, id => (graph.edges.filter fun e => e.2 = id).map Prod.fst

/-- A queue of nodes to visit. The turns it takes are bounded by the edges. -/
def breadthFirst : BfsFromNode := fun graph seed mode =>
  let turns := 2 + (graph.nodes.keys.map fun id => (mode.neighbors graph id).length).sum
  match worklist () (mode.neighbors graph) (fun ids id => ids ++ [id]) turns [seed] [] [] with
  | .ok ids => ids
  | .error _ => []

theorem mem_inbound_neighbors {graph : DirectedGraph} {a b : String} :
    b ∈ TraversalMode.inbound.neighbors graph a ↔ (b, a) ∈ graph.edges := by
  simp [TraversalMode.neighbors]

theorem leads_iff_neighbors (graph : DirectedGraph) (mode : TraversalMode) (seed id : String) :
    Relation.ReflTransGen (fun a b => b ∈ mode.neighbors graph a) seed id ↔ mode.Leads graph seed id := by
  cases mode with
  | outbound =>
    have hedges : (fun a b => b ∈ TraversalMode.outbound.neighbors graph a) = fun a b => (a, b) ∈ graph.edges := by
      funext a b
      exact propext DirectedGraph.mem_outNeighbors
    rw [hedges]
    rfl
  | inbound =>
    have hedges : (fun a b => b ∈ TraversalMode.inbound.neighbors graph a) = Function.swap fun a b => (a, b) ∈ graph.edges := by
      funext a b
      exact propext mem_inbound_neighbors
    rw [hedges, Relation.reflTransGen_swap]
    rfl

theorem visits_breadthFirst (graph : DirectedGraph) : Visits breadthFirst graph := by
  intro seed mode hseed id
  have hclosed : ∀ x ∈ graph.nodes.keys, ∀ y ∈ mode.neighbors graph x, y ∈ graph.nodes.keys := by
    intro x _ y hy
    rw [← OrdMap.has_iff_mem_keys]
    cases mode with
    | outbound => exact DirectedGraph.outNeighbors_has hy
    | inbound => exact (graph.ends _ (mem_inbound_neighbors.1 hy)).1
  have hqueue : ∀ q ∈ [seed], q ∈ graph.nodes.keys := by
    intro q hq
    rw [List.mem_singleton.1 hq, ← OrdMap.has_iff_mem_keys]
    exact hseed
  have hturns : [seed].length + ((graph.nodes.keys.filter (· ∉ ([] : List String))).map fun x =>
      (mode.neighbors graph x).length).sum < 2 + (graph.nodes.keys.map fun id => (mode.neighbors graph id).length).sum := by
    simp
  obtain ⟨ids, hids⟩ := @worklist_within Unit _ _ _ () _ (fun ids id => ids ++ [id]) _ graph.nodes.nodup hclosed _ _ _
    hqueue hturns []
  obtain ⟨order, horder, -, hmem⟩ := worklist_spec hids
  have hcollect : ∀ (order ids : List String), order.foldl (fun ids id => ids ++ [id]) ids = ids ++ order := by
    intro order
    induction order with
    | nil => simp
    | cons x order ih => simp [ih]
  have hvisited : breadthFirst graph seed mode = order := by
    rw [breadthFirst, hids]
    exact horder.trans (hcollect order [])
  rw [hvisited, hmem, explored_iff_path]
  simp [leads_iff_neighbors]

/-- A card that writes a cell of the core, and a cell that is apart. -/
def cardAndCore : DirectedGraph where
  nodes := ⟨[("a", [("namespace", .str "CARD")]), ("p", [("namespace", .str "Core")]), ("x", [("namespace", .str "Core")]),
    ("y", [("namespace", .str "Core")])], by decide⟩
  edges := [("a", "p"), ("p", "x")]
  nodup := by decide
  ends := by decide

theorem namespace_connected_card : Induced cardAndCore (subgraph_by_namespace_connected breadthFirst cardAndCore "CARD")
    (JoinedTo cardAndCore "CARD") ∧
    (subgraph_by_namespace_connected breadthFirst cardAndCore "CARD").nodes.keys = ["a", "p", "x"] :=
  ⟨(namespace_connected visits_breadthFirst cardAndCore "CARD").1, by decide⟩

end LainLang.Tracer
