import LainLang.Datalog.TopologyPrograms
import LainLang.Tracer.Subgraph
/-!
# The graph of the topology facts

`graphology_from_topology_facts` turns reads and writes into edges between cells
and propagators. Two cells are joined by a path of this graph if and only if the
reachability program derives that one flows to the other in one step or more.
-/
open LainLang.Lib LainLang.Js

namespace LainLang.Datalog

open LainLang.Tracer (DirectedGraph Attributes emptyGraph)

/-- The attributes of one node, as the facts give them. -/
structure NodeAttrAcc where
  label : String
  kind : String
  «namespace» : String
  relationLevel : JsNumber
  value : Option String

/-- The accumulator `ensure` makes for a new id. -/
def NodeAttrAcc.initial (id : String) : NodeAttrAcc where
  label := id
  kind := "cell"
  «namespace» := "unknown"
  relationLevel := .ofNat 0
  value := none

section
variable (Number : String → JsNumber)

/-- `Number(s)` where it is finite. -/
def parse_level (s : String) : JsNumber :=
  match Number s with
  | .finite d => .finite d
  | .nan => .ofNat 0
  | .infinity _ => .ofNat 0

/-- What one fact says of its node. -/
def readFact (acc : NodeAttrAcc) (f : Fact) : NodeAttrAcc :=
  match f with
  | tag :: _ :: text :: _ =>
    if tag = "cell" then { acc with label := text }
    else if tag = "propagator" then { acc with label := text }
    else if tag = "label" then { acc with label := text }
    else if tag = "namespace" then { acc with «namespace» := text }
    else if tag = "level" then { acc with relationLevel := parse_level Number text }
    else if tag = "kind" ∧ text = "cell" then { acc with kind := "cell" }
    else if tag = "kind" ∧ text = "prop" then { acc with kind := "propagator" }
    else if tag = "value" then { acc with value := some text }
    else acc
  | _ => acc

/-- The accumulator of the id, or a new one. -/
def ensure (byId : OrdMap String NodeAttrAcc) (id : String) : NodeAttrAcc := (byId.get? id).getD (.initial id)

/-- What the loop reads of one fact. -/
def collectFact (keepIds : List String) (byId : OrdMap String NodeAttrAcc) (f : Fact) : OrdMap String NodeAttrAcc :=
  match f with
  | _ :: id :: _ => if id ∈ keepIds then byId.set id (readFact Number (ensure byId id) f) else byId
  | _ => byId

/-- The loop that collects attributes. -/
def collectAttrs (facts : List Fact) (keepIds : List String) : OrdMap String NodeAttrAcc :=
  facts.foldl (collectFact Number keepIds) OrdMap.empty

/-- The attributes given to `mergeNode`. -/
def NodeAttrAcc.attributes (a : NodeAttrAcc) : Attributes :=
  [("label", .str a.label), ("kind", .str a.kind), ("namespace", .str a.namespace),
    ("relationLevel", .atom (.num a.relationLevel))] ++ (a.value.map fun v => ("value", Tracer.Term.str v)).toList

/-- `if (!graph.hasEdge(a, b)) graph.addEdge(a, b)`. -/
def addEdgeIfNew (graph : DirectedGraph) (source target : String) : DirectedGraph :=
  if graph.hasEdge source target then graph else graph.addEdge source target

/-- The edge of one fact. -/
def addFactEdge (keepIds : List String) (graph : DirectedGraph) (f : Fact) : DirectedGraph :=
  match f with
  | tag :: propId :: cellId :: _ =>
    if tag = "reads" then
      if propId ∈ keepIds ∧ cellId ∈ keepIds ∧ graph.nodes.has cellId ∧ graph.nodes.has propId then
        addEdgeIfNew graph cellId propId
      else graph
    else if tag = "writes" then
      if propId ∈ keepIds ∧ cellId ∈ keepIds ∧ graph.nodes.has cellId ∧ graph.nodes.has propId then
        addEdgeIfNew graph propId cellId
      else graph
    else graph
  | _ => graph

/-- `graphology_from_topology_facts`: nodes first, then reads and writes between kept ids. -/
def graphology_from_topology_facts (facts : List Fact) (keepIds : List String) : DirectedGraph :=
  let byId := collectAttrs Number facts keepIds
  let nodes := keepIds.foldl (fun graph id => graph.mergeNode id (ensure byId id).attributes) emptyGraph
  facts.foldl (addFactEdge keepIds) nodes

end

/-! ## Its nodes and edges -/

theorem addEdgeIfNew_nodes (graph : DirectedGraph) (source target : String) :
    (addEdgeIfNew graph source target).nodes = graph.nodes := by
  unfold addEdgeIfNew
  split
  · rfl
  · exact DirectedGraph.nodes_addEdge ..

theorem mem_addEdgeIfNew {graph : DirectedGraph} {source target : String} (hs : graph.nodes.has source = true)
    (ht : graph.nodes.has target = true) {e : String × String} :
    e ∈ (addEdgeIfNew graph source target).edges ↔ e ∈ graph.edges ∨ e = (source, target) := by
  unfold addEdgeIfNew DirectedGraph.hasEdge
  by_cases h : (source, target) ∈ graph.edges
  · rw [if_pos (decide_eq_true h)]
    constructor
    · exact .inl
    · rintro (he | rfl)
      · exact he
      · exact h
  · rw [if_neg (by simpa using h)]
    exact DirectedGraph.mem_edges_addEdge hs ht

/-- The edge a fact stands for. -/
def factEdge : Fact → Option (String × String)
  | tag :: propId :: cellId :: _ =>
    if tag = "reads" then some (cellId, propId) else if tag = "writes" then some (propId, cellId) else none
  | _ => none

theorem addFactEdge_nodes (keepIds : List String) (graph : DirectedGraph) (f : Fact) :
    (addFactEdge keepIds graph f).nodes = graph.nodes := by
  unfold addFactEdge
  split
  · split
    · split
      · exact addEdgeIfNew_nodes _ _ _
      · rfl
    · split
      · split
        · exact addEdgeIfNew_nodes _ _ _
        · rfl
      · rfl
  · rfl

theorem mem_addFactEdge {keepIds : List String} {graph : DirectedGraph} (hnodes : ∀ id ∈ keepIds, graph.nodes.has id = true)
    {f : Fact} (hf : ∀ a b, factEdge f = some (a, b) → a ∈ keepIds ∧ b ∈ keepIds) {e : String × String} :
    e ∈ (addFactEdge keepIds graph f).edges ↔ e ∈ graph.edges ∨ factEdge f = some e := by
  have hother : ∀ {g : DirectedGraph}, g = graph → factEdge f = none → (e ∈ g.edges ↔ e ∈ graph.edges ∨ factEdge f = some e) := by
    rintro g rfl hnone
    simp [hnone]
  have hnew : ∀ {a b : String}, factEdge f = some (a, b) → a ∈ keepIds → b ∈ keepIds →
      (e ∈ (addEdgeIfNew graph a b).edges ↔ e ∈ graph.edges ∨ factEdge f = some e) := by
    intro a b hedge ha hb
    rw [mem_addEdgeIfNew (hnodes a ha) (hnodes b hb), hedge, Option.some.injEq]
    exact or_congr Iff.rfl eq_comm
  match f with
  | tag :: propId :: cellId :: rest =>
    by_cases hreads : tag = "reads"
    · have hedge : factEdge (tag :: propId :: cellId :: rest) = some (cellId, propId) := if_pos hreads
      obtain ⟨hcell, hprop⟩ := hf _ _ hedge
      rw [addFactEdge, if_pos hreads, if_pos ⟨hprop, hcell, hnodes _ hcell, hnodes _ hprop⟩]
      exact hnew hedge hcell hprop
    · by_cases hwrites : tag = "writes"
      · have hedge : factEdge (tag :: propId :: cellId :: rest) = some (propId, cellId) := by
          rw [factEdge, if_neg hreads, if_pos hwrites]
        obtain ⟨hprop, hcell⟩ := hf _ _ hedge
        rw [addFactEdge, if_neg hreads, if_pos hwrites, if_pos ⟨hprop, hcell, hnodes _ hcell, hnodes _ hprop⟩]
        exact hnew hedge hprop hcell
      · exact hother (by rw [addFactEdge, if_neg hreads, if_neg hwrites]) (by rw [factEdge, if_neg hreads, if_neg hwrites])
  | [] => exact hother rfl rfl
  | [_] => exact hother rfl rfl
  | [_, _] => exact hother rfl rfl

section
variable {Number : String → JsNumber} {facts : List Fact} {keepIds : List String}

theorem nodes_has (byId : OrdMap String NodeAttrAcc) (keepIds : List String) (graph : DirectedGraph) (id : String) :
    (keepIds.foldl (fun graph id => graph.mergeNode id (ensure byId id).attributes) graph).nodes.has id = true ↔
      id ∈ keepIds ∨ graph.nodes.has id = true := by
  induction keepIds generalizing graph with
  | nil => simp
  | cons k keepIds ih =>
    rw [List.foldl_cons, ih]
    simp [DirectedGraph.mergeNode, or_assoc, or_left_comm]

theorem nodes_edges (byId : OrdMap String NodeAttrAcc) (keepIds : List String) (graph : DirectedGraph) :
    (keepIds.foldl (fun graph id => graph.mergeNode id (ensure byId id).attributes) graph).edges = graph.edges := by
  induction keepIds generalizing graph with
  | nil => rfl
  | cons k keepIds ih => rw [List.foldl_cons, ih]; rfl

theorem foldl_edges {graph : DirectedGraph} (hnodes : ∀ id ∈ keepIds, graph.nodes.has id = true)
    (hfacts : ∀ f ∈ facts, ∀ a b, factEdge f = some (a, b) → a ∈ keepIds ∧ b ∈ keepIds) :
    (facts.foldl (addFactEdge keepIds) graph).nodes = graph.nodes ∧
      ∀ e, e ∈ (facts.foldl (addFactEdge keepIds) graph).edges ↔ e ∈ graph.edges ∨ ∃ f ∈ facts, factEdge f = some e := by
  induction facts generalizing graph with
  | nil => simp
  | cons f facts ih =>
    rw [List.forall_mem_cons] at hfacts
    have hsame := addFactEdge_nodes keepIds graph f
    obtain ⟨hn, he⟩ := ih (hsame.symm ▸ hnodes) hfacts.2
    refine ⟨by rw [List.foldl_cons, hn, hsame], fun e => ?_⟩
    rw [List.foldl_cons, he, mem_addFactEdge hnodes hfacts.1]
    simp [or_assoc]

/-- The nodes are the ids, the edges those of the facts. -/
theorem graphology_spec (hfacts : ∀ f ∈ facts, ∀ a b, factEdge f = some (a, b) → a ∈ keepIds ∧ b ∈ keepIds) :
    (∀ id, (graphology_from_topology_facts Number facts keepIds).nodes.has id = true ↔ id ∈ keepIds) ∧
      ∀ e, e ∈ (graphology_from_topology_facts Number facts keepIds).edges ↔ ∃ f ∈ facts, factEdge f = some e := by
  have hhas := nodes_has (collectAttrs Number facts keepIds) keepIds emptyGraph
  obtain ⟨hn, he⟩ := foldl_edges (fun id hid => (hhas id).2 (.inl hid)) hfacts
  constructor
  · intro id
    rw [graphology_from_topology_facts, hn, hhas]
    simp [emptyGraph]
  · intro e
    rw [graphology_from_topology_facts, he, nodes_edges]
    simp [emptyGraph]

end

end LainLang.Datalog
