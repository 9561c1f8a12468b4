import LainLang.Tracer.Subgraph
/-!
# Collapsing accessor paths

`collapse_accessor_paths` keeps the nodes that are no accessors and joins two of
them when a path through accessors leads from one to the other. What a node is
joined to is found by a search that goes on behind accessors only.
-/
open LainLang.Lib LainLang.Js

namespace LainLang.Tracer

/-- Which nodes of a graph are collapsed. -/
abbrev IsAccessorFn := DirectedGraph → String → Bool

/-- `toText` is `String(label)` of a label that is no string. -/
def default_is_accessor (toText : Term → String) : IsAccessorFn := fun graph id =>
  let label := match (graph.nodes.get? id).map (get_attr · "label") with
    | some (.atom (.str text)) => text
    | none | some (.atom .undefined) | some (.atom .null) => ""
    | some t => toText t
  startsWith label "Core|accessor"

/-- The loop of `reach_non_accessor`. -/
def reachLoop (graph : DirectedGraph) (is_accessor : IsAccessorFn) :
    ℕ → List String → List String → List String → Run (List String)
  | 0, _, _, _ => .error .outOfFuel
  | _ + 1, [], _, result => .ok result
  | fuel + 1, id :: queue, visited, result =>
    if id ∈ visited then reachLoop graph is_accessor fuel queue visited result
    else if is_accessor graph id then
      reachLoop graph is_accessor fuel (queue ++ graph.outNeighbors id) (id :: visited) result
    else reachLoop graph is_accessor fuel queue (id :: visited) (result ++ [id])

/-- `reach_non_accessor`: the first kept nodes behind accessors. -/
def reach_non_accessor (fuel : ℕ) (graph : DirectedGraph) (source_id : String) (is_accessor : IsAccessorFn) :
    Run (List String) :=
  reachLoop graph is_accessor fuel (graph.outNeighbors source_id) [source_id] []

/-- `addEdge` of each target that is a node, unless the edge is there. -/
def addTargets (id : String) (targets : List String) (result : DirectedGraph) : DirectedGraph :=
  targets.foldl (fun result target =>
    if result.hasNode target && !result.hasEdge id target then result.addEdge id target else result) result

/-- The second `forEachNode` loop of `collapse_accessor_paths`. -/
def collapseEdges (fuel : ℕ) (graph : DirectedGraph) (is_accessor : IsAccessorFn) :
    List String → DirectedGraph → Run DirectedGraph
  | [], result => .ok result
  | id :: ids, result =>
    if is_accessor graph id then collapseEdges fuel graph is_accessor ids result
    else do
      let targets ← reach_non_accessor fuel graph id is_accessor
      collapseEdges fuel graph is_accessor ids (addTargets id targets result)

/-- `collapse_accessor_paths`: kept nodes, then their edges. -/
def collapse_accessor_paths (fuel : ℕ) (graph : DirectedGraph) (is_accessor : IsAccessorFn) : Run DirectedGraph :=
  collapseEdges fuel graph is_accessor graph.nodes.keys
    (mergeNodes (fun node => !is_accessor graph node.1) graph.nodes.entries emptyGraph)

/-! ## Paths through accessors -/

/-- `x` is at the end of a path from `u` whose inner nodes are accessors. -/
inductive Through (graph : DirectedGraph) (is_accessor : IsAccessorFn) (u : String) : String → Prop where
  | edge {x : String} (h : (u, x) ∈ graph.edges) : Through graph is_accessor u x
  | step {a x : String} (before : Through graph is_accessor u a) (accessor : is_accessor graph a = true)
      (h : (a, x) ∈ graph.edges) : Through graph is_accessor u x

theorem Through.hasNode {graph : DirectedGraph} {is_accessor : IsAccessorFn} {u x : String}
    (h : Through graph is_accessor u x) : graph.hasNode x = true := by
  cases h with
  | edge h => exact (graph.ends _ h).2
  | step _ _ h => exact (graph.ends _ h).2

/-! ## The search -/

/-- What the search goes on with: behind a node that is no accessor it stops. -/
def behind (graph : DirectedGraph) (is_accessor : IsAccessorFn) (id : String) : List String :=
  if is_accessor graph id then graph.outNeighbors id else []

/-- A node that is no accessor is a target. -/
def takeTarget (graph : DirectedGraph) (is_accessor : IsAccessorFn) (result : List String) (id : String) : List String :=
  if is_accessor graph id then result else result ++ [id]

section search
variable {graph : DirectedGraph} {is_accessor : IsAccessorFn}

theorem reachLoop_eq (n : ℕ) (queue visited result : List String) : reachLoop graph is_accessor n queue visited result =
    worklist .outOfFuel (behind graph is_accessor) (takeTarget graph is_accessor) n queue visited result := by
  induction n generalizing queue visited result with
  | zero => rfl
  | succ n ih =>
    cases queue with
    | nil => rfl
    | cons id queue =>
      rw [reachLoop, worklist, behind, takeTarget]
      split
      · exact ih _ _ _
      · split
        · exact ih _ _ _
        · rw [List.append_nil]
          exact ih _ _ _

/-- From a node that is no accessor the search explores what paths through
accessors lead to, the node itself apart. -/
theorem explored_iff_through {u x : String} (hu : is_accessor graph u = false) :
    Explored (behind graph is_accessor) (graph.outNeighbors u) [u] x ↔ Through graph is_accessor u x ∧ x ≠ u := by
  constructor
  · -- What the worklist takes up is led to through accessors.
    intro h
    induction h with
    | start queued new => exact ⟨.edge (DirectedGraph.mem_outNeighbors.1 queued), by simpa using new⟩
    | @step a x _ leads new ih =>
      unfold behind at leads
      split at leads
      · rename_i haccessor
        exact ⟨.step ih.1 haccessor (DirectedGraph.mem_outNeighbors.1 leads), by simpa using new⟩
      · cases leads
  · rintro ⟨h, hne⟩
    induction h with
    | edge h => exact .start (DirectedGraph.mem_outNeighbors.2 h) (by simpa using hne)
    | @step a x _ haccessor h ih =>
      -- The accessor on the way is not the node.
      have ha : a ≠ u := by
        rintro rfl
        rw [hu] at haccessor
        cases haccessor
      refine (ih ha).step ?_ (by simpa using hne)
      rw [behind, if_pos haccessor]
      exact DirectedGraph.mem_outNeighbors.2 h

theorem mem_foldl_takeTarget {order result : List String} {x : String} :
    x ∈ order.foldl (takeTarget graph is_accessor) result ↔
      x ∈ result ∨ x ∈ order ∧ is_accessor graph x = false := by
  induction order generalizing result with
  | nil => simp
  | cons id order ih =>
    rw [List.foldl_cons, ih, takeTarget]
    split
    · -- An accessor is not taken.
      rename_i haccessor
      constructor
      · rintro (h | ⟨h, hx⟩)
        · exact .inl h
        · exact .inr ⟨List.mem_cons_of_mem _ h, hx⟩
      · rintro (h | ⟨h, hx⟩)
        · exact .inl h
        · rcases List.mem_cons.1 h with rfl | h
          · rw [haccessor] at hx
            cases hx
          · exact .inr ⟨h, hx⟩
    · -- Any other node is.
      rename_i hnot
      have hid : is_accessor graph id = false := by simpa using hnot
      simp only [List.mem_append, List.mem_cons, List.not_mem_nil, or_false]
      constructor
      · rintro ((h | rfl) | ⟨h, hx⟩)
        · exact .inl h
        · exact .inr ⟨.inl rfl, hid⟩
        · exact .inr ⟨.inr h, hx⟩
      · rintro (h | ⟨rfl | h, hx⟩)
        · exact .inl (.inl h)
        · exact .inl (.inr rfl)
        · exact .inr ⟨h, hx⟩

theorem reach_grows (source_id : String) :
    Grows .outOfFuel (fun fuel => reach_non_accessor fuel graph source_id is_accessor) := by
  intro n m hnm
  dsimp only
  rw [reach_non_accessor, reach_non_accessor, reachLoop_eq, reachLoop_eq]
  exact @worklist_upto _ _ _ _ Stop.outOfFuel (behind graph is_accessor) (takeTarget graph is_accessor) (· = .outOfFuel) rfl
    n m hnm _ _ _

/-- The targets of a node that is no accessor. -/
theorem reach_returns {u : String} (hu : is_accessor graph u = false) :
    Returns (fun fuel => reach_non_accessor fuel graph u is_accessor)
      fun targets => ∀ x, x ∈ targets ↔ Through graph is_accessor u x ∧ x ≠ u ∧ is_accessor graph x = false := by
  have hclosed : ∀ x ∈ graph.nodes.keys, ∀ y ∈ behind graph is_accessor x, y ∈ graph.nodes.keys := by
    intro x _ y hy
    unfold behind at hy
    split at hy
    · exact outNeighbors_mem_keys hy
    · cases hy
  obtain ⟨n, result, hrun⟩ := @worklist_ends _ _ _ _ Stop.outOfFuel _ (takeTarget graph is_accessor) _ hclosed
    (graph.outNeighbors u) (fun _ h => outNeighbors_mem_keys h) [u] []
  refine .of_ok (reach_grows u) ((reachLoop_eq ..).trans hrun) fun x => ?_
  obtain ⟨order, rfl, -, horder⟩ := worklist_spec hrun
  rw [mem_foldl_takeTarget, horder, explored_iff_through hu]
  simp [and_assoc]

end search

/-! ## The edges of the collapsed graph -/

theorem addTargets_spec {id : String} {targets : List String} {result : DirectedGraph} (hid : result.hasNode id = true) :
    (addTargets id targets result).nodes = result.nodes ∧ ∀ e, e ∈ (addTargets id targets result).edges ↔
      e ∈ result.edges ∨ e.1 = id ∧ e.2 ∈ targets ∧ result.hasNode e.2 = true := by
  induction targets generalizing result with
  | nil => simp [addTargets]
  | cons target targets ih =>
    rw [addTargets, List.foldl_cons, ← addTargets]
    by_cases htarget : result.hasNode target = true
    · by_cases hedge : result.hasEdge id target = true
      · -- The edge is there already.
        rw [if_neg (by simp [hedge])]
        obtain ⟨hnodes, hedges⟩ := ih hid
        refine ⟨hnodes, fun e => ?_⟩
        have hold : e.1 = id → e.2 = target → e ∈ result.edges := by
          rintro rfl rfl
          simpa [DirectedGraph.hasEdge] using hedge
        rw [hedges, List.mem_cons]
        grind
      · -- A new edge to a node that was kept.
        rw [if_pos (by simp [hedge, htarget])]
        have hsame : ∀ x, (result.addEdge id target).hasNode x = result.hasNode x := fun x => by
          rw [DirectedGraph.hasNode, DirectedGraph.nodes_addEdge, DirectedGraph.hasNode]
        obtain ⟨hnodes, hedges⟩ := @ih (result.addEdge id target) ((hsame id).trans hid)
        refine ⟨hnodes.trans (DirectedGraph.nodes_addEdge ..), fun e => ?_⟩
        have hnew : e = (id, target) ↔ e.1 = id ∧ e.2 = target := Prod.ext_iff
        rw [hedges, DirectedGraph.mem_edges_addEdge hid htarget, hsame, List.mem_cons, hnew]
        grind
    · -- The target is no node of the result.
      rw [if_neg (by simp [htarget])]
      obtain ⟨hnodes, hedges⟩ := ih hid
      refine ⟨hnodes, fun e => ?_⟩
      have hno : e.2 = target → result.hasNode e.2 = false := by
        rintro rfl
        simpa using htarget
      rw [hedges, List.mem_cons]
      grind

theorem collapseEdges_grows (graph : DirectedGraph) (is_accessor : IsAccessorFn) (ids : List String)
    (result : DirectedGraph) : Grows .outOfFuel (fun fuel => collapseEdges fuel graph is_accessor ids result) := by
  induction ids generalizing result with
  | nil => exact .const _
  | cons id ids ih =>
    simp only [collapseEdges]
    split
    · exact ih result
    · exact (reach_grows id).bind fun targets => ih _

/-- The loop joins each node that is no accessor with its targets. -/
theorem collapseEdges_returns {graph : DirectedGraph} {is_accessor : IsAccessorFn} {ids : List String}
    {result : DirectedGraph} (hids : ∀ id ∈ ids, is_accessor graph id = false → result.hasNode id = true) :
    Returns (fun fuel => collapseEdges fuel graph is_accessor ids result) fun final =>
      final.nodes = result.nodes ∧ ∀ e, e ∈ final.edges ↔ e ∈ result.edges ∨
        (e.1 ∈ ids ∧ is_accessor graph e.1 = false) ∧ result.hasNode e.2 = true ∧
          Through graph is_accessor e.1 e.2 ∧ e.2 ≠ e.1 ∧ is_accessor graph e.2 = false := by
  induction ids generalizing result with
  | nil => exact .ok ⟨rfl, by simp⟩
  | cons id ids ih =>
    rw [List.forall_mem_cons] at hids
    simp only [collapseEdges]
    split
    · -- An accessor adds no edges.
      rename_i haccessor
      refine (ih hids.2).mono fun final hfinal => ⟨hfinal.1, fun e => ?_⟩
      have hno : e.1 = id → is_accessor graph e.1 = true := by
        rintro rfl
        exact haccessor
      rw [hfinal.2, List.mem_cons]
      grind
    · -- Any other node gets edges to what its search returns.
      rename_i hnot
      have hid : is_accessor graph id = false := by simpa using hnot
      refine .bind (reach_grows id) (fun targets => collapseEdges_grows graph is_accessor ids _) (reach_returns hid)
        fun targets htargets => ?_
      obtain ⟨hnodes, hedges⟩ := @addTargets_spec id targets result (hids.1 hid)
      have hsame : ∀ x, (addTargets id targets result).hasNode x = result.hasNode x := fun x => by
        rw [DirectedGraph.hasNode, hnodes, DirectedGraph.hasNode]
      refine (ih fun x hx hxa => (hsame x).trans (hids.2 x hx hxa)).mono fun final hfinal =>
        ⟨hfinal.1.trans hnodes, fun e => ?_⟩
      have htarget : e.1 = id → (e.2 ∈ targets ↔
          Through graph is_accessor e.1 e.2 ∧ e.2 ≠ e.1 ∧ is_accessor graph e.2 = false) := by
        intro he
        rw [he]
        exact htargets e.2
      have hid' : e.1 = id → is_accessor graph e.1 = false := fun he => he ▸ hid
      rw [hfinal.2, hedges, hsame, List.mem_cons]
      grind

/-! ## The collapsed graph -/

/-- Whether a node is an accessor depends on its id and its attributes only. -/
def ReadsNode (is_accessor : IsAccessorFn) : Prop :=
  ∃ test : String → Attributes → Bool, ∀ graph id attrs, graph.nodes.get? id = some attrs →
    is_accessor graph id = test id attrs

/-- The nodes of `sub` are those of the graph that are no accessors, and two of
them are joined when they are different and a path through accessors leads from
one to the other. -/
structure Collapsed (graph : DirectedGraph) (is_accessor : IsAccessorFn) (sub : DirectedGraph) : Prop where
  nodes : ∀ id attrs, sub.nodes.get? id = some attrs ↔
    graph.nodes.get? id = some attrs ∧ is_accessor graph id = false
  edges : ∀ u v, sub.hasNode u = true → sub.hasNode v = true → u ≠ v →
    ((u, v) ∈ sub.edges ↔ Through graph is_accessor u v)
  loopless : ∀ u, (u, u) ∉ sub.edges

/-- Two graphs with the same nodes, attributes and edges. -/
def SameGraph (graph graph' : DirectedGraph) : Prop :=
  (∀ id, graph.nodes.get? id = graph'.nodes.get? id) ∧ ∀ e, e ∈ graph.edges ↔ e ∈ graph'.edges

theorem collapse_returns (graph : DirectedGraph) (is_accessor : IsAccessorFn) :
    Returns (fun fuel => collapse_accessor_paths fuel graph is_accessor) (Collapsed graph is_accessor) := by
  have hnodes := @mergeNodes_get? (fun node => !is_accessor graph node.1) graph.nodes.entries graph.nodes.nodup emptyGraph
    (by simp [emptyGraph])
  have hget : ∀ id attrs, (mergeNodes (fun node => !is_accessor graph node.1) graph.nodes.entries emptyGraph).nodes.get? id =
      some attrs ↔ graph.nodes.get? id = some attrs ∧ is_accessor graph id = false := by
    intro id attrs
    rw [hnodes]
    simp [emptyGraph, OrdMap.mem_entries_iff]
  have hhas : ∀ id, (mergeNodes (fun node => !is_accessor graph node.1) graph.nodes.entries emptyGraph).hasNode id = true ↔
      graph.hasNode id = true ∧ is_accessor graph id = false := by
    intro id
    simp only [DirectedGraph.hasNode, OrdMap.has_iff, hget, exists_and_right]
  refine (collapseEdges_returns fun id hid hnot => (hhas id).2 ⟨?_, hnot⟩).mono fun sub hsub => ?_
  · exact (graph.nodes.has_iff_mem_keys id).2 hid
  · obtain ⟨hsame, hedges⟩ := hsub
    have hsubHas : ∀ id, sub.hasNode id = true ↔ graph.hasNode id = true ∧ is_accessor graph id = false := fun id => by
      rw [DirectedGraph.hasNode, hsame]
      exact hhas id
    refine ⟨fun id attrs => by rw [hsame, hget], fun u v hu hv hne => ?_, fun u => ?_⟩
    · rw [hsubHas] at hu hv
      have hkey := (graph.nodes.has_iff_mem_keys u).1 hu.1
      rw [hedges, mergeNodes_edges, hhas]
      simp [emptyGraph, hkey, hu.2, hv, hne.symm]
    · rw [hedges, mergeNodes_edges]
      simp [emptyGraph]

/-- A graph without accessors and without loops collapses to itself. -/
theorem collapsed_same {graph sub : DirectedGraph} {is_accessor : IsAccessorFn}
    (hnone : ∀ id, graph.hasNode id = true → is_accessor graph id = false) (hloop : ∀ u, (u, u) ∉ graph.edges)
    (h : Collapsed graph is_accessor sub) : SameGraph sub graph := by
  have hget : ∀ id, sub.nodes.get? id = graph.nodes.get? id := by
    intro id
    refine Option.ext fun attrs => ?_
    rw [h.nodes]
    exact ⟨And.left, fun hid => ⟨hid, hnone id ((OrdMap.has_iff ..).2 ⟨attrs, hid⟩)⟩⟩
  have hhas : ∀ id, sub.hasNode id = graph.hasNode id := fun id => by
    rw [DirectedGraph.hasNode, OrdMap.has, hget]
    rfl
  refine ⟨hget, fun e => ?_⟩
  obtain ⟨u, v⟩ := e
  -- Without accessors a path through them is an edge.
  have hthrough : Through graph is_accessor u v ↔ (u, v) ∈ graph.edges := by
    constructor
    · intro hpath
      cases hpath with
      | edge h => exact h
      | step before haccessor _ =>
        rw [hnone _ before.hasNode] at haccessor
        cases haccessor
    · exact .edge
  constructor
  · intro he
    obtain ⟨hu, hv⟩ := sub.ends _ he
    have hne : u ≠ v := by
      rintro rfl
      exact h.loopless u he
    exact hthrough.1 ((h.edges u v hu hv hne).1 he)
  · intro he
    obtain ⟨hu, hv⟩ := graph.ends _ he
    have hne : u ≠ v := by
      rintro rfl
      exact hloop u he
    exact (h.edges u v ((hhas u).trans hu) ((hhas v).trans hv) hne).2 (hthrough.2 he)

/-- Collapsing returns the collapsed graph, and collapsing that again changes
nothing. -/
theorem collapse_exact {is_accessor : IsAccessorFn} (hreads : ReadsNode is_accessor) (graph : DirectedGraph) :
    Returns (fun fuel => collapse_accessor_paths fuel graph is_accessor) fun sub =>
      Collapsed graph is_accessor sub ∧
        Returns (fun fuel => collapse_accessor_paths fuel sub is_accessor) fun again => SameGraph again sub := by
  obtain ⟨test, htest⟩ := hreads
  refine (collapse_returns graph is_accessor).mono fun sub hsub => ⟨hsub, ?_⟩
  have hnone : ∀ id, sub.hasNode id = true → is_accessor sub id = false := by
    intro id hid
    obtain ⟨attrs, hattrs⟩ := (OrdMap.has_iff ..).1 hid
    obtain ⟨hold, hnot⟩ := (hsub.nodes id attrs).1 hattrs
    rw [htest sub id attrs hattrs, ← htest graph id attrs hold, hnot]
  exact (collapse_returns sub is_accessor).mono fun again hagain => collapsed_same hnone hsub.loopless hagain

/-- The default reads the label. -/
theorem reads_default (toText : Term → String) : ReadsNode (default_is_accessor toText) := by
  refine ⟨fun _ attrs => default_is_accessor toText (emptyGraph.mergeNode "" attrs) "", fun graph id attrs h => ?_⟩
  have hnew : (emptyGraph.mergeNode "" attrs).nodes.get? "" = some attrs := by
    rw [DirectedGraph.get?_mergeNode_new rfl, if_pos rfl]
  simp only [default_is_accessor, h, hnew]

/-- `a -> Core|accessor -> b`. -/
def accessorChain : DirectedGraph :=
  let label : String → Attributes := fun text => [("label", .atom (.str text))]
  (((emptyGraph.mergeNode "a" (label "CELL")).mergeNode "x" (label "Core|accessor")).mergeNode "b"
    (label "CELL")).mergeEdge "a" "x" |>.mergeEdge "x" "b"

theorem collapse_exact_chain :
    Returns (fun fuel => collapse_accessor_paths fuel accessorChain (default_is_accessor fun _ => "")) fun sub =>
      Collapsed accessorChain (default_is_accessor fun _ => "") sub ∧
        Returns (fun fuel => collapse_accessor_paths fuel sub (default_is_accessor fun _ => "")) fun again =>
          SameGraph again sub :=
  collapse_exact (reads_default fun _ => "") accessorChain

end LainLang.Tracer
