import LainLang.Tracer.Signature
/-!
# Rebuilding a traced graph

A rebuild walks upstream from the root, calls `on_visit` for each cell it sees, and
writes the graph to the gatherer if its signature is not that of the last one. What a
walk drew is the upstream closure of the root, each node with the label of its cell or
propagator, unless the closure has more nodes than it may visit.
-/
open LainLang.Lib LainLang.Js

namespace LainLang.Tracer

variable {lib : CellLibrary}

/-- What a walk returns and draws, and the ids that `on_visit` was called with, in
this order. -/
structure Walk where
  truncated : Bool
  graph : DirectedGraph
  visited : List String

/-- A cell is visited where it is seen, and `seen_cells` holds the last one first. -/
def upstream_walk (fuel : ℕ) (root : lib.Cell) (max_nodes : ℤ) : Run Walk := do
  let result ← bfs_loop max_nodes fuel ⟨emptyGraph, [], [], [root], 0⟩
  return ⟨result.1, result.2.graph, result.2.seen_cells.reverse⟩

/-- The graph is written unless it has the signature of the last one. -/
def emit_if_changed (graph : DirectedGraph) (last_sig : Option String) : Option DirectedGraph × Option String :=
  let sig := graph_signature graph
  if some sig ≠ last_sig then (some graph, some sig) else (none, last_sig)

/-! ## More fuel -/

theorem bfs_loop_grows (max_nodes : ℤ) (s : Bfs lib) : Grows .outOfFuel (fun n => bfs_loop max_nodes n s) := by
  intro n m hnm
  induction n generalizing m s with
  | zero => exact .inl ⟨.outOfFuel, rfl, rfl⟩
  | succ n ih =>
    obtain ⟨k, rfl⟩ := Nat.exists_eq_add_of_le hnm
    rw [Nat.add_right_comm]
    cases hqueue : s.queue with
    | nil =>
      dsimp only
      rw [bfs_loop, bfs_loop, hqueue]
      exact .refl _
    | cons cell queue =>
      dsimp only
      rw [bfs_loop_cons n hqueue, bfs_loop_cons (n + k) hqueue]
      split
      · exact ih _ _ (Nat.le_add_right n k)
      · split
        · exact .refl _
        · split
          · exact .refl _
          · exact ih _ _ (Nat.le_add_right n k)

theorem upstream_walk_grows (root : lib.Cell) (max_nodes : ℤ) :
    Grows .outOfFuel (fun n => upstream_walk n root max_nodes) :=
  (bfs_loop_grows max_nodes _).bind fun _ => .const _

/-! ## Labels -/

/-- The label is that of the cell or the propagator with this id. -/
def LabelOf (lib : CellLibrary) (id l : String) : Prop :=
  (∃ c, lib.cell_id c = id ∧ lib.create_cell_label c = l) ∨
    ∃ p, lib.propagator_id p = id ∧ lib.create_propagator_label p = l

/-- Nodes have their labels, and what was seen is a node. -/
structure Labelled (s : Bfs lib) : Prop where
  labels : ∀ id l, s.graph.label? id = some l → LabelOf lib id l
  cells : ∀ id ∈ s.seen_cells, s.graph.hasNode id = true
  props : ∀ id ∈ s.seen_props, s.graph.hasNode id = true

theorem label?_mergeNode (g : DirectedGraph) (id l x : String) :
    (g.mergeNode id (labelAttrs l)).label? x = if x = id then some l else g.label? x := by
  rw [DirectedGraph.label?, DirectedGraph.mergeNode, OrdMap.get?_set]
  split
  · rfl
  · rfl

theorem label?_mergeEdge {g : DirectedGraph} {source target : String} (hs : g.hasNode source = true)
    (ht : g.hasNode target = true) (x : String) : (g.mergeEdge source target).label? x = g.label? x := by
  rw [DirectedGraph.label?, DirectedGraph.nodes_mergeEdge hs ht, DirectedGraph.label?]

namespace Labelled

variable {s : Bfs lib}

theorem mergeNode (h : Labelled s) {id l : String} (hl : LabelOf lib id l) :
    Labelled { s with graph := s.graph.mergeNode id (labelAttrs l) } where
  labels := by
    intro x k hk
    rw [label?_mergeNode] at hk
    split at hk
    · rename_i hx
      subst hx
      obtain rfl := Option.some.inj hk
      exact hl
    · exact h.labels x k hk
  cells := fun x hx => hasNode_mergeNode_of id _ (h.cells x hx)
  props := fun x hx => hasNode_mergeNode_of id _ (h.props x hx)

theorem mergeEdge (h : Labelled s) {source target : String} (hs : s.graph.hasNode source = true)
    (ht : s.graph.hasNode target = true) : Labelled { s with graph := s.graph.mergeEdge source target } where
  labels := fun x k hk => h.labels x k (label?_mergeEdge hs ht x ▸ hk)
  cells := fun x hx => hasNode_mergeEdge_of source target (h.cells x hx)
  props := fun x hx => hasNode_mergeEdge_of source target (h.props x hx)

/-- Something that is a node is seen. -/
theorem see_cell (h : Labelled s) {id : String} (hid : s.graph.hasNode id = true) (nodes : ℕ) :
    Labelled { s with seen_cells := id :: s.seen_cells, nodes } :=
  { h with cells := List.forall_mem_cons.2 ⟨hid, h.cells⟩ }

theorem see_prop (h : Labelled s) {id : String} (hid : s.graph.hasNode id = true) (nodes : ℕ) :
    Labelled { s with seen_props := id :: s.seen_props, nodes } :=
  { h with props := List.forall_mem_cons.2 ⟨hid, h.props⟩ }

theorem merge_input (h : Labelled s) {pid : String} (hpid : pid ∈ s.seen_props) (input : lib.Cell) :
    Labelled (merge_input pid s input) := by
  have hnode := h.mergeNode (.inl ⟨input, rfl, rfl⟩)
  have hinput : (s.graph.mergeNode (lib.cell_id input) (labelAttrs (lib.create_cell_label input))).hasNode
      (lib.cell_id input) = true := by simp [DirectedGraph.hasNode_mergeNode]
  have hedge := hnode.mergeEdge hinput (hnode.props pid hpid)
  exact ⟨hedge.labels, hedge.cells, hedge.props⟩

theorem merge_inputs (h : Labelled s) (prop : lib.Propagator) (hseen : lib.propagator_id prop ∈ s.seen_props) :
    Labelled (merge_inputs prop s) := by
  suffices hall : ∀ inputs : List lib.Cell, ∀ s : Bfs lib, Labelled s → lib.propagator_id prop ∈ s.seen_props →
      Labelled (inputs.foldl (Tracer.merge_input (lib.propagator_id prop)) s) from hall _ s h hseen
  intro inputs
  induction inputs with
  | nil => exact fun s h _ => h
  | cons input inputs ih => exact fun s h hseen => ih _ (h.merge_input hseen input) hseen

/-- Merging the inputs of a propagator sees no cell. -/
theorem seen_cells_merge_inputs (prop : lib.Propagator) (s : Bfs lib) :
    (Tracer.merge_inputs prop s).seen_cells = s.seen_cells := by
  rw [Tracer.merge_inputs]
  induction lib.propagator_inputs prop generalizing s with
  | nil => rfl
  | cons input inputs ih => exact ih _

theorem visit_dependents (h : Labelled s) (max_nodes : ℤ) {cid : String} (hcid : cid ∈ s.seen_cells)
    (props : List lib.Propagator) : Labelled (visit_dependents max_nodes cid props s).2 := by
  induction props generalizing s with
  | nil => exact h
  | cons prop props ih =>
    rw [Tracer.visit_dependents]
    split
    · exact ih h hcid
    · dsimp only
      split
      · rename_i hseen
        have hedge := h.mergeEdge (h.props _ hseen) (h.cells cid hcid)
        exact ih (hedge.merge_inputs prop hseen) (by rw [seen_cells_merge_inputs]; exact hcid)
      · split
        · exact h
        · have hnode := h.mergeNode (.inr ⟨prop, rfl, rfl⟩)
          have hpid : (s.graph.mergeNode (lib.propagator_id prop) (labelAttrs (lib.create_propagator_label prop))).hasNode
              (lib.propagator_id prop) = true := by simp [DirectedGraph.hasNode_mergeNode]
          have hedge := hnode.mergeEdge hpid (hnode.cells cid hcid)
          have hprop := hedge.see_prop (hasNode_mergeEdge_of _ _ hpid) (s.nodes + 1)
          exact ih (hprop.merge_inputs prop List.mem_cons_self) (by rw [seen_cells_merge_inputs]; exact hcid)

theorem visit_cell (h : Labelled s) (max_nodes : ℤ) (cell : lib.Cell) : Labelled (visit_cell max_nodes cell s).2 := by
  have hnode := h.mergeNode (.inl ⟨cell, rfl, rfl⟩)
  have hcid : (s.graph.mergeNode (lib.cell_id cell) (labelAttrs (lib.create_cell_label cell))).hasNode
      (lib.cell_id cell) = true := by simp [DirectedGraph.hasNode_mergeNode]
  have hcell := hnode.see_cell hcid (s.nodes + 1)
  exact hcell.visit_dependents max_nodes List.mem_cons_self _

theorem withQueue (h : Labelled s) (queue : List lib.Cell) : Labelled { s with queue } := ⟨h.labels, h.cells, h.props⟩

theorem bfs_loop {max_nodes : ℤ} {fuel : ℕ} (h : Labelled s) {r : Bool × Bfs lib}
    (hr : bfs_loop max_nodes fuel s = .ok r) : Labelled r.2 := by
  induction fuel generalizing s with
  | zero => cases hr
  | succ fuel ih =>
    cases hqueue : s.queue with
    | nil =>
      rw [Tracer.bfs_loop, hqueue] at hr
      obtain rfl := Except.ok.inj hr
      exact h
    | cons cell queue =>
      have hvisited := (h.withQueue queue).visit_cell max_nodes cell
      rw [bfs_loop_cons fuel hqueue] at hr
      split at hr
      · exact ih (h.withQueue queue) hr
      · split at hr
        · obtain rfl := Except.ok.inj hr
          exact h.withQueue queue
        · split at hr
          · obtain rfl := Except.ok.inj hr
            exact hvisited
          · exact ih hvisited hr

end Labelled

theorem Labelled.start (root : lib.Cell) : Labelled (⟨emptyGraph, [], [], [root], 0⟩ : Bfs lib) where
  labels := fun id l hl => by simp [DirectedGraph.label?, emptyGraph] at hl
  cells := fun id hid => absurd hid List.not_mem_nil
  props := fun id hid => absurd hid List.not_mem_nil

/-! ## What a walk draws -/

/-- The walk drew cells and propagators upstream of the root, with their labels, and
all of them unless it was truncated. -/
structure Drawn (root : lib.Cell) (max_nodes : ℤ) (w : Walk) : Prop where
  truncated : w.truncated = true ↔ max_nodes < upstreamSize root
  nodes : ∀ id, w.graph.hasNode id = true → UpstreamId root id
  edges : ∀ e ∈ w.graph.edges, UpstreamEdge root e
  labels : ∀ id l, w.graph.label? id = some l → LabelOf lib id l
  visited : ∀ id ∈ w.visited, ∃ c, UpstreamCell root c ∧ lib.cell_id c = id
  nodup : w.visited.Nodup
  all_nodes : w.truncated = false → ∀ id, UpstreamId root id → w.graph.hasNode id = true
  all_edges : w.truncated = false → ∀ e, UpstreamEdge root e → e ∈ w.graph.edges
  all_visited : w.truncated = false → ∀ c, UpstreamCell root c → lib.cell_id c ∈ w.visited

theorem upstream_walk_returns (hlib : lib.Lawful) (root : lib.Cell) (max_nodes : ℤ) :
    Returns (fun fuel => upstream_walk fuel root max_nodes) (Drawn root max_nodes) := by
  have hstart := Walking.start root max_nodes
  obtain ⟨fuel, r, hr⟩ := bfs_loop_ends hlib hstart
  have hwalk : upstream_walk fuel root max_nodes = .ok ⟨r.1, r.2.graph, r.2.seen_cells.reverse⟩ := by
    rw [upstream_walk, hr]
    rfl
  refine .of_ok (upstream_walk_grows root max_nodes) hwalk ?_
  obtain ⟨hdone, hcut⟩ := bfs_loop_spec hlib hstart hr
  have hlabelled := (Labelled.start root).bfs_loop hr
  -- Cut off or not, what was seen and merged is of the closure.
  have hsound : Sound root r.2 := by
    cases htruncated : r.1 with
    | true => exact (hcut htruncated).1
    | false => exact (hdone htruncated).1.sound
  have hsize : r.1 = true ↔ max_nodes < upstreamSize root := by
    cases htruncated : r.1 with
    | true => exact iff_of_true rfl ((hcut htruncated).2.lt_size hlib hsound)
    | false =>
      have hle := (hdone htruncated).1.size_le hlib (hdone htruncated).2
      exact iff_of_false Bool.false_ne_true (by omega)
  have hexact : r.1 = false → (∀ id, r.2.graph.hasNode id = true ↔ UpstreamId root id) ∧
      ∀ e, e ∈ r.2.graph.edges ↔ UpstreamEdge root e :=
    fun hfalse => (hdone hfalse).1.graph_exact hlib (hdone hfalse).2
  exact {
    truncated := hsize
    nodes := hsound.nodes
    edges := hsound.edges
    labels := hlabelled.labels
    visited := fun id hid => (hsound.cells id (List.mem_reverse.1 hid)).2
    nodup := List.nodup_reverse.2 hsound.nodup_cells
    all_nodes := fun hfalse id hid => ((hexact hfalse).1 id).2 hid
    all_edges := fun hfalse e he => ((hexact hfalse).2 e).2 he
    all_visited := fun hfalse c hc => List.mem_reverse.2 ((hdone hfalse).1.cells_seen (hdone hfalse).2 hc) }

end LainLang.Tracer
