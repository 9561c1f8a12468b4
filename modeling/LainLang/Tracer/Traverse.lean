import LainLang.Tracer.Subgraph
/-!
# Tracing a network

A trace walks a network from a root cell and merges what it meets into a graph.
`trace_once` merges into an empty graph. `trace` taps the cells it visits, runs
again when one of them changes, and merges into the graph of the run before.
-/
open LainLang.Lib LainLang.Js

namespace LainLang.Tracer

/-! ## Nodes -/

/-- What `node_attrs` reads of a cell or a propagator. `value` is the text of the
strongest base value, unless that is undefined, null or nothing. -/
structure Item where
  is_cell : Bool
  is_propagator : Bool
  name : String
  level : JsNumber
  value : Option String

/-- The name of a cell or propagator. -/
def create_label (item : Item) : String :=
  if item.is_cell then item.name
  else if item.is_propagator then item.name
  else "unknown"

/-- `label.split("|")[0]`. -/
def firstSegment (label : String) : String := String.ofList (label.toList.takeWhile (· ≠ '|'))

def node_attrs (item : Item) : Attributes :=
  let label := create_label item
  let attrs := [("label", .str label), ("kind", .str (if item.is_cell then "cell" else "propagator")),
    ("namespace", .str (firstSegment label)), ("relationLevel", .atom (.num item.level))]
  if item.is_cell then attrs ++ (item.value.map fun value => ("value", Term.str value)).toList else attrs

/-! ## The network -/

/-- What a trace needs of the network and its propagators. `walk_nodes` is the
direction of the trace, and `p_tap` adds a propagator that watches a cell. -/
structure PropagatorLibrary (Net : Type) where
  items : Net → List String
  item : Net → String → Item
  walk_nodes : Net → String → List String
  p_tap : Net → String → Net

variable {Net : Type}

def PropagatorLibrary.is_cell (lib : PropagatorLibrary Net) (net : Net) (x : String) : Bool := (lib.item net x).is_cell

/-- A network is closed, and a tap is one propagator more that only the tapped
cell may lead to. -/
structure Lawful (lib : PropagatorLibrary Net) : Prop where
  closed : ∀ net x y, x ∈ lib.items net → y ∈ lib.walk_nodes net x → y ∈ lib.items net
  tap_keeps : ∀ net x y, y ∈ lib.items net → y ∈ lib.items (lib.p_tap net x)
  tap_cells : ∀ net x y, y ∈ lib.items (lib.p_tap net x) → lib.is_cell (lib.p_tap net x) y = true → y ∈ lib.items net
  tap_same : ∀ net x y, y ∈ lib.items net → lib.is_cell (lib.p_tap net x) y = lib.is_cell net y
  tap_other : ∀ net x y, y ∈ lib.items net → y ≠ x → lib.walk_nodes (lib.p_tap net x) y = lib.walk_nodes net y
  tap_self : ∀ net x y, y ∈ lib.walk_nodes net x → y ∈ lib.walk_nodes (lib.p_tap net x) x

/-! ## The trace -/

/-- The state of a trace: the network, the ids in `tapped` of `tap_cell_step` and in
`seen` of `cyclic_prevention_walk`, and the graph. -/
structure Tracing (Net : Type) where
  net : Net
  tapped : List String
  seen : List String
  graph : DirectedGraph

/-- The loop of `traverse`. -/
def traverse (walk : Tracing Net → String → List String × Tracing Net) (step : Tracing Net → String → Tracing Net) :
    ℕ → List String → Tracing Net → Run (Tracing Net)
  | 0, _, _ => .error .outOfFuel
  | _ + 1, [], state => .ok state
  | fuel + 1, x :: queue, state =>
    let (next, state) := walk (step state x) x
    traverse walk step fuel (queue ++ next) state

section trace
variable (lib : PropagatorLibrary Net)

/-- `cyclic_prevention_walk`: what was seen leads nowhere. -/
def cyclic_prevention_walk (s : Tracing Net) (x : String) : List String × Tracing Net :=
  if x ∈ s.seen then ([], s) else (lib.walk_nodes s.net x, { s with seen := x :: s.seen })

/-- `graph_step`: the item, and an edge to each item the walk goes to. -/
def graph_step (s : Tracing Net) (x : String) : Tracing Net :=
  let attrs := fun y => node_attrs (lib.item s.net y)
  { s with
    graph := (lib.walk_nodes s.net x).foldl (fun graph dependent =>
      (graph.mergeNode dependent (attrs dependent)).mergeEdge x dependent) (s.graph.mergeNode x (attrs x)) }

/-- `on_visit` of a cell that was not visited before. -/
def tapCell (s : Tracing Net) (x : String) : Tracing Net :=
  if lib.is_cell s.net x && x ∉ s.tapped then { s with net := lib.p_tap s.net x, tapped := x :: s.tapped } else s

/-- `tap_cell_step`: a tap before the step. -/
def tap_cell_step (step : Tracing Net → String → Tracing Net) (s : Tracing Net) (x : String) : Tracing Net :=
  step (tapCell lib s x) x

/-- A run of `trace`. It goes on with the graph and the taps of the last one.
`schedule` is never entered while it is active. -/
def schedule (root : String) (fuel : ℕ) (s : Tracing Net) : Run (Tracing Net) :=
  traverse (cyclic_prevention_walk lib) (tap_cell_step lib (graph_step lib)) fuel [root] { s with seen := [] }

/-- `trace_once`: a new seen set and a new graph. -/
def trace_once (root : String) (fuel : ℕ) (net : Net) : Run DirectedGraph := do
  let s ← traverse (cyclic_prevention_walk lib) (graph_step lib) fuel [root] ⟨net, [], [], emptyGraph⟩
  return s.graph

/-- What a walk from the root meets. -/
inductive Met (root : String) (net : Net) : String → Prop where
  | root : Met root net root
  | step {x y : String} (before : Met root net x) (leads : y ∈ lib.walk_nodes net x) : Met root net y

/-- A history of a trace, with the networks that its runs left behind. A change
puts any network in place of the one before that still has the root. -/
inductive TraceRun (root : String) : List Net → Tracing Net → Prop where
  | start (net : Net) (hroot : root ∈ lib.items net) : TraceRun root [] ⟨net, [], [], emptyGraph⟩
  | change {past : List Net} {s : Tracing Net} (before : TraceRun root past s) (net : Net)
      (hroot : root ∈ lib.items net) : TraceRun root past { s with net := net }
  | rerun {past : List Net} {s s' : Tracing Net} (before : TraceRun root past s) {fuel : ℕ}
      (run : schedule lib root fuel s = .ok s') : TraceRun root (s'.net :: past) s'

/-- Every link that an earlier run followed is there. -/
def Kept (root : String) (past : List Net) (net : Net) : Prop :=
  ∀ old ∈ past, ∀ x y, Met lib root old x → y ∈ lib.walk_nodes old x → y ∈ lib.walk_nodes net x

end trace

/-- Two graphs with the same nodes and edges. -/
def SameShape (graph graph' : DirectedGraph) : Prop :=
  (∀ id, graph.hasNode id = true ↔ graph'.hasNode id = true) ∧ ∀ e, e ∈ graph.edges ↔ e ∈ graph'.edges

/-- The next run returns a graph of the shape that `trace_once` returns on the
network it leaves behind. -/
def RetraceAgrees (lib : PropagatorLibrary Net) (root : String) (s : Tracing Net) : Prop :=
  Returns (fun fuel => schedule lib root fuel s) fun s' =>
    Returns (fun fuel => trace_once lib root fuel s'.net) fun once => SameShape s'.graph once

/-! ## One step -/

section step
variable (lib : PropagatorLibrary Net)

/-- Both traces take the same step, once the cell is tapped or not. -/
def prepare (taps : Bool) (s : Tracing Net) (x : String) : Tracing Net := bif taps then tapCell lib s x else s

/-- Nothing more is prepared at `x`. -/
def Ready (taps : Bool) (s : Tracing Net) (x : String) : Prop :=
  taps = true → lib.is_cell s.net x = true → x ∈ s.tapped

variable {lib} {taps : Bool} {s : Tracing Net} {x y : String}

theorem prepare_seen : (prepare lib taps s x).seen = s.seen := by
  cases taps with
  | false => rfl
  | true =>
    rw [prepare, cond_true, tapCell]
    split <;> rfl

theorem prepare_graph : (prepare lib taps s x).graph = s.graph := by
  cases taps with
  | false => rfl
  | true =>
    rw [prepare, cond_true, tapCell]
    split <;> rfl

/-- A tap is added or nothing happens. -/
theorem prepare_cases (taps : Bool) (s : Tracing Net) (x : String) : prepare lib taps s x = s ∧ Ready lib taps s x ∨
    (taps = true ∧ lib.is_cell s.net x = true ∧ x ∉ s.tapped) ∧
      prepare lib taps s x = { s with net := lib.p_tap s.net x, tapped := x :: s.tapped } := by
  cases taps with
  | false => exact .inl ⟨rfl, fun h => by simp at h⟩
  | true =>
    rw [prepare, cond_true, tapCell]
    split
    · rename_i h
      simp only [Bool.and_eq_true, decide_eq_true_eq] at h
      exact .inr ⟨⟨rfl, h⟩, rfl⟩
    · rename_i h
      refine .inl ⟨rfl, fun _ hcell => ?_⟩
      simpa [hcell] using h

theorem prepare_ready (h : Ready lib taps s x) : prepare lib taps s x = s := by
  rcases prepare_cases taps s x with ⟨hsame, -⟩ | ⟨⟨htaps, hcell, hnew⟩, -⟩
  · exact hsame
  · exact absurd (h htaps hcell) hnew

theorem ready_prepare : Ready lib taps (prepare lib taps s x) x := by
  rcases prepare_cases taps s x with ⟨hsame, hready⟩ | ⟨-, hsame⟩
  · rwa [hsame]
  · rw [hsame]
    exact fun _ _ => List.mem_cons_self

variable (hlib : Lawful lib)
include hlib

theorem prepare_items (hy : y ∈ lib.items s.net) : y ∈ lib.items (prepare lib taps s x).net := by
  rcases prepare_cases taps s x with ⟨hsame, -⟩ | ⟨-, hsame⟩
  · rwa [hsame]
  · rw [hsame]
    exact hlib.tap_keeps _ _ _ hy

theorem prepare_walk_other (hy : y ∈ lib.items s.net) (hne : y ≠ x) :
    lib.walk_nodes (prepare lib taps s x).net y = lib.walk_nodes s.net y := by
  rcases prepare_cases taps s x with ⟨hsame, -⟩ | ⟨-, hsame⟩
  · rw [hsame]
  · rw [hsame]
    exact hlib.tap_other _ _ _ hy hne

theorem prepare_walk_self {z : String} (hz : z ∈ lib.walk_nodes s.net x) :
    z ∈ lib.walk_nodes (prepare lib taps s x).net x := by
  rcases prepare_cases taps s x with ⟨hsame, -⟩ | ⟨-, hsame⟩
  · rwa [hsame]
  · rw [hsame]
    exact hlib.tap_self _ _ _ hz

theorem ready_prepare_other (hy : y ∈ lib.items s.net) (h : Ready lib taps s y) :
    Ready lib taps (prepare lib taps s x) y := by
  rcases prepare_cases taps s x with ⟨hsame, -⟩ | ⟨-, hsame⟩
  · rwa [hsame]
  · rw [hsame]
    intro htaps hcell
    rw [hlib.tap_same _ _ _ hy] at hcell
    exact List.mem_cons_of_mem _ (h htaps hcell)

theorem met_items {root : String} {net : Net} (hroot : root ∈ lib.items net) (h : Met lib root net x) :
    x ∈ lib.items net := by
  induction h with
  | root => exact hroot
  | step _ leads ih => exact hlib.closed _ _ _ ih leads

/-- Tapping loses nothing that is met. -/
theorem met_prepare {root : String} (hroot : root ∈ lib.items s.net) (h : Met lib root s.net y) :
    Met lib root (prepare lib taps s x).net y := by
  induction h with
  | root => exact .root
  | @step y z before leads ih =>
    refine ih.step ?_
    by_cases hyx : y = x
    · subst hyx
      exact prepare_walk_self hlib leads
    · rwa [prepare_walk_other hlib (met_items hlib hroot before) hyx]

end step

/-- Merging the dependents of a node adds them and the edges to them. -/
theorem mergeDependents_spec (attrs : String → Attributes) (x : String) (dependents : List String)
    {graph : DirectedGraph} (hx : graph.hasNode x = true) :
    let result := dependents.foldl (fun graph dependent =>
      (graph.mergeNode dependent (attrs dependent)).mergeEdge x dependent) graph
    (∀ id, result.hasNode id = true ↔ graph.hasNode id = true ∨ id ∈ dependents) ∧
      ∀ e, e ∈ result.edges ↔ e ∈ graph.edges ∨ e.1 = x ∧ e.2 ∈ dependents := by
  induction dependents generalizing graph with
  | nil => simp
  | cons dependent dependents ih =>
    have hmerged : ∀ id, (graph.mergeNode dependent (attrs dependent)).hasNode id = true ↔
        id = dependent ∨ graph.hasNode id = true := by
      intro id
      rw [DirectedGraph.hasNode_mergeNode]
      simp
    -- The edge comes after its end, so it adds no node.
    have hsame := DirectedGraph.nodes_mergeEdge ((hmerged x).2 (.inr hx)) ((hmerged dependent).2 (.inl rfl))
    have hnode : ∀ id, ((graph.mergeNode dependent (attrs dependent)).mergeEdge x dependent).hasNode id = true ↔
        id = dependent ∨ graph.hasNode id = true := by
      intro id
      rw [DirectedGraph.hasNode, hsame]
      exact hmerged id
    obtain ⟨hnodes, hedges⟩ := ih ((hnode x).2 (.inr hx))
    refine ⟨fun id => ?_, fun e => ?_⟩
    · rw [List.foldl_cons, hnodes, hnode, List.mem_cons]
      tauto
    · have hedge : e = (x, dependent) ↔ e.1 = x ∧ e.2 = dependent := Prod.ext_iff
      have hold : e ∈ (graph.mergeNode dependent (attrs dependent)).edges ↔ e ∈ graph.edges := Iff.rfl
      rw [List.foldl_cons, hedges, DirectedGraph.mem_edges_mergeEdge, hold, hedge, List.mem_cons]
      tauto

theorem graph_step_spec (lib : PropagatorLibrary Net) (s : Tracing Net) (x : String) :
    (∀ id, (graph_step lib s x).graph.hasNode id = true ↔
      s.graph.hasNode id = true ∨ id = x ∨ id ∈ lib.walk_nodes s.net x) ∧
    ∀ e, e ∈ (graph_step lib s x).graph.edges ↔ e ∈ s.graph.edges ∨ e.1 = x ∧ e.2 ∈ lib.walk_nodes s.net x := by
  have hmerged : ∀ attrs id, (s.graph.mergeNode x attrs).hasNode id = true ↔ id = x ∨ s.graph.hasNode id = true := by
    intro attrs id
    rw [DirectedGraph.hasNode_mergeNode]
    simp
  obtain ⟨hnodes, hedges⟩ := mergeDependents_spec (fun y => node_attrs (lib.item s.net y)) x
    (lib.walk_nodes s.net x) ((hmerged (node_attrs (lib.item s.net x)) x).2 (.inl rfl))
  refine ⟨fun id => ?_, fun e => hedges e⟩
  refine (hnodes id).trans ?_
  rw [hmerged]
  tauto

/-! ## The loop -/

/-- What holds between two turns of a trace that started with the network `net0`
and the graph `start`. -/
structure Underway (lib : PropagatorLibrary Net) (taps : Bool) (root : String) (net0 : Net) (start : DirectedGraph)
    (queue : List String) (s : Tracing Net) : Prop where
  still : taps = false → s.net = net0
  rooted : root ∈ lib.items s.net
  begun : root ∈ s.seen ∨ root ∈ queue
  met : ∀ x, x ∈ s.seen ∨ x ∈ queue → Met lib root s.net x
  closed : ∀ x ∈ s.seen, ∀ y ∈ lib.walk_nodes s.net x, y ∈ s.seen ∨ y ∈ queue
  ready : ∀ x ∈ s.seen, Ready lib taps s x
  nodes : ∀ id, s.graph.hasNode id = true ↔
    start.hasNode id = true ∨ id ∈ s.seen ∨ ∃ x ∈ s.seen, id ∈ lib.walk_nodes s.net x
  edges : ∀ e, e ∈ s.graph.edges ↔ e ∈ start.edges ∨ e.1 ∈ s.seen ∧ e.2 ∈ lib.walk_nodes s.net e.1

/-- A turn of the loop at `x`. -/
def turn (lib : PropagatorLibrary Net) (taps : Bool) (s : Tracing Net) (x : String) : List String × Tracing Net :=
  cyclic_prevention_walk lib (graph_step lib (prepare lib taps s x) x) x

section turn
variable {lib : PropagatorLibrary Net} {taps : Bool} {root : String} {net0 : Net} {start : DirectedGraph}
  {queue : List String} {s : Tracing Net} {x : String}

/-- A turn at an item that was seen changes nothing. -/
theorem Underway.seen (h : Underway lib taps root net0 start (x :: queue) s) (hx : x ∈ s.seen) :
    (turn lib taps s x).1 = [] ∧ Underway lib taps root net0 start queue (turn lib taps s x).2 := by
  -- What was seen needs no tap any more.
  have hsame := prepare_ready (h.ready x hx)
  have hturn : turn lib taps s x = ([], graph_step lib s x) := by
    rw [turn, hsame, cyclic_prevention_walk]
    exact if_pos hx
  obtain ⟨hnodes, hedges⟩ := graph_step_spec lib s x
  have hqueue : ∀ y, y ∈ s.seen ∨ y ∈ x :: queue → y ∈ s.seen ∨ y ∈ queue := by
    rintro y (hy | hy)
    · exact .inl hy
    · rcases List.mem_cons.1 hy with rfl | hy
      · exact .inl hx
      · exact .inr hy
  rw [hturn]
  refine ⟨rfl, h.still, h.rooted, hqueue root h.begun, fun y hy => h.met y ?_, fun y hy z hz => hqueue z (h.closed y hy z hz),
    h.ready, fun id => ?_, fun e => ?_⟩
  · exact hy.imp_right (List.mem_cons_of_mem x)
  · refine (hnodes id).trans ?_
    rw [h.nodes]
    constructor
    · rintro (hid | rfl | hid)
      · exact hid
      · exact .inr (.inl hx)
      · exact .inr (.inr ⟨x, hx, hid⟩)
    · exact .inl
  · refine (hedges e).trans ?_
    rw [h.edges]
    constructor
    · rintro (he | ⟨rfl, he⟩)
      · exact he
      · exact .inr ⟨hx, he⟩
    · exact .inl

/-- A turn at a new item goes on with its walk. -/
theorem turn_new (hx : x ∉ s.seen) : turn lib taps s x = (lib.walk_nodes (prepare lib taps s x).net x,
    ⟨(prepare lib taps s x).net, (prepare lib taps s x).tapped, x :: s.seen,
      (graph_step lib (prepare lib taps s x) x).graph⟩) := by
  have hseen : (graph_step lib (prepare lib taps s x) x).seen = s.seen := prepare_seen
  rw [turn, cyclic_prevention_walk, hseen, if_neg hx]
  rfl

variable (hlib : Lawful lib)
include hlib

/-- A tap at a new item does not touch the walk of what was seen. -/
theorem Underway.walk_seen (h : Underway lib taps root net0 start (x :: queue) s) (hx : x ∉ s.seen) {y : String}
    (hy : y ∈ s.seen) : lib.walk_nodes (prepare lib taps s x).net y = lib.walk_nodes s.net y := by
  refine prepare_walk_other hlib (met_items hlib h.rooted (h.met y (.inl hy))) ?_
  rintro rfl
  exact hx hy

/-- The item and its links come into the graph. -/
theorem Underway.new_graph (h : Underway lib taps root net0 start (x :: queue) s) (hx : x ∉ s.seen) :
    (∀ id, (graph_step lib (prepare lib taps s x) x).graph.hasNode id = true ↔ start.hasNode id = true ∨
      id ∈ x :: s.seen ∨ ∃ y ∈ x :: s.seen, id ∈ lib.walk_nodes (prepare lib taps s x).net y) ∧
    ∀ e, e ∈ (graph_step lib (prepare lib taps s x) x).graph.edges ↔
      e ∈ start.edges ∨ e.1 ∈ x :: s.seen ∧ e.2 ∈ lib.walk_nodes (prepare lib taps s x).net e.1 := by
  obtain ⟨hnodes, hedges⟩ := graph_step_spec lib (prepare lib taps s x) x
  constructor
  · intro id
    refine (hnodes id).trans ?_
    have hexists : (∃ y ∈ s.seen, id ∈ lib.walk_nodes (prepare lib taps s x).net y) ↔
        ∃ y ∈ s.seen, id ∈ lib.walk_nodes s.net y := by
      refine exists_congr fun y => and_congr_right fun hy => ?_
      rw [h.walk_seen hlib hx hy]
    simp only [prepare_graph, h.nodes, List.mem_cons, exists_eq_or_imp, hexists]
    simp only [or_assoc, or_comm, or_left_comm]
  · intro e
    refine (hedges e).trans ?_
    simp only [prepare_graph, h.edges, List.mem_cons]
    by_cases hex : e.1 = x
    · rw [hex]
      simp [hx]
    · simp only [hex, false_and, or_false, false_or]
      refine or_congr_right (and_congr_right fun he => ?_)
      rw [h.walk_seen hlib hx he]

/-- A turn at a new item puts it and its links into the graph. -/
theorem Underway.new (h : Underway lib taps root net0 start (x :: queue) s) (hx : x ∉ s.seen) :
    Underway lib taps root net0 start (queue ++ (turn lib taps s x).1) (turn lib taps s x).2 := by
  have hmet := h.met x (.inr List.mem_cons_self)
  -- What was waiting still is, apart from `x`, which is seen now.
  have hold : ∀ y, y ∈ s.seen ∨ y ∈ x :: queue →
      y ∈ x :: s.seen ∨ y ∈ queue ++ lib.walk_nodes (prepare lib taps s x).net x := by
    rintro y (hy | hy)
    · exact .inl (List.mem_cons_of_mem _ hy)
    · rcases List.mem_cons.1 hy with rfl | hy
      · exact .inl List.mem_cons_self
      · exact .inr (List.mem_append_left _ hy)
  obtain ⟨hnodes, hedges⟩ := h.new_graph hlib hx
  rw [turn_new hx]
  refine ⟨fun htaps => ?_, prepare_items hlib h.rooted, hold root h.begun, fun y hy => ?_, fun y hy z hz => ?_,
    fun y hy => ?_, hnodes, hedges⟩
  · subst htaps
    exact h.still rfl
  · -- Everything met is met in the network with the tap.
    rcases hy with hy | hy
    · -- What the new item leads to is put into the queue.
      rcases List.mem_cons.1 hy with rfl | hy
      · exact met_prepare hlib h.rooted hmet
      · exact met_prepare hlib h.rooted (h.met y (.inl hy))
    · rcases List.mem_append.1 hy with hy | hy
      · exact met_prepare hlib h.rooted (h.met y (.inr (List.mem_cons_of_mem _ hy)))
      · exact (met_prepare hlib h.rooted hmet).step hy
  · rcases List.mem_cons.1 hy with rfl | hy
    · exact .inr (List.mem_append_right _ hz)
    · have hz' : z ∈ lib.walk_nodes s.net y := by
        rw [← h.walk_seen hlib hx hy]
        exact hz
      exact hold z (h.closed y hy z hz')
  · rcases List.mem_cons.1 hy with rfl | hy
    · exact ready_prepare
    · exact ready_prepare_other hlib (met_items hlib h.rooted (h.met y (.inl hy))) (h.ready y hy)

theorem Underway.turn (h : Underway lib taps root net0 start (x :: queue) s) :
    Underway lib taps root net0 start (queue ++ (turn lib taps s x).1) (turn lib taps s x).2 := by
  by_cases hx : x ∈ s.seen
  · obtain ⟨hnext, hunderway⟩ := h.seen hx
    rwa [hnext, List.append_nil]
  · exact h.new hlib hx

end turn

/-! ## The traversal -/

/-- The traversal of both traces. -/
def traversal (lib : PropagatorLibrary Net) (taps : Bool) : ℕ → List String → Tracing Net → Run (Tracing Net) :=
  traverse (cyclic_prevention_walk lib) fun s x => graph_step lib (prepare lib taps s x) x

theorem schedule_eq (lib : PropagatorLibrary Net) (root : String) (fuel : ℕ) (s : Tracing Net) :
    schedule lib root fuel s = traversal lib true fuel [root] { s with seen := [] } := rfl

theorem trace_once_eq (lib : PropagatorLibrary Net) (root : String) (fuel : ℕ) (net : Net) :
    trace_once lib root fuel net =
      (traversal lib false fuel [root] ⟨net, [], [], emptyGraph⟩ >>= fun s => .ok s.graph) := rfl

theorem traversal_cons (lib : PropagatorLibrary Net) (taps : Bool) (n : ℕ) (x : String) (queue : List String)
    (s : Tracing Net) : traversal lib taps (n + 1) (x :: queue) s =
      traversal lib taps n (queue ++ (turn lib taps s x).1) (turn lib taps s x).2 := rfl

theorem traversal_upto (lib : PropagatorLibrary Net) (taps : Bool) {n m : ℕ} (hnm : n ≤ m) (queue : List String)
    (s : Tracing Net) : Upto (· = .outOfFuel) (traversal lib taps n queue s) (traversal lib taps m queue s) := by
  induction n generalizing m queue s with
  | zero => exact .inl ⟨_, rfl, rfl⟩
  | succ n ih =>
    obtain ⟨m, rfl⟩ := Nat.exists_eq_add_one.2 (by omega : 0 < m)
    cases queue with
    | nil => exact .refl _
    | cons x queue =>
      rw [traversal_cons, traversal_cons]
      exact ih (by omega) _ _

section traversal
variable {lib : PropagatorLibrary Net} (hlib : Lawful lib) {taps : Bool} {root : String} {net0 : Net}
  {start : DirectedGraph} {queue : List String} {s : Tracing Net}
include hlib

theorem traversal_underway {n : ℕ} {s' : Tracing Net} (h : Underway lib taps root net0 start queue s)
    (hrun : traversal lib taps n queue s = .ok s') : Underway lib taps root net0 start [] s' := by
  induction n generalizing queue s with
  | zero => cases hrun
  | succ n ih =>
    cases queue with
    | nil =>
      cases hrun
      exact h
    | cons x queue =>
      rw [traversal_cons] at hrun
      exact ih (h.turn hlib) hrun

/-! A turn taps a cell, sees a new item, or shortens the queue. A tap is no cell,
so taps come to an end. -/

/-- The items whose tapping is still to come. -/
def untapped (lib : PropagatorLibrary Net) (s : Tracing Net) : Finset String :=
  (lib.items s.net).toFinset.filter fun x => lib.is_cell s.net x = true ∧ x ∉ s.tapped

/-- What the walk can still visit. -/
def unseen (lib : PropagatorLibrary Net) (s : Tracing Net) : Finset String :=
  (lib.items s.net).toFinset.filter fun x => x ∉ s.seen

theorem untapped_tap {x : String} (hx : x ∈ lib.items s.net) (hcell : lib.is_cell s.net x = true)
    (hnew : x ∉ s.tapped) :
    (untapped lib { s with net := lib.p_tap s.net x, tapped := x :: s.tapped }).card < (untapped lib s).card := by
  refine Finset.card_lt_card (Finset.ssubset_iff_of_subset ?_ |>.2 ⟨x, ?_, ?_⟩)
  · intro y hy
    simp only [untapped, Finset.mem_filter, List.mem_toFinset, List.mem_cons, not_or] at hy ⊢
    obtain ⟨hitem, hycell, hy⟩ := hy
    have hold := hlib.tap_cells _ _ _ hitem hycell
    rw [hlib.tap_same _ _ _ hold] at hycell
    exact ⟨hold, hycell, hy.2⟩
  · simp [untapped, hx, hcell, hnew]
  · simp [untapped]

omit hlib in
theorem unseen_see {x : String} (hx : x ∈ lib.items s.net) (hnew : x ∉ s.seen) (graph : DirectedGraph) :
    (unseen lib ⟨s.net, s.tapped, x :: s.seen, graph⟩).card < (unseen lib s).card := by
  refine Finset.card_lt_card (Finset.ssubset_iff_of_subset ?_ |>.2 ⟨x, ?_, ?_⟩)
  · intro y hy
    simp only [unseen, Finset.mem_filter, List.mem_toFinset, List.mem_cons, not_or] at hy ⊢
    exact ⟨hy.1, hy.2.2⟩
  · simp [unseen, hx, hnew]
  · simp [unseen]

theorem turn_descends {x : String} (h : Underway lib taps root net0 start (x :: queue) s) :
    (untapped lib (turn lib taps s x).2).card < (untapped lib s).card ∨
    (untapped lib (turn lib taps s x).2).card = (untapped lib s).card ∧
      ((unseen lib (turn lib taps s x).2).card < (unseen lib s).card ∨
        (unseen lib (turn lib taps s x).2).card = (unseen lib s).card ∧ (turn lib taps s x).1 = []) := by
  have hitem := met_items hlib h.rooted (h.met x (.inr List.mem_cons_self))
  rcases @prepare_cases _ lib taps s x with ⟨hsame, -⟩ | ⟨⟨-, hcell, hnew⟩, hsame⟩
  · -- No tap: the item is new, or the queue gets shorter.
    refine .inr ?_
    rw [turn, hsame, cyclic_prevention_walk]
    by_cases hx : x ∈ s.seen
    · rw [if_pos (show x ∈ (graph_step lib s x).seen from hx)]
      exact ⟨rfl, .inr ⟨rfl, rfl⟩⟩
    · rw [if_neg (show x ∉ (graph_step lib s x).seen from hx)]
      exact ⟨rfl, .inl (unseen_see hitem hx _)⟩
  · -- A tap: one cell less to tap.
    refine .inl ?_
    have hlt := untapped_tap hlib hitem hcell hnew
    rw [turn, hsame, cyclic_prevention_walk]
    split
    · exact hlt
    · exact hlt

theorem traversal_ends (h : Underway lib taps root net0 start queue s) :
    ∃ n s', traversal lib taps n queue s = .ok s' := by
  -- The lexicographic descent: taps to come, items to see, the queue.
  induction hk : (untapped lib s).card using Nat.strongRecOn generalizing queue s with
  | ind k ihk =>
  induction hj : (unseen lib s).card using Nat.strongRecOn generalizing queue s with
  | ind j ihj =>
  induction queue generalizing s with
  | nil => exact ⟨1, s, rfl⟩
  | cons x queue ihq =>
    have hnext := h.turn hlib
    have hends : ∃ n s', traversal lib taps n (queue ++ (turn lib taps s x).1) (turn lib taps s x).2 = .ok s' := by
      rcases turn_descends hlib h with hlt | ⟨heq, hlt | ⟨heq', hnil⟩⟩
      · exact ihk _ (hk ▸ hlt) hnext rfl
      · exact ihj _ (hj ▸ hlt) hnext (heq.trans hk) rfl
      · rw [hnil, List.append_nil] at hnext ⊢
        exact ihq hnext (heq.trans hk) (heq'.trans hj)
    obtain ⟨n, s', hrun⟩ := hends
    exact ⟨n + 1, s', by rw [traversal_cons, hrun]⟩

omit hlib in
theorem underway_start (hroot : root ∈ lib.items s.net) :
    Underway lib taps root s.net s.graph [root] { s with seen := [] } where
  still := fun _ => rfl
  rooted := hroot
  begun := .inr List.mem_cons_self
  met := by
    rintro x (hx | hx)
    · cases hx
    · obtain rfl := List.mem_singleton.1 hx
      exact .root
  closed := by simp
  ready := by simp
  nodes := by simp
  edges := by simp

/-- What a traversal adds to the graph it starts with. -/
structure Traversed (lib : PropagatorLibrary Net) (root : String) (start : DirectedGraph) (s : Tracing Net) : Prop where
  rooted : root ∈ lib.items s.net
  nodes : ∀ id, s.graph.hasNode id = true ↔ start.hasNode id = true ∨ Met lib root s.net id
  edges : ∀ e, e ∈ s.graph.edges ↔ e ∈ start.edges ∨ Met lib root s.net e.1 ∧ e.2 ∈ lib.walk_nodes s.net e.1

omit hlib in
theorem Underway.traversed (h : Underway lib taps root net0 start [] s) : Traversed lib root start s := by
  have hseen : ∀ x, x ∈ s.seen ↔ Met lib root s.net x := by
    intro x
    refine ⟨fun hx => h.met x (.inl hx), fun hx => ?_⟩
    induction hx with
    | root => exact h.begun.resolve_right List.not_mem_nil
    | step _ leads ih => exact (h.closed _ ih _ leads).resolve_right List.not_mem_nil
  refine ⟨h.rooted, fun id => ?_, fun e => by rw [h.edges, hseen]⟩
  rw [h.nodes, hseen]
  refine or_congr_right ⟨?_, .inl⟩
  rintro (hid | ⟨x, hx, hid⟩)
  · exact hid
  · exact ((hseen x).1 hx).step hid

theorem traversal_returns (taps : Bool) (hroot : root ∈ lib.items s.net) :
    Returns (fun fuel => traversal lib taps fuel [root] { s with seen := [] }) fun s' =>
      Traversed lib root s.graph s' ∧ (taps = false → s'.net = s.net) := by
  have hstart := @underway_start _ lib taps root s hroot
  obtain ⟨n, s', hrun⟩ := traversal_ends hlib hstart
  have hend := traversal_underway hlib hstart hrun
  exact .of_ok (fun n m hnm => traversal_upto lib taps hnm _ _) hrun ⟨hend.traversed, hend.still⟩

/-- A re-run adds what is met now to the graph. -/
theorem schedule_returns (hroot : root ∈ lib.items s.net) :
    Returns (fun fuel => schedule lib root fuel s) (Traversed lib root s.graph) := by
  simp only [schedule_eq]
  exact (traversal_returns hlib true hroot).mono fun _ h => h.1

/-- One trace has what is met and nothing else. -/
theorem trace_once_returns {net : Net} (hroot : root ∈ lib.items net) :
    Returns (fun fuel => trace_once lib root fuel net) fun once =>
      (∀ id, once.hasNode id = true ↔ Met lib root net id) ∧
        ∀ e, e ∈ once.edges ↔ Met lib root net e.1 ∧ e.2 ∈ lib.walk_nodes net e.1 := by
  simp only [trace_once_eq]
  refine Returns.bind (f := fun _ s => .ok s.graph) (fun n m hnm => traversal_upto lib false hnm _ _)
    (fun _ => .const _) (@traversal_returns _ lib hlib root ⟨net, [], [], emptyGraph⟩ false hroot) fun s hs => .ok ?_
  obtain ⟨h, hstill⟩ := hs
  have hnet : s.net = net := hstill rfl
  refine ⟨fun id => ?_, fun e => ?_⟩
  · rw [h.nodes, hnet]
    simp [emptyGraph, DirectedGraph.hasNode]
  · rw [h.edges, hnet]
    simp [emptyGraph]

/-! ## Histories -/

/-- The graph has what some run met. -/
theorem TraceRun.spec {past : List Net} (h : TraceRun lib root past s) : root ∈ lib.items s.net ∧
    (∀ id, s.graph.hasNode id = true ↔ ∃ net ∈ past, Met lib root net id) ∧
      ∀ e, e ∈ s.graph.edges ↔ ∃ net ∈ past, Met lib root net e.1 ∧ e.2 ∈ lib.walk_nodes net e.1 := by
  induction h with
  | start net hroot => exact ⟨hroot, by simp [emptyGraph, DirectedGraph.hasNode]⟩
  | change _ net hroot ih => exact ⟨hroot, ih.2⟩
  | rerun _ run ih =>
    have hend := (schedule_returns hlib ih.1).2 _ _ run
    refine ⟨hend.rooted, fun id => ?_, fun e => ?_⟩
    · simp only [hend.nodes, ih.2.1, List.mem_cons, exists_eq_or_imp]
      exact or_comm
    · simp only [hend.edges, ih.2.2, List.mem_cons, exists_eq_or_imp]
      exact or_comm

omit hlib in
/-- Where all links are kept, all items are met. -/
theorem Kept.met {past : List Net} {net old : Net} (h : Kept lib root past net) (hold : old ∈ past) {x : String}
    (hx : Met lib root old x) : Met lib root net x := by
  induction hx with
  | root => exact .root
  | step before leads ih => exact ih.step (h old hold _ _ before leads)

/-- After the next run the two traces agree exactly when the network still has
every link that an earlier run followed. -/
theorem retrace_agrees_iff {past : List Net} (h : TraceRun lib root past s) :
    Returns (fun fuel => schedule lib root fuel s) fun s' =>
      Returns (fun fuel => trace_once lib root fuel s'.net) fun once =>
        (SameShape s'.graph once ↔ Kept lib root past s'.net) := by
  obtain ⟨hroot, hnodes, hedges⟩ := h.spec hlib
  refine (schedule_returns hlib hroot).mono fun s' hs' => ?_
  refine (trace_once_returns hlib hs'.rooted).mono fun once honce => ⟨fun hsame old hold x y hx hy => ?_, fun hkept => ?_⟩
  · -- A link that a run followed is in the graph, so the fresh trace has it too.
    have hmem : (x, y) ∈ s'.graph.edges := (hs'.edges _).2 (.inl ((hedges _).2 ⟨old, hold, hx, hy⟩))
    exact ((honce.2 _).1 ((hsame.2 _).1 hmem)).2
  · -- What the runs before put in, this run puts in again.
    refine ⟨fun id => ?_, fun e => ?_⟩
    · rw [hs'.nodes, honce.1, hnodes]
      refine or_iff_right_of_imp ?_
      rintro ⟨old, hold, hid⟩
      exact hkept.met hold hid
    · rw [hs'.edges, honce.2, hedges]
      refine or_iff_right_of_imp ?_
      rintro ⟨old, hold, hmet, hleads⟩
      exact ⟨hkept.met hold hmet, hkept old hold _ _ hmet hleads⟩

end traversal

/-! ## A network of cells and propagators -/

/-- A propagator of the example network. -/
structure Propagator where
  id : String
  inputs : List String
  outputs : List String

/-- The example network. -/
structure Network where
  cells : List String
  propagators : List Propagator
  linked : ∀ p ∈ propagators, ∀ c ∈ p.inputs ++ p.outputs, c ∈ cells
  apart : ∀ p ∈ propagators, p.id ∉ cells

namespace Network

/-- Its cells and propagators. -/
def items (net : Network) : List String := net.cells ++ net.propagators.map (·.id)

/-- A propagator more, if its cells are there and its id is no cell. -/
def add (net : Network) (p : Propagator) : Network :=
  if h : (∀ c ∈ p.inputs ++ p.outputs, c ∈ net.cells) ∧ p.id ∉ net.cells then
    { net with
      propagators := net.propagators ++ [p]
      linked := fun q hq => (List.mem_append.1 hq).elim (net.linked q) fun hq => List.mem_singleton.1 hq ▸ h.1
      apart := fun q hq => (List.mem_append.1 hq).elim (net.apart q) fun hq => List.mem_singleton.1 hq ▸ h.2 }
  else net

/-- Takes a propagator out. -/
def remove (net : Network) (id : String) : Network :=
  { net with
    propagators := net.propagators.filter (·.id ≠ id)
    linked := fun p hp => net.linked p (List.mem_filter.1 hp).1
    apart := fun p hp => net.apart p (List.mem_filter.1 hp).1 }

/-- The propagators that read a cell, or the cells that a propagator writes. -/
def get_downstream (net : Network) (x : String) : List String :=
  if x ∈ net.cells then (net.propagators.filter fun p => x ∈ p.inputs).map (·.id)
  else (net.propagators.filter fun p => p.id = x).flatMap (·.outputs)

/-- An id longer than all others. -/
def newId (net : Network) : String := String.ofList (List.replicate (1 + (net.items.map (·.length)).sum) 't')

/-- A tap reads its cell and writes nothing. -/
def p_tap (net : Network) (x : String) : Network := net.add ⟨net.newId, [x], []⟩

theorem newId_new (net : Network) : net.newId ∉ net.items := by
  intro h
  have hle : net.newId.length ≤ (net.items.map (·.length)).sum :=
    List.single_le_sum (fun _ _ => Nat.zero_le _) _ (List.mem_map_of_mem h)
  have hlen : net.newId.length = 1 + (net.items.map (·.length)).sum := by simp [newId]
  omega

theorem cells_p_tap (net : Network) (x : String) : (net.p_tap x).cells = net.cells := by
  unfold p_tap add
  split <;> rfl

theorem propagators_p_tap (net : Network) (x : String) : (net.p_tap x).propagators = net.propagators ∨
    (net.p_tap x).propagators = net.propagators ++ [⟨net.newId, [x], []⟩] := by
  unfold p_tap add
  split
  · exact .inr rfl
  · exact .inl rfl

/-- Walking downstream. -/
def downstream : PropagatorLibrary Network where
  items := items
  item net x := ⟨x ∈ net.cells, x ∈ net.propagators.map (·.id), x, .nan, none⟩
  walk_nodes := get_downstream
  p_tap := p_tap

theorem downstream_lawful : Lawful downstream where
  closed := by
    intro net x y _ hy
    simp only [downstream, get_downstream] at hy ⊢
    split at hy
    · obtain ⟨p, hp, rfl⟩ := List.mem_map.1 hy
      exact List.mem_append_right _ (List.mem_map_of_mem (List.mem_filter.1 hp).1)
    · obtain ⟨p, hp, hy⟩ := List.mem_flatMap.1 hy
      exact List.mem_append_left _ (net.linked p (List.mem_filter.1 hp).1 y (List.mem_append_right _ hy))
  tap_keeps := by
    intro net x y hy
    simp only [downstream, items, cells_p_tap, List.mem_append] at hy ⊢
    refine hy.imp_right fun hy => ?_
    rcases net.propagators_p_tap x with h | h
    · rwa [h]
    · rw [h, List.map_append]
      exact List.mem_append_left _ hy
  tap_cells := by
    intro net x y _ hcell
    simp only [PropagatorLibrary.is_cell, downstream, cells_p_tap, decide_eq_true_eq] at hcell
    exact List.mem_append_left _ hcell
  tap_same := by
    intro net x y _
    simp only [PropagatorLibrary.is_cell, downstream, cells_p_tap]
  tap_other := by
    intro net x y hy hne
    -- The new propagator has an id of its own, so it is no input of `y`.
    have hnew : net.newId ≠ y := by
      rintro rfl
      exact net.newId_new hy
    simp only [downstream, get_downstream, cells_p_tap]
    rcases net.propagators_p_tap x with h | h
    · rw [h]
    · rw [h]
      simp [List.filter_append, hne, hnew]
  tap_self := by
    intro net x y hy
    simp only [downstream, get_downstream, cells_p_tap] at hy ⊢
    rcases net.propagators_p_tap x with h | h
    · rwa [h]
    · rw [h, List.filter_append, List.filter_append]
      split
      · rename_i hx
        rw [if_pos hx] at hy
        rw [List.map_append]
        exact List.mem_append_left _ hy
      · rename_i hx
        rw [if_neg hx] at hy
        rw [List.flatMap_append]
        exact List.mem_append_left _ hy

end Network

open Network

/-- `a` is read by `p`, which writes `b`. -/
def chain : Network where
  cells := ["a", "b"]
  propagators := [⟨"p", ["a"], ["b"]⟩]
  linked := by decide
  apart := by decide

/-- The trace of the chain from `a` after one run. -/
def traced : Tracing Network :=
  (schedule downstream "a" 9 ⟨chain, [], [], emptyGraph⟩).toOption.getD ⟨chain, [], [], emptyGraph⟩

/-- Then `p` is removed. -/
def unlinked : Tracing Network := { traced with net := traced.net.remove "p" }

theorem unlinked_run : TraceRun downstream "a" [traced.net] unlinked := by
  have hrun : schedule downstream "a" 9 ⟨chain, [], [], emptyGraph⟩ = .ok traced := by rfl
  exact ((TraceRun.start chain (by decide)).rerun hrun).change _ (by decide)

theorem retrace_agrees_iff_unlinked : Returns (fun fuel => schedule downstream "a" fuel unlinked) fun s' =>
    Returns (fun fuel => trace_once downstream "a" fuel s'.net) fun once =>
      (SameShape s'.graph once ↔ Kept downstream "a" [traced.net] s'.net) :=
  retrace_agrees_iff downstream_lawful unlinked_run

/-- `b` stays in the graph. -/
theorem removed_propagator_stays :
    ∃ past s, TraceRun downstream "a" past s ∧ ¬ RetraceAgrees downstream "a" s := by
  refine ⟨_, unlinked, unlinked_run, fun h => ?_⟩
  have hrun : ∃ s', schedule downstream "a" 9 unlinked = .ok s' ∧ s'.graph.hasNode "b" = true ∧
      ∃ once, trace_once downstream "a" 9 s'.net = .ok once ∧ once.hasNode "b" = false := ⟨_, rfl, rfl, _, rfl, rfl⟩
  obtain ⟨s', hs', hstays, once, honce, hgone⟩ := hrun
  have hsame := (h.2 9 s' hs').2 9 once honce
  rw [(hsame.1 "b").1 hstays] at hgone
  cases hgone

end LainLang.Tracer
