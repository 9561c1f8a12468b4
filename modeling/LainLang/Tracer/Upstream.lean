import LainLang.Tracer.Subgraph
import Mathlib.Data.Set.Card
import Mathlib.Data.Set.Finite.Lattice
/-!
# The upstream tracer

`upstream_bfs` walks a network of cells and propagators against the data flow,
from a root cell, and counts what it meets. It stops at the first cell or
propagator that would be one too many, so it is truncated exactly if the upstream
closure of the root is larger than the limit; otherwise its graph is the closure.
-/
open LainLang.Lib LainLang.Js

namespace LainLang.Tracer

/-! ## The network -/

/-- What the tracer asks of the propagator library. -/
structure CellLibrary where
  Cell : Type
  Propagator : Type
  cell_id : Cell → String
  create_cell_label : Cell → String
  cell_dependents : Cell → List Propagator
  propagator_id : Propagator → String
  propagator_name : Propagator → String
  create_propagator_label : Propagator → String
  propagator_inputs : Propagator → List Cell
  propagator_outputs : Propagator → List Cell

/-- The network is finite, `cell_dependents` are the propagators that write a cell,
and no two of its cells and propagators share an id. -/
structure CellLibrary.Lawful (lib : CellLibrary) : Prop where
  finite : Finite lib.Cell
  dependents : ∀ c p, p ∈ lib.cell_dependents c ↔ c ∈ lib.propagator_outputs p
  cell_id_injective : Function.Injective lib.cell_id
  propagator_id_injective : Function.Injective lib.propagator_id
  ids_apart : ∀ c p, lib.cell_id c ≠ lib.propagator_id p

variable (lib : CellLibrary)

def is_tracer_propagator (p : lib.Propagator) : Bool := includes (lib.propagator_name p) "tracer"

/-- `{ label }`. -/
def labelAttrs (label : String) : Attributes := [("label", .str label)]

/-! ## The search -/

/-- The state of a search; `nodes` counts the cells and the propagators seen. -/
structure Bfs where
  graph : DirectedGraph
  seen_cells : List String
  seen_props : List String
  queue : List lib.Cell
  nodes : ℕ

variable {lib}

/-- One turn of the loop over the inputs of a propagator. -/
def merge_input (pid : String) (s : Bfs lib) (input : lib.Cell) : Bfs lib :=
  let iid := lib.cell_id input
  { s with
    graph := (s.graph.mergeNode iid (labelAttrs (lib.create_cell_label input))).mergeEdge iid pid
    queue := if iid ∈ s.seen_cells then s.queue else s.queue ++ [input] }

/-- The edges of all inputs. -/
def merge_inputs (prop : lib.Propagator) (s : Bfs lib) : Bfs lib :=
  (lib.propagator_inputs prop).foldl (merge_input (lib.propagator_id prop)) s

/-- The loop over the propagators that write the cell; whether it was cut off. -/
def visit_dependents (max_nodes : ℤ) (cid : String) : List lib.Propagator → Bfs lib → Bool × Bfs lib
  | [], s => (false, s)
  | prop :: props, s =>
    if is_tracer_propagator lib prop then visit_dependents max_nodes cid props s
    else
      let pid := lib.propagator_id prop
      if pid ∈ s.seen_props then
        visit_dependents max_nodes cid props (merge_inputs prop { s with graph := s.graph.mergeEdge pid cid })
      else if max_nodes ≤ s.nodes then (true, s)
      else
        visit_dependents max_nodes cid props (merge_inputs prop { s with
          seen_props := pid :: s.seen_props
          nodes := s.nodes + 1
          graph := (s.graph.mergeNode pid (labelAttrs (lib.create_propagator_label prop))).mergeEdge pid cid })

/-- A cell that is seen for the first time. -/
def visit_cell (max_nodes : ℤ) (cell : lib.Cell) (s : Bfs lib) : Bool × Bfs lib :=
  let cid := lib.cell_id cell
  visit_dependents max_nodes cid (lib.cell_dependents cell) { s with
    seen_cells := cid :: s.seen_cells
    nodes := s.nodes + 1
    graph := s.graph.mergeNode cid (labelAttrs (lib.create_cell_label cell)) }

/-- The `while` loop. -/
def bfs_loop (max_nodes : ℤ) : ℕ → Bfs lib → Run (Bool × Bfs lib)
  | 0, _ => .error .outOfFuel
  | fuel + 1, s =>
    match s.queue with
    | [] => .ok (false, s)
    | cell :: queue =>
      let s := { s with queue }
      if lib.cell_id cell ∈ s.seen_cells then bfs_loop max_nodes fuel s
      else if max_nodes ≤ s.nodes then .ok (true, s)
      else
        let visited := visit_cell max_nodes cell s
        if visited.1 then .ok (true, visited.2) else bfs_loop max_nodes fuel visited.2

/-- The graph is cleared first, so what was in it does not matter. -/
def upstream_bfs (fuel : ℕ) (root : lib.Cell) (max_nodes : ℤ) : Run (Bool × DirectedGraph) := do
  let result ← bfs_loop max_nodes fuel ⟨emptyGraph, [], [], [root], 0⟩
  return (result.1, result.2.graph)

/-! ## The upstream closure -/

/-- A cell from which the root is computed, tracers left out. -/
inductive UpstreamCell (root : lib.Cell) : lib.Cell → Prop where
  | root : UpstreamCell root root
  | input {c i : lib.Cell} {p : lib.Propagator} (before : UpstreamCell root c) (writes : p ∈ lib.cell_dependents c)
      (traced : is_tracer_propagator lib p = false) (reads : i ∈ lib.propagator_inputs p) : UpstreamCell root i

/-- A propagator on the way. -/
def UpstreamProp (root : lib.Cell) (p : lib.Propagator) : Prop :=
  is_tracer_propagator lib p = false ∧ ∃ c, UpstreamCell root c ∧ p ∈ lib.cell_dependents c

/-- The number of cells and propagators of the closure. -/
noncomputable def upstreamSize (root : lib.Cell) : ℕ :=
  Set.ncard { c | UpstreamCell root c } + Set.ncard { p | UpstreamProp root p }

/-- The id of either. -/
def UpstreamId (root : lib.Cell) (id : String) : Prop :=
  (∃ c, UpstreamCell root c ∧ lib.cell_id c = id) ∨ ∃ p, UpstreamProp root p ∧ lib.propagator_id p = id

/-- From a propagator of the closure to a cell of it that it writes, or from a cell
to a propagator that reads it. -/
def UpstreamEdge (root : lib.Cell) (e : EdgeTuple) : Prop :=
  (∃ p c, UpstreamProp root p ∧ UpstreamCell root c ∧ c ∈ lib.propagator_outputs p ∧
    e = (lib.propagator_id p, lib.cell_id c)) ∨
    ∃ p i, UpstreamProp root p ∧ i ∈ lib.propagator_inputs p ∧ e = (lib.cell_id i, lib.propagator_id p)

variable {root : lib.Cell}

theorem UpstreamProp.reads {p : lib.Propagator} (h : UpstreamProp root p) {i : lib.Cell}
    (hi : i ∈ lib.propagator_inputs p) : UpstreamCell root i := by
  obtain ⟨htraced, c, hc, hwrites⟩ := h
  exact .input hc hwrites htraced hi

theorem UpstreamEdge.ends {e : EdgeTuple} (h : UpstreamEdge root e) : UpstreamId root e.1 ∧ UpstreamId root e.2 := by
  rcases h with ⟨p, c, hp, hc, -, rfl⟩ | ⟨p, i, hp, hi, rfl⟩
  · exact ⟨.inr ⟨p, hp, rfl⟩, .inl ⟨c, hc, rfl⟩⟩
  · exact ⟨.inl ⟨i, hp.reads hi, rfl⟩, .inr ⟨p, hp, rfl⟩⟩

/-! ## What holds on the way -/

/-- Everything seen, queued or merged is of the closure, and counted once. -/
structure Sound (root : lib.Cell) (s : Bfs lib) : Prop where
  nodes : ∀ id, s.graph.hasNode id = true → UpstreamId root id
  edges : ∀ e ∈ s.graph.edges, UpstreamEdge root e
  queue : ∀ c ∈ s.queue, UpstreamCell root c
  cells : ∀ id ∈ s.seen_cells, s.graph.hasNode id = true ∧ ∃ c, UpstreamCell root c ∧ lib.cell_id c = id
  props : ∀ id ∈ s.seen_props, s.graph.hasNode id = true ∧ ∃ p, UpstreamProp root p ∧ lib.propagator_id p = id
  nodup_cells : s.seen_cells.Nodup
  nodup_props : s.seen_props.Nodup
  count : s.nodes = s.seen_cells.length + s.seen_props.length

/-- The cell was seen or will be. -/
def Waiting (s : Bfs lib) (c : lib.Cell) : Prop := lib.cell_id c ∈ s.seen_cells ∨ c ∈ s.queue

/-- The propagator was seen, with its edge to the cell and those from its inputs. -/
structure Merged (s : Bfs lib) (c : lib.Cell) (p : lib.Propagator) : Prop where
  seen : lib.propagator_id p ∈ s.seen_props
  writes : (lib.propagator_id p, lib.cell_id c) ∈ s.graph.edges
  reads : ∀ i ∈ lib.propagator_inputs p, (lib.cell_id i, lib.propagator_id p) ∈ s.graph.edges ∧ Waiting s i

/-- Nothing is forgotten. -/
structure Extends (s s' : Bfs lib) : Prop where
  props : s.seen_props ⊆ s'.seen_props
  edges : s.graph.edges ⊆ s'.graph.edges
  waiting : ∀ c, Waiting s c → Waiting s' c

theorem Extends.refl (s : Bfs lib) : Extends s s := ⟨List.Subset.refl _, List.Subset.refl _, fun _ h => h⟩

theorem Extends.trans {s s' s'' : Bfs lib} (h : Extends s s') (h' : Extends s' s'') : Extends s s'' :=
  ⟨List.Subset.trans h.props h'.props, List.Subset.trans h.edges h'.edges, fun c hc => h'.waiting c (h.waiting c hc)⟩

theorem Merged.mono {s s' : Bfs lib} (hext : Extends s s') {c : lib.Cell} {p : lib.Propagator} (h : Merged s c p) :
    Merged s' c p where
  seen := hext.props h.seen
  writes := hext.edges h.writes
  reads := fun i hi => ⟨hext.edges (h.reads i hi).1, hext.waiting i (h.reads i hi).2⟩

/-! ### Merging -/

theorem hasNode_mergeEdge (graph : DirectedGraph) (source target x : String) :
    (graph.mergeEdge source target).hasNode x = (decide (x = target) || (decide (x = source) || graph.hasNode x)) := by
  rw [← DirectedGraph.hasNode_ensureNode]
  exact DirectedGraph.hasNode_ensureNode ..

theorem hasNode_mergeNode_of {graph : DirectedGraph} {x : String} (id : String) (attrs : Attributes)
    (h : graph.hasNode x = true) : (graph.mergeNode id attrs).hasNode x = true := by
  rw [DirectedGraph.hasNode_mergeNode, h, Bool.or_true]

theorem hasNode_mergeEdge_of {graph : DirectedGraph} {x : String} (source target : String)
    (h : graph.hasNode x = true) : (graph.mergeEdge source target).hasNode x = true := by
  rw [hasNode_mergeEdge, h, Bool.or_true, Bool.or_true]

variable {s : Bfs lib}

theorem Sound.mergeNode (hs : Sound root s) {id : String} (hid : UpstreamId root id) (attrs : Attributes) :
    Sound root { s with graph := s.graph.mergeNode id attrs } where
  nodes := by
    intro x hx
    rw [DirectedGraph.hasNode_mergeNode, Bool.or_eq_true, decide_eq_true_eq] at hx
    rcases hx with rfl | hx
    · exact hid
    · exact hs.nodes x hx
  edges := hs.edges
  queue := hs.queue
  cells := fun x hx => ⟨hasNode_mergeNode_of id attrs (hs.cells x hx).1, (hs.cells x hx).2⟩
  props := fun x hx => ⟨hasNode_mergeNode_of id attrs (hs.props x hx).1, (hs.props x hx).2⟩
  nodup_cells := hs.nodup_cells
  nodup_props := hs.nodup_props
  count := hs.count

theorem Sound.mergeEdge (hs : Sound root s) {source target : String} (hedge : UpstreamEdge root (source, target)) :
    Sound root { s with graph := s.graph.mergeEdge source target } where
  nodes := by
    intro x hx
    simp only [hasNode_mergeEdge, Bool.or_eq_true, decide_eq_true_eq] at hx
    rcases hx with rfl | rfl | hx
    · exact hedge.ends.2
    · exact hedge.ends.1
    · exact hs.nodes x hx
  edges := by
    intro e he
    rcases DirectedGraph.mem_edges_mergeEdge.1 he with he | rfl
    · exact hs.edges e he
    · exact hedge
  queue := hs.queue
  cells := fun x hx => ⟨hasNode_mergeEdge_of source target (hs.cells x hx).1, (hs.cells x hx).2⟩
  props := fun x hx => ⟨hasNode_mergeEdge_of source target (hs.props x hx).1, (hs.props x hx).2⟩
  nodup_cells := hs.nodup_cells
  nodup_props := hs.nodup_props
  count := hs.count

theorem Sound.withQueue (hs : Sound root s) {queue : List lib.Cell} (hqueue : ∀ c ∈ queue, UpstreamCell root c) :
    Sound root { s with queue } := { hs with queue := hqueue }

/-- One input is merged, and waits unless it was seen. -/
theorem merge_input_spec (hs : Sound root s) {prop : lib.Propagator} (hprop : UpstreamProp root prop) {input : lib.Cell}
    (hinput : input ∈ lib.propagator_inputs prop) :
    let s' := merge_input (lib.propagator_id prop) s input
    Sound root s' ∧ Extends s s' ∧ (lib.cell_id input, lib.propagator_id prop) ∈ s'.graph.edges ∧ Waiting s' input := by
  intro s'
  have hcell : UpstreamCell root input := hprop.reads hinput
  have hedge : UpstreamEdge root (lib.cell_id input, lib.propagator_id prop) := .inr ⟨prop, input, hprop, hinput, rfl⟩
  refine ⟨?_, ⟨List.Subset.refl _, ?_, ?_⟩, DirectedGraph.mem_edges_mergeEdge.2 (.inr rfl), ?_⟩
  · refine ((hs.mergeNode (.inl ⟨input, hcell, rfl⟩) _).mergeEdge hedge).withQueue ?_
    intro c hc
    split at hc
    · exact hs.queue c hc
    · rcases List.mem_append.1 hc with hc | hc
      · exact hs.queue c hc
      · rw [List.mem_singleton.1 hc]
        exact hcell
  · exact fun e he => DirectedGraph.mem_edges_mergeEdge.2 (.inl he)
  · intro c hc
    rcases hc with hc | hc
    · exact .inl hc
    · right
      dsimp only [s', merge_input]
      split
      · exact hc
      · exact List.mem_append_left _ hc
  · by_cases hseen : lib.cell_id input ∈ s.seen_cells
    · exact .inl hseen
    · right
      dsimp only [s', merge_input]
      rw [if_neg hseen]
      exact List.mem_append_right _ List.mem_cons_self

theorem merge_inputs_loop {prop : lib.Propagator} (hprop : UpstreamProp root prop) {inputs : List lib.Cell}
    (hinputs : inputs ⊆ lib.propagator_inputs prop) (hs : Sound root s) :
    let s' := inputs.foldl (merge_input (lib.propagator_id prop)) s
    Sound root s' ∧ Extends s s' ∧ s'.seen_cells = s.seen_cells ∧ s'.seen_props = s.seen_props ∧ s'.nodes = s.nodes ∧
      ∀ i ∈ inputs, (lib.cell_id i, lib.propagator_id prop) ∈ s'.graph.edges ∧ Waiting s' i := by
  induction inputs generalizing s with
  | nil => exact ⟨hs, .refl s, rfl, rfl, rfl, fun i hi => absurd hi List.not_mem_nil⟩
  | cons input inputs ih =>
    obtain ⟨hsound, hext, hedge, hwaiting⟩ := merge_input_spec hs hprop (hinputs List.mem_cons_self)
    obtain ⟨hsound', hext', hcells, hprops, hnodes, hall⟩ :=
      ih (fun i hi => hinputs (List.mem_cons_of_mem _ hi)) hsound
    refine ⟨hsound', hext.trans hext', hcells, hprops, hnodes, fun i hi => ?_⟩
    rcases List.mem_cons.1 hi with rfl | hi
    · exact ⟨hext'.edges hedge, hext'.waiting i hwaiting⟩
    · exact hall i hi

/-! ### The propagators that write a cell -/

theorem Extends.of_graph {graph : DirectedGraph} (h : s.graph.edges ⊆ graph.edges) : Extends s { s with graph } :=
  ⟨List.Subset.refl _, h, fun _ hc => hc⟩

/-- A propagator seen before gets its edge to the cell, and its inputs again. -/
theorem merge_seen (hlib : lib.Lawful) (hs : Sound root s) {c : lib.Cell} (hc : UpstreamCell root c)
    {prop : lib.Propagator} (hwrites : prop ∈ lib.cell_dependents c) (htraced : is_tracer_propagator lib prop = false)
    (hseen : lib.propagator_id prop ∈ s.seen_props) :
    let s' := merge_inputs prop { s with graph := s.graph.mergeEdge (lib.propagator_id prop) (lib.cell_id c) }
    Sound root s' ∧ Extends s s' ∧ s'.seen_cells = s.seen_cells ∧ s'.nodes = s.nodes ∧ Merged s' c prop := by
  intro s'
  have hprop : UpstreamProp root prop := ⟨htraced, c, hc, hwrites⟩
  have hedge : UpstreamEdge root (lib.propagator_id prop, lib.cell_id c) :=
    .inl ⟨prop, c, hprop, hc, (hlib.dependents c prop).1 hwrites, rfl⟩
  have hfirst : Extends s { s with graph := s.graph.mergeEdge (lib.propagator_id prop) (lib.cell_id c) } :=
    .of_graph fun e he => DirectedGraph.mem_edges_mergeEdge.2 (.inl he)
  obtain ⟨hsound, hext, hcells, hprops, hnodes, hall⟩ :=
    merge_inputs_loop hprop (List.Subset.refl _) (hs.mergeEdge hedge)
  refine ⟨hsound, hfirst.trans hext, hcells, hnodes, ?_, ?_, hall⟩
  · exact hext.props hseen
  · exact hext.edges (DirectedGraph.mem_edges_mergeEdge.2 (.inr rfl))

/-- A new propagator is counted and merged, with its edge to the cell and its inputs. -/
theorem merge_new (hlib : lib.Lawful) (hs : Sound root s) {c : lib.Cell} (hc : UpstreamCell root c)
    {prop : lib.Propagator} (hwrites : prop ∈ lib.cell_dependents c) (htraced : is_tracer_propagator lib prop = false)
    (hnew : lib.propagator_id prop ∉ s.seen_props) (attrs : Attributes) :
    let s' := merge_inputs prop { s with
      seen_props := lib.propagator_id prop :: s.seen_props
      nodes := s.nodes + 1
      graph := (s.graph.mergeNode (lib.propagator_id prop) attrs).mergeEdge (lib.propagator_id prop) (lib.cell_id c) }
    Sound root s' ∧ Extends s s' ∧ s'.seen_cells = s.seen_cells ∧ s'.nodes = s.nodes + 1 ∧ Merged s' c prop := by
  intro s'
  have hprop : UpstreamProp root prop := ⟨htraced, c, hc, hwrites⟩
  have hedge : UpstreamEdge root (lib.propagator_id prop, lib.cell_id c) :=
    .inl ⟨prop, c, hprop, hc, (hlib.dependents c prop).1 hwrites, rfl⟩
  have hmerged := (hs.mergeNode (.inr ⟨prop, hprop, rfl⟩) attrs).mergeEdge hedge
  have hcounted : Sound root { s with
      seen_props := lib.propagator_id prop :: s.seen_props
      nodes := s.nodes + 1
      graph := (s.graph.mergeNode (lib.propagator_id prop) attrs).mergeEdge (lib.propagator_id prop) (lib.cell_id c) } := by
    have hnodup : (lib.propagator_id prop :: s.seen_props).Nodup := List.nodup_cons.2 ⟨hnew, hs.nodup_props⟩
    refine { hmerged with props := fun id hid => ?_, nodup_props := hnodup, count := ?_ }
    · rcases List.mem_cons.1 hid with rfl | hid
      · exact ⟨by simp [hasNode_mergeEdge], prop, hprop, rfl⟩
      · exact hmerged.props id hid
    · have hcount := hs.count
      simp only [List.length_cons]
      omega
  have hfirst : Extends s { s with
      seen_props := lib.propagator_id prop :: s.seen_props
      nodes := s.nodes + 1
      graph := (s.graph.mergeNode (lib.propagator_id prop) attrs).mergeEdge (lib.propagator_id prop) (lib.cell_id c) } :=
    ⟨List.subset_cons_self .., fun e he => DirectedGraph.mem_edges_mergeEdge.2 (.inl he), fun _ h => h⟩
  obtain ⟨hsound, hext, hcells, hprops, hnodes, hall⟩ := merge_inputs_loop hprop (List.Subset.refl _) hcounted
  refine ⟨hsound, hfirst.trans hext, hcells, hnodes, ?_, ?_, hall⟩
  · exact hext.props List.mem_cons_self
  · exact hext.edges (DirectedGraph.mem_edges_mergeEdge.2 (.inr rfl))

/-- Some cell or propagator of the closure was not counted, and there is no room for it. -/
def CutOff (root : lib.Cell) (max_nodes : ℤ) (s : Bfs lib) : Prop :=
  max_nodes ≤ s.nodes ∧ ((∃ c, UpstreamCell root c ∧ lib.cell_id c ∉ s.seen_cells) ∨
    ∃ p, UpstreamProp root p ∧ lib.propagator_id p ∉ s.seen_props)

/-- What the loop over some propagators does, from `s` on. -/
structure Visited (root : lib.Cell) (max_nodes : ℤ) (c : lib.Cell) (props : List lib.Propagator) (s : Bfs lib)
    (r : Bool × Bfs lib) : Prop where
  sound : Sound root r.2
  extends_start : Extends s r.2
  seen_cells : r.2.seen_cells = s.seen_cells
  room : (r.2.nodes : ℤ) ≤ max_nodes
  cut : r.1 = true → CutOff root max_nodes r.2
  merged : r.1 = false → ∀ p ∈ props, is_tracer_propagator lib p = false → Merged r.2 c p

/-- A propagator is merged, and the others are visited. -/
theorem Visited.merge {max_nodes : ℤ} {c : lib.Cell} {prop : lib.Propagator} {props : List lib.Propagator} {s' : Bfs lib}
    {r : Bool × Bfs lib} (h : Visited root max_nodes c props s' r) (hext : Extends s s')
    (hcells : s'.seen_cells = s.seen_cells) (hmerged : Merged s' c prop) :
    Visited root max_nodes c (prop :: props) s r where
  sound := h.sound
  extends_start := hext.trans h.extends_start
  seen_cells := h.seen_cells.trans hcells
  room := h.room
  cut := h.cut
  merged hr p hp htraced := by
    rcases List.mem_cons.1 hp with rfl | hp
    · exact hmerged.mono h.extends_start
    · exact h.merged hr p hp htraced

theorem visit_dependents_spec (hlib : lib.Lawful) {max_nodes : ℤ} {c : lib.Cell} (hc : UpstreamCell root c)
    {props : List lib.Propagator} (hprops : props ⊆ lib.cell_dependents c) (hs : Sound root s)
    (hroom : (s.nodes : ℤ) ≤ max_nodes) :
    Visited root max_nodes c props s (visit_dependents max_nodes (lib.cell_id c) props s) := by
  induction props generalizing s with
  | nil =>
    refine ⟨hs, .refl s, rfl, hroom, fun h => absurd h Bool.false_ne_true, fun _ p hp => ?_⟩
    exact absurd hp List.not_mem_nil
  | cons prop props ih =>
    have hwrites := hprops List.mem_cons_self
    have hrest : props ⊆ lib.cell_dependents c := fun p hp => hprops (List.mem_cons_of_mem _ hp)
    rw [visit_dependents]
    split
    · -- A tracer is passed over.
      rename_i htracer
      refine { ih hrest hs hroom with merged := fun h p hp htraced => ?_ }
      rcases List.mem_cons.1 hp with rfl | hp
      · rw [htracer] at htraced
        cases htraced
      · exact (ih hrest hs hroom).merged h p hp htraced
    · rename_i htracer
      have htraced : is_tracer_propagator lib prop = false := by simpa using htracer
      dsimp only
      split
      · rename_i hseen
        obtain ⟨hsound, hext, hcells, hnodes, hmerged⟩ := merge_seen hlib hs hc hwrites htraced hseen
        exact (ih hrest hsound (hnodes.symm ▸ hroom)).merge hext hcells hmerged
      · rename_i hnew
        split
        · -- There is no room for it.
          rename_i hfull
          have hcut : CutOff root max_nodes s := ⟨hfull, .inr ⟨prop, ⟨htraced, c, hc, hwrites⟩, hnew⟩⟩
          exact ⟨hs, .refl s, rfl, hroom, fun _ => hcut, fun h => absurd h.symm Bool.false_ne_true⟩
        · rename_i hfull
          obtain ⟨hsound, hext, hcells, hnodes, hmerged⟩ :=
            merge_new hlib hs hc hwrites htraced hnew (labelAttrs (lib.create_propagator_label prop))
          have hroom' : ((s.nodes + 1 : ℕ) : ℤ) ≤ max_nodes := by
            push_cast
            omega
          exact (ih hrest hsound (hnodes.symm ▸ hroom')).merge hext hcells hmerged

/-! ### The loop -/

/-- What the loop knows when it takes the next cell off the queue. -/
structure Walking (root : lib.Cell) (max_nodes : ℤ) (s : Bfs lib) : Prop where
  sound : Sound root s
  root_waits : Waiting s root
  merged : ∀ c, lib.cell_id c ∈ s.seen_cells → ∀ p ∈ lib.cell_dependents c, is_tracer_propagator lib p = false →
    Merged s c p
  room : s.nodes = 0 ∨ (s.nodes : ℤ) ≤ max_nodes

theorem Walking.start (root : lib.Cell) (max_nodes : ℤ) :
    Walking root max_nodes (⟨emptyGraph, [], [], [root], 0⟩ : Bfs lib) where
  sound := by
    constructor
    · intro id hid
      simp [DirectedGraph.hasNode, emptyGraph] at hid
    · exact fun e he => absurd he List.not_mem_nil
    · intro c hc
      rw [List.mem_singleton.1 hc]
      exact .root
    · exact fun id hid => absurd hid List.not_mem_nil
    · exact fun id hid => absurd hid List.not_mem_nil
    · exact List.nodup_nil
    · exact List.nodup_nil
    · rfl
  root_waits := .inr List.mem_cons_self
  merged := fun c hc => absurd hc List.not_mem_nil
  room := .inl rfl

/-- What is taken off the queue, and what stays in it, is of the closure. -/
theorem Sound.dequeue (hs : Sound root s) {cell : lib.Cell} {queue : List lib.Cell} (hqueue : s.queue = cell :: queue) :
    UpstreamCell root cell ∧ Sound root { s with queue } := by
  refine ⟨hs.queue cell ?_, hs.withQueue fun c hc => hs.queue c ?_⟩
  · rw [hqueue]
    exact List.mem_cons_self
  · rw [hqueue]
    exact List.mem_cons_of_mem _ hc

/-- Taking a cell off the queue that was seen before, or is seen now. -/
theorem Extends.dequeue {cell : lib.Cell} {queue : List lib.Cell} (hqueue : s.queue = cell :: queue) {s' : Bfs lib}
    (hseen : lib.cell_id cell ∈ s'.seen_cells) (hcells : s.seen_cells ⊆ s'.seen_cells)
    (hprops : s.seen_props ⊆ s'.seen_props) (hedges : s.graph.edges ⊆ s'.graph.edges) (hleft : s'.queue = queue) :
    Extends s s' := by
  refine ⟨hprops, hedges, fun c hc => ?_⟩
  rcases hc with hc | hc
  · exact .inl (hcells hc)
  · rw [hqueue] at hc
    rcases List.mem_cons.1 hc with rfl | hc
    · exact .inl hseen
    · exact .inr (hleft ▸ hc)

theorem Walking.skip {max_nodes : ℤ} (h : Walking root max_nodes s) {cell : lib.Cell} {queue : List lib.Cell}
    (hqueue : s.queue = cell :: queue) (hseen : lib.cell_id cell ∈ s.seen_cells) :
    Walking root max_nodes { s with queue } := by
  have hext : Extends s { s with queue } :=
    .dequeue hqueue hseen (List.Subset.refl _) (List.Subset.refl _) (List.Subset.refl _) rfl
  refine ⟨(h.sound.dequeue hqueue).2, hext.waiting _ h.root_waits, ?_, h.room⟩
  exact fun c hc p hp htraced => (h.merged c hc p hp htraced).mono hext

/-- The cell is counted and merged. -/
theorem Sound.see (hs : Sound root s) {cell : lib.Cell} {queue : List lib.Cell} (hqueue : s.queue = cell :: queue)
    (hnew : lib.cell_id cell ∉ s.seen_cells) (attrs : Attributes) :
    let s' : Bfs lib := { s with
      queue
      seen_cells := lib.cell_id cell :: s.seen_cells
      nodes := s.nodes + 1
      graph := s.graph.mergeNode (lib.cell_id cell) attrs }
    Sound root s' ∧ Extends s s' := by
  intro s'
  obtain ⟨hcell, htail⟩ := hs.dequeue hqueue
  have hmerged := htail.mergeNode (.inl ⟨cell, hcell, rfl⟩) attrs
  have hnodup : s'.seen_cells.Nodup := List.nodup_cons.2 ⟨hnew, hs.nodup_cells⟩
  refine ⟨{ hmerged with cells := fun id hid => ?_, nodup_cells := hnodup, count := ?_ }, ?_⟩
  · rcases List.mem_cons.1 hid with rfl | hid
    · exact ⟨by simp [s', DirectedGraph.hasNode_mergeNode], cell, hcell, rfl⟩
    · exact hmerged.cells id hid
  · have hcount := hs.count
    simp only [s', List.length_cons]
    omega
  · exact .dequeue hqueue List.mem_cons_self (List.subset_cons_self ..) (List.Subset.refl _) (List.Subset.refl _) rfl

/-- Seeing a new cell: the search goes on with it, or is cut off. -/
theorem Walking.visit (hlib : lib.Lawful) {max_nodes : ℤ} (h : Walking root max_nodes s) {cell : lib.Cell}
    {queue : List lib.Cell} (hqueue : s.queue = cell :: queue) (hnew : lib.cell_id cell ∉ s.seen_cells)
    (hroom : ¬ max_nodes ≤ s.nodes) :
    let r := visit_cell max_nodes cell { s with queue }
    r.2.seen_cells = lib.cell_id cell :: s.seen_cells ∧ (r.1 = false → Walking root max_nodes r.2) ∧
      (r.1 = true → Sound root r.2 ∧ CutOff root max_nodes r.2) := by
  intro r
  obtain ⟨hsound, hext⟩ := h.sound.see hqueue hnew (labelAttrs (lib.create_cell_label cell))
  have hroom' : ((s.nodes + 1 : ℕ) : ℤ) ≤ max_nodes := by
    push_cast
    omega
  have hvisited := visit_dependents_spec hlib (h.sound.dequeue hqueue).1 (List.Subset.refl _) hsound hroom'
  have hext' := hext.trans hvisited.extends_start
  have hcells : r.2.seen_cells = lib.cell_id cell :: s.seen_cells := hvisited.seen_cells
  refine ⟨hcells, fun hr => ⟨hvisited.sound, hext'.waiting root h.root_waits, ?_, .inr hvisited.room⟩,
    fun hr => ⟨hvisited.sound, hvisited.cut hr⟩⟩
  intro c hc p hp htraced
  rw [hcells] at hc
  rcases List.mem_cons.1 hc with hsame | hold
  · obtain rfl := hlib.cell_id_injective hsame
    exact hvisited.merged hr p hp htraced
  · exact (h.merged c hold p hp htraced).mono hext'

theorem bfs_loop_cons {max_nodes : ℤ} (fuel : ℕ) {cell : lib.Cell} {queue : List lib.Cell}
    (hqueue : s.queue = cell :: queue) : bfs_loop max_nodes (fuel + 1) s =
      if lib.cell_id cell ∈ s.seen_cells then bfs_loop max_nodes fuel { s with queue }
      else if max_nodes ≤ s.nodes then .ok (true, { s with queue })
      else if (visit_cell max_nodes cell { s with queue }).1 then .ok (true, (visit_cell max_nodes cell { s with queue }).2)
      else bfs_loop max_nodes fuel (visit_cell max_nodes cell { s with queue }).2 := by
  rw [bfs_loop, hqueue]

/-- Where the loop ends it has nothing left to see, or it was cut off. -/
theorem bfs_loop_spec (hlib : lib.Lawful) {max_nodes : ℤ} {fuel : ℕ} (h : Walking root max_nodes s)
    {r : Bool × Bfs lib} (hr : bfs_loop max_nodes fuel s = .ok r) :
    (r.1 = false → Walking root max_nodes r.2 ∧ r.2.queue = []) ∧
      (r.1 = true → Sound root r.2 ∧ CutOff root max_nodes r.2) := by
  induction fuel generalizing s with
  | zero => cases hr
  | succ fuel ih =>
    cases hqueue : s.queue with
    | nil =>
      rw [bfs_loop, hqueue] at hr
      obtain rfl := Except.ok.inj hr
      exact ⟨fun _ => ⟨h, hqueue⟩, fun htrue => absurd htrue Bool.false_ne_true⟩
    | cons cell queue =>
      rw [bfs_loop_cons fuel hqueue] at hr
      split at hr
      · rename_i hseen
        exact ih (h.skip hqueue hseen) hr
      · rename_i hnew
        split at hr
        · rename_i hfull
          obtain rfl := Except.ok.inj hr
          obtain ⟨hcell, hsound⟩ := h.sound.dequeue hqueue
          have hcut : CutOff root max_nodes { s with queue } := ⟨hfull, .inl ⟨cell, hcell, hnew⟩⟩
          exact ⟨fun hfalse => absurd hfalse.symm Bool.false_ne_true, fun _ => ⟨hsound, hcut⟩⟩
        · rename_i hroom
          obtain ⟨-, hgoes, hcut⟩ := h.visit hlib hqueue hnew hroom
          split at hr
          · rename_i htrue
            obtain rfl := Except.ok.inj hr
            exact ⟨fun hfalse => absurd hfalse.symm Bool.false_ne_true, fun _ => hcut htrue⟩
          · rename_i hfalse
            exact ih (hgoes (by simpa using hfalse)) hr

/-- Each turn sees one more cell or shortens the queue. -/
theorem bfs_loop_ends (hlib : lib.Lawful) {max_nodes : ℤ} (h : Walking root max_nodes s) :
    ∃ fuel r, bfs_loop max_nodes fuel s = .ok r := by
  have := hlib.finite
  induction hk : Set.ncard { c | lib.cell_id c ∉ s.seen_cells } using Nat.strongRecOn generalizing s with
  | ind k ihk =>
    induction hqueue : s.queue generalizing s with
    | nil => exact ⟨1, (false, s), by rw [bfs_loop, hqueue]⟩
    | cons cell queue ihq =>
      by_cases hseen : lib.cell_id cell ∈ s.seen_cells
      · obtain ⟨fuel, r, hr⟩ := ihq (h.skip hqueue hseen) hk rfl
        exact ⟨fuel + 1, r, by rw [bfs_loop_cons fuel hqueue, if_pos hseen, hr]⟩
      · by_cases hroom : max_nodes ≤ s.nodes
        · exact ⟨1, _, by rw [bfs_loop_cons 0 hqueue, if_neg hseen, if_pos hroom]⟩
        · obtain ⟨hcells, hgoes, -⟩ := h.visit hlib hqueue hseen hroom
          cases hcut : (visit_cell max_nodes cell { s with queue }).1 with
          | true => exact ⟨1, _, by rw [bfs_loop_cons 0 hqueue, if_neg hseen, if_neg hroom, if_pos hcut]⟩
          | false =>
            have hfewer : Set.ncard
                { c | lib.cell_id c ∉ (visit_cell max_nodes cell { s with queue }).2.seen_cells } < k := by
              rw [hcells, ← hk]
              refine Set.ncard_lt_ncard ⟨fun c hc hold => ?_, fun hback => ?_⟩ (Set.toFinite _)
              · exact hc (List.mem_cons_of_mem _ hold)
              · exact hback (show cell ∈ { c | lib.cell_id c ∉ s.seen_cells } from hseen) List.mem_cons_self
            obtain ⟨fuel, r, hr⟩ := ihk _ hfewer (hgoes hcut) rfl
            refine ⟨fuel + 1, r, ?_⟩
            rw [bfs_loop_cons fuel hqueue, if_neg hseen, if_neg hroom, if_neg (by simp [hcut]), hr]

/-! ## The closure, and its size -/

/-- Once the queue is empty every cell of the closure was seen. -/
theorem Walking.cells_seen {max_nodes : ℤ} (h : Walking root max_nodes s) (hqueue : s.queue = []) {c : lib.Cell}
    (hc : UpstreamCell root c) : lib.cell_id c ∈ s.seen_cells := by
  have hseen : ∀ c, Waiting s c → lib.cell_id c ∈ s.seen_cells := by
    intro c hwaits
    rcases hwaits with hseen | hwaits
    · exact hseen
    · rw [hqueue] at hwaits
      cases hwaits
  induction hc with
  | root => exact hseen _ h.root_waits
  | @input c i p _ hwrites htraced hreads ih => exact hseen i ((h.merged c ih p hwrites htraced).reads i hreads).2

theorem Walking.merged_upstream {max_nodes : ℤ} (h : Walking root max_nodes s) (hqueue : s.queue = []) {c : lib.Cell}
    {p : lib.Propagator} (hc : UpstreamCell root c) (hp : is_tracer_propagator lib p = false)
    (hwrites : p ∈ lib.cell_dependents c) : Merged s c p :=
  h.merged c (h.cells_seen hqueue hc) p hwrites hp

/-- Ids that were seen once each are at most as many as what they identify, and as many
only if all of it was seen. -/
theorem length_seen {α : Type} {id : α → String} (hid : Function.Injective id) {closure : Set α}
    (hfinite : closure.Finite) {seen : List String} (hnodup : seen.Nodup) (hseen : ∀ x ∈ seen, ∃ c, c ∈ closure ∧ id c = x) :
    seen.length ≤ closure.ncard ∧ (seen.length = closure.ncard ↔ ∀ c ∈ closure, id c ∈ seen) := by
  have hlength : Set.ncard { x | x ∈ seen } = seen.length := by
    rw [← List.coe_toFinset, Set.ncard_coe_finset, List.toFinset_card_of_nodup hnodup]
  have himage : (id '' closure).ncard = closure.ncard := Set.ncard_image_of_injective closure hid
  have hsubset : { x | x ∈ seen } ⊆ id '' closure := fun x hx => hseen x hx
  rw [← hlength, ← himage]
  refine ⟨Set.ncard_le_ncard hsubset (hfinite.image id), fun hsame c hc => ?_, fun hall => ?_⟩
  · have heq := Set.eq_of_subset_of_ncard_le hsubset hsame.ge (hfinite.image id)
    have hmem : id c ∈ { x | x ∈ seen } := heq ▸ Set.mem_image_of_mem id hc
    exact hmem
  · refine congrArg Set.ncard (hsubset.antisymm ?_)
    rintro - ⟨c, hc, rfl⟩
    exact hall c hc

theorem CellLibrary.Lawful.finite_upstreamProp (hlib : lib.Lawful) (root : lib.Cell) :
    { p | UpstreamProp root p }.Finite := by
  have := hlib.finite
  have hall := Set.finite_iUnion (f := fun c => { p | p ∈ lib.cell_dependents c })
    fun c => (lib.cell_dependents c).finite_toSet
  refine hall.subset ?_
  rintro p ⟨-, c, -, hwrites⟩
  exact Set.mem_iUnion.2 ⟨c, hwrites⟩

/-- What was seen is the whole closure, or smaller than it. -/
theorem Sound.nodes_le (hlib : lib.Lawful) (hs : Sound root s) :
    s.nodes ≤ upstreamSize root ∧ (s.nodes = upstreamSize root ↔
      (∀ c, UpstreamCell root c → lib.cell_id c ∈ s.seen_cells) ∧
        ∀ p, UpstreamProp root p → lib.propagator_id p ∈ s.seen_props) := by
  have := hlib.finite
  obtain ⟨hcells, hcells_iff⟩ := length_seen hlib.cell_id_injective (Set.toFinite { c | UpstreamCell root c })
    hs.nodup_cells fun x hx => (hs.cells x hx).2
  obtain ⟨hprops, hprops_iff⟩ := length_seen hlib.propagator_id_injective (hlib.finite_upstreamProp root)
    hs.nodup_props fun x hx => (hs.props x hx).2
  have hcount := hs.count
  have hsize : upstreamSize root = Set.ncard { c | UpstreamCell root c } + Set.ncard { p | UpstreamProp root p } := rfl
  refine ⟨by omega, fun hsame => ⟨hcells_iff.1 (by omega), hprops_iff.1 (by omega)⟩, fun ⟨hc, hp⟩ => ?_⟩
  have hcells_all := hcells_iff.2 hc
  have hprops_all := hprops_iff.2 hp
  omega

/-- A search that was cut off met a closure too large for it. -/
theorem CutOff.lt_size (hlib : lib.Lawful) {max_nodes : ℤ} (hs : Sound root s) (hcut : CutOff root max_nodes s) :
    max_nodes < upstreamSize root := by
  obtain ⟨hfull, hmissing⟩ := hcut
  obtain ⟨hle, hiff⟩ := hs.nodes_le hlib
  have hne : s.nodes ≠ upstreamSize root := by
    intro hsame
    obtain ⟨hcells, hprops⟩ := hiff.1 hsame
    rcases hmissing with ⟨c, hc, hunseen⟩ | ⟨p, hp, hunseen⟩
    · exact hunseen (hcells c hc)
    · exact hunseen (hprops p hp)
  omega

/-- A search that saw all it queued has seen the closure, and had room for it. -/
theorem Walking.size_le (hlib : lib.Lawful) {max_nodes : ℤ} (h : Walking root max_nodes s) (hqueue : s.queue = []) :
    (upstreamSize root : ℤ) ≤ max_nodes := by
  have hprops : ∀ p, UpstreamProp root p → lib.propagator_id p ∈ s.seen_props := by
    rintro p ⟨htraced, c, hc, hwrites⟩
    exact (h.merged_upstream hqueue hc htraced hwrites).seen
  have hsize := (h.sound.nodes_le hlib).2.2 ⟨fun c hc => h.cells_seen hqueue hc, hprops⟩
  have hroot : 0 < s.seen_cells.length := List.length_pos_of_mem (h.cells_seen hqueue .root)
  have hcount := h.sound.count
  rcases h.room with hroom | hroom
  · omega
  · omega

/-- Its graph is the closure. -/
theorem Walking.graph_exact (hlib : lib.Lawful) {max_nodes : ℤ} (h : Walking root max_nodes s) (hqueue : s.queue = []) :
    (∀ id, s.graph.hasNode id = true ↔ UpstreamId root id) ∧ ∀ e, e ∈ s.graph.edges ↔ UpstreamEdge root e := by
  refine ⟨fun id => ⟨h.sound.nodes id, ?_⟩, fun e => ⟨h.sound.edges e, ?_⟩⟩
  · rintro (⟨c, hc, rfl⟩ | ⟨p, ⟨htraced, c, hc, hwrites⟩, rfl⟩)
    · exact (h.sound.cells _ (h.cells_seen hqueue hc)).1
    · exact (h.sound.props _ (h.merged_upstream hqueue hc htraced hwrites).seen).1
  · rintro (⟨p, c, hp, hc, hwrites, rfl⟩ | ⟨p, i, ⟨htraced, c, hc, hwrites⟩, hreads, rfl⟩)
    · exact (h.merged_upstream hqueue hc hp.1 ((hlib.dependents c p).2 hwrites)).writes
    · exact ((h.merged_upstream hqueue hc htraced hwrites).reads i hreads).1

/-- The search ends; it is truncated exactly if the closure is larger than the limit,
and otherwise has drawn the closure. -/
theorem upstream_bfs_exact (hlib : lib.Lawful) (root : lib.Cell) (max_nodes : ℤ) :
    Returns (fun fuel => upstream_bfs fuel root max_nodes) fun r =>
      (r.1 = true ↔ max_nodes < upstreamSize root) ∧
        (r.1 = false → (∀ id, r.2.hasNode id = true ↔ UpstreamId root id) ∧ ∀ e, e ∈ r.2.edges ↔ UpstreamEdge root e) := by
  have hstart := Walking.start root max_nodes
  obtain ⟨fuel, r, hr⟩ := bfs_loop_ends hlib hstart
  have hresult : upstream_bfs fuel root max_nodes = .ok (r.1, r.2.graph) := by
    rw [upstream_bfs, hr]
    rfl
  refine ⟨⟨fuel, (r.1, r.2.graph), hresult⟩, fun fuel' r' hr' => ?_⟩
  obtain ⟨s, hs, hr'⟩ := except_bind_eq_ok hr'
  obtain rfl := Except.ok.inj hr'
  obtain ⟨hdone, hcut⟩ := bfs_loop_spec hlib hstart hs
  dsimp only
  cases htruncated : s.1 with
  | true =>
    obtain ⟨hsound, hcut⟩ := hcut htruncated
    exact ⟨iff_of_true rfl (hcut.lt_size hlib hsound), fun h => absurd h.symm Bool.false_ne_true⟩
  | false =>
    obtain ⟨hwalking, hqueue⟩ := hdone htruncated
    have hsize := hwalking.size_le hlib hqueue
    exact ⟨iff_of_false Bool.false_ne_true (by omega), fun _ => hwalking.graph_exact hlib hqueue⟩

/-- Two cells that feed each other; a tracer reads one and writes the other. -/
def feedback : CellLibrary where
  Cell := Fin 2
  Propagator := Fin 3
  cell_id c := ["a", "b"][c]
  create_cell_label c := ["CELL|a", "CELL|b"][c]
  cell_dependents c := [[1], [0, 2]][c]
  propagator_id p := ["p", "q", "t"][p]
  propagator_name p := ["add", "sub", "a|tracer"][p]
  create_propagator_label p := ["PROPAGATOR|add", "PROPAGATOR|sub", "PROPAGATOR|a|tracer"][p]
  propagator_inputs p := [[0], [1], [0]][p]
  propagator_outputs p := [[1], [0], [1]][p]

theorem feedback_lawful : feedback.Lawful where
  finite := inferInstanceAs (Finite (Fin 2))
  dependents := by
    change ∀ (c : Fin 2) (p : Fin 3), p ∈ ([[1], [0, 2]] : List (List (Fin 3)))[c] ↔
      c ∈ ([[1], [0], [1]] : List (List (Fin 2)))[p]
    decide
  cell_id_injective := by
    change Function.Injective fun c : Fin 2 => ["a", "b"][c]
    decide
  propagator_id_injective := by
    change Function.Injective fun p : Fin 3 => ["p", "q", "t"][p]
    decide
  ids_apart := by
    change ∀ (c : Fin 2) (p : Fin 3), ["a", "b"][c] ≠ ["p", "q", "t"][p]
    decide

/-- The root of the feedback network. -/
def feedbackRoot : feedback.Cell := (0 : Fin 2)

theorem upstream_bfs_exact_feedback :
    Returns (fun fuel => upstream_bfs fuel feedbackRoot 3) fun r =>
      (r.1 = true ↔ 3 < (upstreamSize feedbackRoot : ℤ)) ∧
        (r.1 = false → (∀ id, r.2.hasNode id = true ↔ UpstreamId feedbackRoot id) ∧
          ∀ e, e ∈ r.2.edges ↔ UpstreamEdge feedbackRoot e) :=
  upstream_bfs_exact feedback_lawful feedbackRoot 3

end LainLang.Tracer
