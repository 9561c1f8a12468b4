import LainLang.Tracer.Neighbourhood
/-!
# The network of a card

`graph_query_card_network` starts from the cells whose label begins with
`CARD|<id>` and returns everything connected with them, in either direction.
The prefix has no separator after the id, so the cells of a card whose id goes
on after it are started from, too.
-/
open LainLang.Lib LainLang.Js

namespace LainLang.Tracer

/-! ## Names of card cells -/

def SEP : String := "|"

def CARD_HEADER : String := "CARD"

/-- Parts joined by `SEP`. -/
def make_name (parts : List String) : String := SEP.intercalate parts

/-- The name of a slot cell. -/
def create_card_cell_name (cardId slot : String) : String := make_name [CARD_HEADER, cardId, slot]

/-- A cell of a card, or of one of its slots. -/
structure CardCell where
  card_id : String
  slot : Option String

/-- The label of a cell of a card. -/
def CardCell.label (cell : CardCell) : String :=
  cell.slot.elim (make_name [CARD_HEADER, cell.card_id]) (create_card_cell_name cell.card_id)

/-- A traced graph, with the nodes that are cells of cards. -/
structure TracedCards where
  graph : DirectedGraph
  cell : String → Option CardCell
  /-- The cells of cards are labelled by their card and slot. -/
  labelled : ∀ id card, cell id = some card →
    ∃ attrs, graph.nodes.get? id = some attrs ∧ get_attr attrs "label" = .str card.label

/-- The node is a cell of the card. -/
def TracedCards.Owns (traced : TracedCards) (card_id id : String) : Prop :=
  ∃ card, traced.cell id = some card ∧ card.card_id = card_id

/-! ## Connected components -/

/-- The sources of the edges that end in the node. -/
def DirectedGraph.inNeighbors (graph : DirectedGraph) (id : String) : List String :=
  (graph.edges.filter fun e => e.2 = id).map Prod.fst

theorem DirectedGraph.mem_inNeighbors {graph : DirectedGraph} {id source : String} :
    source ∈ graph.inNeighbors id ↔ (source, id) ∈ graph.edges := by
  simp [inNeighbors]

/-- The nodes next to a node, whatever the direction of the edge. -/
def neighbors (graph : DirectedGraph) (id : String) : List String := graph.inNeighbors id ++ graph.outNeighbors id

/-- The `while` loop of `connected_component`. -/
def spread (graph : DirectedGraph) : ℕ → List String → List String → Run (List String)
  | 0, _, _ => .error .outOfFuel
  | _ + 1, [], visited => .ok visited
  | fuel + 1, current :: queue, visited =>
    if current ∈ visited ∨ graph.hasNode current = false then spread graph fuel queue visited
    else spread graph fuel (queue ++ graph.inNeighbors current ++ graph.outNeighbors current) (visited ++ [current])

/-- `connected_component`: edges are followed both ways. -/
def connected_component (fuel : ℕ) (graph : DirectedGraph) (seed_ids : List String) : Run DirectedGraph := do
  let visited ← spread graph fuel seed_ids []
  return induced_subgraph_from_ids graph visited

/-- `graph_query_card_network`: seeds by label prefix, then their component. -/
def graph_query_card_network (next_logic_var_id fuel : ℕ) (graph : DirectedGraph) (card_id : String) :
    Run DirectedGraph := do
  let seed_ids ← query_node_ids next_logic_var_id fuel
    (fun node_var => label_prefix graph node_var (.str ("CARD|" ++ card_id))) none
  connected_component fuel graph seed_ids

/-- Joined by edges, whatever their direction. -/
def Connected (graph : DirectedGraph) : String → String → Prop :=
  Relation.ReflTransGen fun a b => (a, b) ∈ graph.edges ∨ (b, a) ∈ graph.edges

theorem neighbors_hasNode {graph : DirectedGraph} {id x : String} (h : x ∈ neighbors graph id) :
    graph.hasNode x = true := by
  rcases List.mem_append.1 h with h | h
  · exact (graph.ends _ (DirectedGraph.mem_inNeighbors.1 h)).1
  · exact DirectedGraph.outNeighbors_has h

theorem connected_iff_explored {graph : DirectedGraph} {seeds : List String} {x : String} :
    Explored (neighbors graph) seeds [] x ↔ ∃ s ∈ seeds, Connected graph s x := by
  have hstep : (fun a b => b ∈ neighbors graph a) = fun a b => (a, b) ∈ graph.edges ∨ (b, a) ∈ graph.edges := by
    funext a b
    rw [neighbors, List.mem_append, DirectedGraph.mem_inNeighbors, DirectedGraph.mem_outNeighbors, or_comm]
  rw [explored_iff_path, hstep]
  rfl

/-- The loop is a worklist: what it queues are nodes of the graph. -/
theorem spread_eq {graph : DirectedGraph} {n : ℕ} {queue visited taken : List String}
    (hqueue : ∀ q ∈ queue, graph.hasNode q = true) (htaken : ∀ x, x ∈ taken ↔ x ∈ visited) :
    spread graph n queue visited =
      worklist .outOfFuel (neighbors graph) (fun visited current => visited ++ [current]) n queue taken visited := by
  induction n generalizing queue visited taken with
  | zero => rfl
  | succ n ih =>
    cases queue with
    | nil => rfl
    | cons current queue =>
      rw [List.forall_mem_cons] at hqueue
      rw [spread, worklist]
      -- Nodes in the queue are in the graph, so only `visited` stops the loop.
      by_cases hmem : current ∈ visited
      · rw [if_pos (.inl hmem), if_pos ((htaken current).2 hmem), ih hqueue.2 htaken]
      · have hnew : ¬ (current ∈ visited ∨ graph.hasNode current = false) := by simp [hmem, hqueue.1]
        have hnext : ∀ q ∈ queue ++ neighbors graph current, graph.hasNode q = true := by
          intro q hq
          rcases List.mem_append.1 hq with hq | hq
          · exact hqueue.2 q hq
          · exact neighbors_hasNode hq
        have hnew' : current ∉ taken := fun h => hmem ((htaken current).1 h)
        rw [if_neg hnew, if_neg hnew', List.append_assoc, ← neighbors, ih hnext fun x => ?_]
        rw [List.mem_cons, List.mem_append, List.mem_singleton, htaken, or_comm]

theorem foldl_snoc {α : Type} (xs acc : List α) : xs.foldl (fun acc x => acc ++ [x]) acc = acc ++ xs := by
  induction xs generalizing acc with
  | nil => simp
  | cons x xs ih => rw [List.foldl_cons, ih, List.append_assoc, List.singleton_append]

theorem spread_grows (graph : DirectedGraph) (queue visited : List String) :
    Grows .outOfFuel (fun n => spread graph n queue visited) := by
  intro n
  induction n generalizing queue visited with
  | zero => exact fun m _ => .inl ⟨_, rfl, rfl⟩
  | succ n ih =>
    intro m hnm
    obtain ⟨m, rfl⟩ := Nat.exists_eq_add_one.2 (by omega : 0 < m)
    cases queue with
    | nil => exact .refl _
    | cons current queue =>
      simp only [spread]
      split
      · exact ih _ _ m (by omega)
      · exact ih _ _ m (by omega)

/-- The component of some nodes is what is connected with one of them. -/
theorem spread_returns {graph : DirectedGraph} {seeds : List String} (hseeds : ∀ s ∈ seeds, graph.hasNode s = true) :
    Returns (fun n => spread graph n seeds []) fun visited => ∀ x, x ∈ visited ↔ ∃ s ∈ seeds, Connected graph s x := by
  have heq := fun n => @spread_eq graph n seeds [] [] hseeds fun _ => Iff.rfl
  obtain ⟨n, visited, hrun⟩ := @worklist_ends _ _ _ _ Stop.outOfFuel (neighbors graph)
    (fun visited current => visited ++ [current]) graph.nodes.keys
    (fun _ _ y hy => (graph.nodes.has_iff_mem_keys y).1 (neighbors_hasNode hy)) seeds
    (fun s hs => (graph.nodes.has_iff_mem_keys s).1 (hseeds s hs)) [] []
  refine .of_ok (spread_grows graph seeds []) ((heq n).trans hrun) fun x => ?_
  obtain ⟨order, rfl, -, horder⟩ := worklist_spec hrun
  rw [foldl_snoc, List.nil_append, horder, connected_iff_explored]

/-! ## The query -/

/-- The label of the node begins with the prefix. -/
def LabelBegins (graph : DirectedGraph) (start id : String) : Prop :=
  ∃ attrs raw_label, graph.nodes.get? id = some attrs ∧ get_attr attrs "label" = .str raw_label ∧
    startsWith raw_label start = true

section
variable {next k : ℕ} {graph : DirectedGraph}

theorem label_states (start : String) : ∃ ids : List String, (∀ id, id ∈ ids ↔ LabelBegins graph start id) ∧
    label_prefix graph (nodeVar next).term (.str start) bind_unchecked (k + 2) (startState next) =
      .ok (ids.map (nodeState next)) := by
  have hresolve : resolve (k + 2) (.str start) (startState next).subst = .ok (.str start) := by
    rw [resolve, substitute, resolve_str]
    rfl
  obtain ⟨ids, hids⟩ : ∃ ids : List String, labelRows graph (startsWith · start) (nodeVar next).term =
      ids.map fun id => [((nodeVar next).term, .str id)] := by
    rw [labelRows]
    exact ⟨_, (List.map_map (g := fun id => [((nodeVar next).term, Term.str id)]) (f := Prod.fst)).symm⟩
  refine ⟨ids, fun id => ?_, ?_⟩
  · -- A node is an answer if it has a row.
    have hrow : id ∈ ids ↔ [((nodeVar next).term, .str id)] ∈ labelRows graph (startsWith · start) (nodeVar next).term := by
      rw [hids]
      simp [Term.str]
    rw [hrow, mem_labelRows, LabelBegins]
    constructor
    · rintro ⟨id', attrs, raw_label, hid, hlabel, htest, heq⟩
      have hsame : id' = id := by simpa [Term.str] using heq
      exact ⟨attrs, raw_label, hsame ▸ hid, hlabel, htest⟩
    · rintro ⟨attrs, raw_label, hid, hlabel, htest⟩
      exact ⟨id, attrs, raw_label, hid, hlabel, htest, rfl⟩
  · unfold label_prefix label_test
    rw [hresolve, except_bind_ok]
    dsimp only [Term.str]
    rw [hids, ← node_rows]

end

theorem label_prefix_regular (graph : DirectedGraph) (start : String) (t : Term) :
    Regular <| label_prefix graph t (.str start) := regular_label_test startsWith graph t _

/-- The seeds of the query. -/
theorem seeds_return (next : ℕ) (graph : DirectedGraph) (start : String) :
    Returns (fun fuel => query_node_ids next fuel (fun node_var => label_prefix graph node_var (.str start)) none)
      fun ids => ∀ id, id ∈ ids ↔ LabelBegins graph start id := by
  obtain ⟨ids, hids, hstates⟩ := @label_states next 1 graph start
  refine .of_ok (query_node_ids_grows (label_prefix_regular graph start) next none)
    (@query_node_ids_eq next 0 (fun node_var => label_prefix graph node_var (.str start)) ids hstates) fun id => ?_
  rw [List.mem_eraseDups, hids]

/-- The query returns what is connected with a node whose label begins with
`CARD|<id>`. -/
theorem card_network_returns (next : ℕ) (graph : DirectedGraph) (card_id : String) :
    Returns (fun fuel => graph_query_card_network next fuel graph card_id)
      fun sub => Induced graph sub fun m => ∃ s, LabelBegins graph ("CARD|" ++ card_id) s ∧ Connected graph s m := by
  have hspread := fun seeds => spread_grows graph seeds []
  have hcomponent : ∀ seeds, Grows .outOfFuel (fun fuel => connected_component fuel graph seeds) :=
    fun seeds => (hspread seeds).bind fun _ => .const _
  refine .bind (query_node_ids_grows (label_prefix_regular graph _) next none) hcomponent (seeds_return next graph _)
    fun seeds hseeds => ?_
  -- A label stands at a node, so the seeds are nodes.
  have hnodes : ∀ s ∈ seeds, graph.hasNode s = true := by
    intro s hs
    obtain ⟨attrs, -, hattrs, -⟩ := (hseeds s).1 hs
    exact (OrdMap.has_iff ..).2 ⟨attrs, hattrs⟩
  refine .bind (hspread seeds) (fun visited => .const (.ok (induced_subgraph_from_ids graph visited)))
    (spread_returns hnodes) fun visited hvisited => .ok ?_
  refine (induced_subgraph_spec graph visited).congr fun m _ => ?_
  simp only [hvisited, hseeds]

/-- The label of a card's cell begins with `CARD|<id>`. -/
theorem TracedCards.owns_labelBegins {traced : TracedCards} {card_id id : String} (h : traced.Owns card_id id) :
    LabelBegins traced.graph ("CARD|" ++ card_id) id := by
  obtain ⟨card, hcell, rfl⟩ := h
  obtain ⟨attrs, hattrs, hlabel⟩ := traced.labelled id card hcell
  refine ⟨attrs, card.label, hattrs, hlabel, ?_⟩
  have hstart : ∃ rest, card.label.toList = ("CARD|" ++ card.card_id).toList ++ rest := by
    unfold CardCell.label
    cases card.slot with
    | none => exact ⟨[], by simp [make_name, SEP, CARD_HEADER]⟩
    | some slot => exact ⟨("|" ++ slot).toList, by simp [create_card_cell_name, make_name, SEP, CARD_HEADER]⟩
  obtain ⟨rest, hrest⟩ := hstart
  rw [startsWith, hrest, List.isPrefixOf_iff_prefix]
  exact List.prefix_append _ _

/-- The network of a card is what is connected with a cell of that very card. -/
def CardNetworkExact (traced : TracedCards) (card_id : String) : Prop :=
  ∀ next, Returns (fun fuel => graph_query_card_network next fuel traced.graph card_id)
    fun sub => Induced traced.graph sub fun m => ∃ c, traced.Owns card_id c ∧ Connected traced.graph c m

/-- The query returns every node whose label begins with `CARD|<id>`. -/
theorem CardNetworkExact.begins {traced : TracedCards} {card_id : String} (h : CardNetworkExact traced card_id)
    {s : String} (hs : LabelBegins traced.graph ("CARD|" ++ card_id) s) :
    ∃ c, traced.Owns card_id c ∧ Connected traced.graph c s := by
  obtain ⟨fuel, sub, hrun⟩ := (h 0).1
  have hsub := (card_network_returns 0 traced.graph card_id).2 fuel sub hrun
  have hnode : traced.graph.hasNode s = true := by
    obtain ⟨attrs, -, hattrs, -⟩ := hs
    exact (OrdMap.has_iff ..).2 ⟨attrs, hattrs⟩
  exact (hsub.iff.1 ((h 0).2 fuel sub hrun) s hnode).1 ⟨s, hs, .refl⟩

/-- The query is right if and only if every node whose label begins with
`CARD|<id>` is connected with a cell of the card. -/
theorem card_network_exact_iff (traced : TracedCards) (card_id : String) : CardNetworkExact traced card_id ↔
    ∀ s, LabelBegins traced.graph ("CARD|" ++ card_id) s → ∃ c, traced.Owns card_id c ∧ Connected traced.graph c s := by
  constructor
  · exact fun h s hs => h.begins hs
  · intro h next
    refine (card_network_returns next traced.graph card_id).mono fun sub hsub => hsub.congr fun m _ => ?_
    constructor
    · rintro ⟨s, hs, hsm⟩
      obtain ⟨c, hc, hcs⟩ := h s hs
      exact ⟨c, hc, hcs.trans hsm⟩
    · rintro ⟨c, hc, hcm⟩
      exact ⟨c, TracedCards.owns_labelBegins hc, hcm⟩

/-- The cells of the cards `1` and `10`. -/
def twoCardNodes : OrdMap String Attributes :=
  (OrdMap.empty.set "x" [("label", .str "CARD|1|::this")]).set "y" [("label", .str "CARD|10|::this")]

/-- One cell of card `1` and one of card `10`, not connected. -/
def twoCards : TracedCards where
  graph := { nodes := twoCardNodes, edges := [], nodup := List.nodup_nil, ends := by simp }
  cell := fun id =>
    if id = "x" then some { card_id := "1", slot := some "::this" }
    else if id = "y" then some { card_id := "10", slot := some "::this" }
    else none
  labelled := by
    intro id card h
    split at h
    · cases h
      exact ⟨[("label", .str "CARD|1|::this")], by subst_vars; decide +kernel, by decide +kernel⟩
    · split at h
      · cases h
        exact ⟨[("label", .str "CARD|10|::this")], by subst_vars; decide +kernel, by decide +kernel⟩
      · cases h

/-- The network of card `1` has the cell of card `10` in it. -/
theorem longer_id_included :
    (graph_query_card_network 0 9 twoCards.graph "1").toOption.map (·.nodes.keys) = some ["x", "y"] ∧
      ¬ CardNetworkExact twoCards "1" := by
  refine ⟨by decide +kernel, fun h => ?_⟩
  have hlabel : LabelBegins twoCards.graph ("CARD|" ++ "1") "y" :=
    ⟨[("label", .str "CARD|10|::this")], "CARD|10|::this", by decide +kernel, by decide +kernel, by decide +kernel⟩
  obtain ⟨c, ⟨card, hcell, hcard⟩, hconnected⟩ := h.begins hlabel
  -- Without edges a node is connected with itself only.
  have hc : c = "y" := by
    cases hconnected using Relation.ReflTransGen.head_induction_on with
    | refl => rfl
    | head hedge _ => simp [twoCards] at hedge
  subst hc
  simp only [twoCards] at hcell
  cases hcell
  exact absurd hcard (by decide)

end LainLang.Tracer
