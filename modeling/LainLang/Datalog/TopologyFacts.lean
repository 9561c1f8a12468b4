import LainLang.Datalog.Orientation
import LainLang.Datalog.TracedGraph
import LainLang.Tracer.Traverse
/-!
# The live network as facts

`snapshot_topology_facts` lists what the registers know of each cell and propagator.
The graph of these facts has the attributes the tracer reads off the network itself,
and its edges are the inputs and outputs of the propagators.
-/
open LainLang.Lib LainLang.Js

namespace LainLang.Datalog

open LainLang.Tracer (DirectedGraph Attributes emptyGraph)

/-! ## The network -/

/-- A base value that is neither undefined nor null. `to_string` may throw, `text` is what
`String` makes of it. -/
structure BaseValue where
  is_nothing : Bool
  to_string : Option String
  text : String

/-- A cell of the register. -/
structure NetworkCell where
  cell_id : String
  cell_name : String
  cell_level : JsNumber
  cell_strongest_base_value : Option BaseValue

/-- The value that the snapshot has a fact about. -/
def NetworkCell.value (cell : NetworkCell) : Option String := cell.cell_strongest_base_value.bind BaseValue.to_string

/-- A propagator of the register, with the ids of the cells it reads and writes. -/
structure NetworkPropagator where
  propagator_id : String
  getName : String
  propagator_level : JsNumber
  getInputs : List String
  getOutputs : List String

/-- What `cell_snapshot()` and `propagator_snapshot()` return. -/
structure LiveNetwork where
  cell_snapshot : List NetworkCell
  propagator_snapshot : List NetworkPropagator

/-- The first segment of the label. -/
def label_to_namespace (label : String) : String := Tracer.firstSegment label

/-- The facts of one cell. -/
def NetworkCell.facts (cell : NetworkCell) : List Fact :=
  [["cell", cell.cell_id, cell.cell_name], ["kind", cell.cell_id, "cell"],
    ["namespace", cell.cell_id, label_to_namespace cell.cell_name], ["level", cell.cell_id, cell.cell_level.toText],
    ["label", cell.cell_id, cell.cell_name]] ++ (cell.value.map fun val => ["value", cell.cell_id, val]).toList

/-- The facts of one propagator, its reads and writes at the end. -/
def NetworkPropagator.facts (prop : NetworkPropagator) : List Fact :=
  [["propagator", prop.propagator_id, prop.getName], ["kind", prop.propagator_id, "prop"],
    ["namespace", prop.propagator_id, label_to_namespace prop.getName],
    ["level", prop.propagator_id, prop.propagator_level.toText], ["label", prop.propagator_id, prop.getName]] ++
    prop.getInputs.map (fun input => ["reads", prop.propagator_id, input]) ++
    prop.getOutputs.map fun output => ["writes", prop.propagator_id, output]

/-- `snapshot_topology_facts`: cells first. -/
def snapshot_topology_facts (net : LiveNetwork) : List Fact :=
  net.cell_snapshot.flatMap NetworkCell.facts ++ net.propagator_snapshot.flatMap NetworkPropagator.facts

/-- What the tracer reads of a cell. It has a text of its own for a value, and none for
the nothing. -/
def NetworkCell.item (cell : NetworkCell) : Tracer.Item where
  is_cell := true
  is_propagator := false
  name := cell.cell_name
  level := cell.cell_level
  value := (cell.cell_strongest_base_value.filter fun raw => !raw.is_nothing).map BaseValue.text

/-- The same with the value of the snapshot. -/
def NetworkCell.snapshotItem (cell : NetworkCell) : Tracer.Item := { cell.item with value := cell.value }

/-- The propagator as the tracer sees it. -/
def NetworkPropagator.item (prop : NetworkPropagator) : Tracer.Item :=
  { is_cell := false, is_propagator := true, name := prop.getName, level := prop.propagator_level, value := none }

/-- The propagator reads the first cell and writes the second. -/
def LiveNetwork.Hop (net : LiveNetwork) (a p b : String) : Prop :=
  ∃ prop ∈ net.propagator_snapshot, prop.propagator_id = p ∧ a ∈ prop.getInputs ∧ b ∈ prop.getOutputs

/-- The ids of the cells. -/
def LiveNetwork.cell_ids (net : LiveNetwork) : List String := net.cell_snapshot.map NetworkCell.cell_id

/-- The ids of the propagators. -/
def LiveNetwork.propagator_ids (net : LiveNetwork) : List String := net.propagator_snapshot.map NetworkPropagator.propagator_id

/-- Ids are unique. -/
def LiveNetwork.Lawful (net : LiveNetwork) : Prop := (net.cell_ids ++ net.propagator_ids).Nodup

/-! ## Its facts -/

section
variable {net : LiveNetwork}

theorem mem_snapshot {f : Fact} : f ∈ snapshot_topology_facts net ↔
    (∃ cell ∈ net.cell_snapshot, f ∈ cell.facts) ∨ ∃ prop ∈ net.propagator_snapshot, f ∈ prop.facts := by
  rw [snapshot_topology_facts, List.mem_append, List.mem_flatMap, List.mem_flatMap]

theorem mem_reads {p a : String} : ["reads", p, a] ∈ snapshot_topology_facts net ↔
    ∃ prop ∈ net.propagator_snapshot, prop.propagator_id = p ∧ a ∈ prop.getInputs := by
  simp only [mem_snapshot, NetworkCell.facts, NetworkPropagator.facts]
  simp [and_comm]

theorem mem_writes {p b : String} : ["writes", p, b] ∈ snapshot_topology_facts net ↔
    ∃ prop ∈ net.propagator_snapshot, prop.propagator_id = p ∧ b ∈ prop.getOutputs := by
  simp only [mem_snapshot, NetworkCell.facts, NetworkPropagator.facts]
  simp [and_comm]

/-- The second text of a fact, which is an id. -/
def subject : Fact → Option String
  | _ :: id :: _ => some id
  | _ => none

theorem NetworkCell.facts_shape {cell : NetworkCell} {f : Fact} (h : f ∈ cell.facts) :
    ∃ tag ∈ topologyTags, ∃ text, f = [tag, cell.cell_id, text] := by
  simp only [NetworkCell.facts, List.cons_append, List.nil_append, List.mem_cons, Option.mem_toList,
    Option.map_eq_some_iff] at h
  rcases h with rfl | rfl | rfl | rfl | rfl | ⟨val, -, rfl⟩ <;> exact ⟨_, by decide, _, rfl⟩

theorem NetworkPropagator.facts_shape {prop : NetworkPropagator} {f : Fact} (h : f ∈ prop.facts) :
    ∃ tag ∈ topologyTags, ∃ text, f = [tag, prop.propagator_id, text] := by
  simp only [NetworkPropagator.facts, List.cons_append, List.nil_append, List.mem_cons, List.mem_append, List.mem_map] at h
  rcases h with rfl | rfl | rfl | rfl | rfl | ⟨input, -, rfl⟩ | ⟨output, -, rfl⟩ <;> exact ⟨_, by decide, _, rfl⟩

theorem subject_mem_ids {f : Fact} (hf : f ∈ snapshot_topology_facts net) :
    ∃ tag ∈ topologyTags, ∃ id text, f = [tag, id, text] ∧ (id ∈ net.cell_ids ∨ id ∈ net.propagator_ids) := by
  rcases mem_snapshot.1 hf with ⟨cell, hcell, hf⟩ | ⟨prop, hprop, hf⟩
  · obtain ⟨tag, htag, text, rfl⟩ := cell.facts_shape hf
    exact ⟨tag, htag, _, text, rfl, .inl (List.mem_map_of_mem hcell)⟩
  · obtain ⟨tag, htag, text, rfl⟩ := prop.facts_shape hf
    exact ⟨tag, htag, _, text, rfl, .inr (List.mem_map_of_mem hprop)⟩

theorem snapshot_tagged : Tagged (snapshot_topology_facts net) := by
  intro f hf
  obtain ⟨tag, htag, id, text, rfl, -⟩ := subject_mem_ids hf
  exact ⟨tag, id, text, rfl, htag⟩

/-- One step of the facts is one propagator of the network. -/
theorem hop_iff (hnet : net.Lawful) {a p b : String} : net.Hop a p b ↔
    ["reads", p, a] ∈ snapshot_topology_facts net ∧ ["writes", p, b] ∈ snapshot_topology_facts net := by
  rw [mem_reads, mem_writes]
  constructor
  · rintro ⟨prop, hprop, hp, ha, hb⟩
    exact ⟨⟨prop, hprop, hp, ha⟩, ⟨prop, hprop, hp, hb⟩⟩
  · rintro ⟨⟨prop, hprop, hp, ha⟩, ⟨prop', hprop', hp', hb⟩⟩
    have hnodup := (List.nodup_append.1 hnet).2.1
    obtain rfl := List.inj_on_of_nodup_map hnodup hprop hprop' (hp.trans hp'.symm)
    exact ⟨prop, hprop, hp, ha, hb⟩

theorem flows_iff (hnet : net.Lawful) {a b : String} : Flows (snapshot_topology_facts net) a b ↔ ∃ p, net.Hop a p b :=
  exists_congr fun _ => (hop_iff hnet).symm

end

/-! ## The attributes of its graph -/

theorem ensure_collectFact (Number : String → JsNumber) {keepIds : List String} {id : String} (hid : id ∈ keepIds)
    (byId : OrdMap String NodeAttrAcc) (f : Fact) : ensure (collectFact Number keepIds byId f) id =
      if subject f = some id then readFact Number (ensure byId id) f else ensure byId id := by
  unfold collectFact
  match f with
  | tag :: other :: rest =>
    by_cases hother : other = id
    · simp [subject, ensure, hother, hid]
    · have hne : id ≠ other := fun heq => hother heq.symm
      simp only [subject, Option.some.injEq, hother, if_false, ensure]
      split
      · rw [OrdMap.get?_set, if_neg hne]
      · rfl
  | [] | [_] => rfl

/-- The attributes of an id are read off the facts about it, in their order. -/
theorem ensure_collectAttrs (Number : String → JsNumber) {keepIds : List String} {id : String} (hid : id ∈ keepIds)
    (facts : List Fact) : ensure (collectAttrs Number facts keepIds) id =
      (facts.filter fun f => decide (subject f = some id)).foldl (readFact Number) (.initial id) := by
  suffices h : ∀ byId, ensure (facts.foldl (collectFact Number keepIds) byId) id =
      (facts.filter fun f => decide (subject f = some id)).foldl (readFact Number) (ensure byId id) from h OrdMap.empty
  induction facts with
  | nil => exact fun _ => rfl
  | cons f facts ih =>
    intro byId
    rw [List.foldl_cons, ih, ensure_collectFact Number hid, List.filter_cons]
    by_cases hf : subject f = some id <;> simp [hf]

/-- Of entries with keys of their own, the one with a key gives the facts about it. -/
theorem filter_flatMap_key {α : Type} {key : α → String} {entries : α → List Fact}
    (hentries : ∀ x, ∀ f ∈ entries x, subject f = some (key x)) (l : List α) (hnodup : (l.map key).Nodup) (id : String) :
    (∀ x ∈ l, key x = id → (l.flatMap entries).filter (fun f => decide (subject f = some id)) = entries x) ∧
      (id ∉ l.map key → (l.flatMap entries).filter (fun f => decide (subject f = some id)) = []) := by
  have hsame : ∀ x, key x = id → (entries x).filter (fun f => decide (subject f = some id)) = entries x := by
    rintro x rfl
    exact List.filter_eq_self.2 fun f hf => decide_eq_true (hentries x f hf)
  have hother : ∀ x, key x ≠ id → (entries x).filter (fun f => decide (subject f = some id)) = [] := by
    intro x hx
    refine List.filter_eq_nil_iff.2 fun f hf hid => hx ?_
    have hsubject := of_decide_eq_true hid
    rwa [hentries x f hf, Option.some.injEq] at hsubject
  have hnone : ∀ l : List α, id ∉ l.map key → (l.flatMap entries).filter (fun f => decide (subject f = some id)) = [] := by
    intro l hid
    rw [List.filter_flatMap, List.flatMap_eq_nil_iff]
    exact fun x hx => hother x fun heq => hid (heq ▸ List.mem_map_of_mem hx)
  refine ⟨?_, hnone l⟩
  induction l with
  | nil => simp
  | cons y l ih =>
    rw [List.map_cons, List.nodup_cons] at hnodup
    intro x hx hkey
    rw [List.flatMap_cons, List.filter_append]
    rcases List.mem_cons.1 hx with rfl | hx
    · rw [hsame x hkey, hnone l (hkey ▸ hnodup.1), List.append_nil]
    · have hne : key y ≠ id := fun heq => hnodup.1 (heq ▸ hkey ▸ List.mem_map_of_mem hx)
      rw [hother y hne, List.nil_append, ih hnodup.2 x hx hkey]

/-! ## The graph of facts, over any ids -/

section
variable {keepIds : List String}

/-- A fact adds its edge if both ends are kept. -/
theorem mem_addFactEdge_kept {graph : DirectedGraph} (hnodes : ∀ id ∈ keepIds, graph.nodes.has id = true) (f : Fact)
    (e : String × String) : e ∈ (addFactEdge keepIds graph f).edges ↔
      e ∈ graph.edges ∨ factEdge f = some e ∧ e.1 ∈ keepIds ∧ e.2 ∈ keepIds := by
  by_cases hkept : ∀ a b, factEdge f = some (a, b) → a ∈ keepIds ∧ b ∈ keepIds
  · rw [mem_addFactEdge hnodes hkept]
    refine or_congr_right ⟨fun h => ⟨h, hkept e.1 e.2 h⟩, And.left⟩
  · push Not at hkept
    obtain ⟨a, b, hedge, hab⟩ := hkept
    have hsame : addFactEdge keepIds graph f = graph := by
      unfold factEdge at hedge
      unfold addFactEdge
      split at hedge
      · rename_i tag propId cellId rest
        split at hedge
        · obtain ⟨rfl, rfl⟩ := Prod.mk.inj (Option.some.inj hedge)
          rename_i htag
          rw [if_pos htag, if_neg fun h => hab h.2.1 h.1]
        · rename_i hreads
          split at hedge
          · obtain ⟨rfl, rfl⟩ := Prod.mk.inj (Option.some.inj hedge)
            rename_i htag
            rw [if_neg hreads, if_pos htag, if_neg fun h => hab h.1 h.2.1]
          · cases hedge
      · cases hedge
    rw [hsame, hedge]
    refine (or_iff_left ?_).symm
    rintro ⟨heq, ha, hb⟩
    obtain rfl := Option.some.inj heq
    exact hab ha hb

theorem foldl_edges_kept (facts : List Fact) {graph : DirectedGraph} (hnodes : ∀ id ∈ keepIds, graph.nodes.has id = true) :
    (facts.foldl (addFactEdge keepIds) graph).nodes = graph.nodes ∧ ∀ e, e ∈ (facts.foldl (addFactEdge keepIds) graph).edges ↔
      e ∈ graph.edges ∨ ∃ f ∈ facts, factEdge f = some e ∧ e.1 ∈ keepIds ∧ e.2 ∈ keepIds := by
  induction facts generalizing graph with
  | nil => simp
  | cons f facts ih =>
    have hsame := addFactEdge_nodes keepIds graph f
    obtain ⟨hn, he⟩ := ih (hsame.symm ▸ hnodes)
    refine ⟨by rw [List.foldl_cons, hn, hsame], fun e => ?_⟩
    rw [List.foldl_cons, he, mem_addFactEdge_kept hnodes]
    simp [or_assoc]

/-- The nodes are the ids with what was collected, the edges those between them. -/
theorem graphology_kept (Number : String → JsNumber) (facts : List Fact) (hnodup : keepIds.Nodup) :
    (∀ id, (graphology_from_topology_facts Number facts keepIds).hasNode id = true ↔ id ∈ keepIds) ∧
    (∀ id ∈ keepIds, (graphology_from_topology_facts Number facts keepIds).nodes.get? id =
      some (ensure (collectAttrs Number facts keepIds) id).attributes) ∧
    ∀ e, e ∈ (graphology_from_topology_facts Number facts keepIds).edges ↔
      e.1 ∈ keepIds ∧ e.2 ∈ keepIds ∧ ∃ f ∈ facts, factEdge f = some e := by
  let byId := collectAttrs Number facts keepIds
  let nodes := keepIds.map fun id => (id, (ensure byId id).attributes)
  have hhas := nodes_has byId keepIds emptyGraph
  have hmerge : keepIds.foldl (fun graph id => graph.mergeNode id (ensure byId id).attributes) emptyGraph =
      Tracer.mergeNodes (fun _ => true) nodes emptyGraph := by
    rw [Tracer.mergeNodes, List.foldl_map]
    rfl
  have hkeys : (nodes.map Prod.fst).Nodup := by
    simpa [nodes, Function.comp_def] using hnodup
  obtain ⟨hn, he⟩ := foldl_edges_kept facts fun id hid => (hhas id).2 (.inl hid)
  refine ⟨fun id => ?_, fun id hid => ?_, fun e => ?_⟩
  · rw [DirectedGraph.hasNode, graphology_from_topology_facts, hn, hhas]
    simp [emptyGraph]
  · rw [graphology_from_topology_facts, hn, hmerge, Tracer.mergeNodes_get? hkeys (fun _ _ => rfl)]
    exact .inr ⟨List.mem_map_of_mem hid, rfl⟩
  · rw [graphology_from_topology_facts, he, nodes_edges]
    simp only [emptyGraph, List.not_mem_nil, false_or]
    constructor
    · rintro ⟨f, hf, hedge, h1, h2⟩
      exact ⟨h1, h2, f, hf, hedge⟩
    · rintro ⟨h1, h2, f, hf, hedge⟩
      exact ⟨f, hf, hedge, h1, h2⟩

end

/-! ## The graph of the network -/

section
variable {net : LiveNetwork}

/-- The texts of levels are read back. -/
def ReadsLevels (Number : String → JsNumber) (net : LiveNetwork) : Prop :=
  (∀ cell ∈ net.cell_snapshot, ∃ d, cell.cell_level = .finite d ∧ Number cell.cell_level.toText = .finite d) ∧
    ∀ prop ∈ net.propagator_snapshot, ∃ d, prop.propagator_level = .finite d ∧ Number prop.propagator_level.toText = .finite d

theorem NetworkCell.subject_facts (cell : NetworkCell) : ∀ f ∈ cell.facts, subject f = some cell.cell_id := by
  intro f hf
  obtain ⟨tag, -, text, rfl⟩ := cell.facts_shape hf
  rfl

theorem NetworkPropagator.subject_facts (prop : NetworkPropagator) :
    ∀ f ∈ prop.facts, subject f = some prop.propagator_id := by
  intro f hf
  obtain ⟨tag, -, text, rfl⟩ := prop.facts_shape hf
  rfl

/-- The facts about an id are those of its cell, of its propagator, or none. -/
theorem facts_about (hnet : net.Lawful) (id : String) :
    (∀ cell ∈ net.cell_snapshot, cell.cell_id = id →
      (snapshot_topology_facts net).filter (fun f => decide (subject f = some id)) = cell.facts) ∧
    (∀ prop ∈ net.propagator_snapshot, prop.propagator_id = id →
      (snapshot_topology_facts net).filter (fun f => decide (subject f = some id)) = prop.facts) ∧
    (id ∉ net.cell_ids → id ∉ net.propagator_ids →
      (snapshot_topology_facts net).filter (fun f => decide (subject f = some id)) = []) := by
  obtain ⟨hcells, hprops, -⟩ := List.nodup_append.1 hnet
  have hdisjoint := List.disjoint_of_nodup_append hnet
  obtain ⟨hcell, hnocell⟩ := filter_flatMap_key NetworkCell.subject_facts net.cell_snapshot hcells id
  obtain ⟨hprop, hnoprop⟩ := filter_flatMap_key NetworkPropagator.subject_facts net.propagator_snapshot hprops id
  rw [snapshot_topology_facts, List.filter_append]
  refine ⟨fun cell hmem hid => ?_, fun prop hmem hid => ?_, fun hc hp => ?_⟩
  · have hnot : id ∉ net.propagator_ids := hdisjoint (hid ▸ List.mem_map_of_mem hmem)
    rw [hcell cell hmem hid, hnoprop hnot, List.append_nil]
  · have hnot : id ∉ net.cell_ids := fun h => hdisjoint h (hid ▸ List.mem_map_of_mem hmem)
    rw [hprop prop hmem hid, hnocell hnot, List.nil_append]
  · rw [hnocell hc, hnoprop hp, List.nil_append]

/-- Reads and writes say nothing of attributes. -/
theorem readFact_edges (Number : String → JsNumber) (tag id : String) (htag : tag = "reads" ∨ tag = "writes")
    (texts : List String) (acc : NodeAttrAcc) : (texts.map fun text => [tag, id, text]).foldl (readFact Number) acc = acc := by
  induction texts with
  | nil => rfl
  | cons text texts ih =>
    rw [List.map_cons, List.foldl_cons]
    rcases htag with rfl | rfl <;> exact ih

theorem cell_attributes {Number : String → JsNumber} {cell : NetworkCell} {d : Decimal} (hlevel : cell.cell_level = .finite d)
    (hread : Number cell.cell_level.toText = .finite d) :
    (cell.facts.foldl (readFact Number) (.initial cell.cell_id)).attributes = Tracer.node_attrs cell.snapshotItem := by
  have hparse : parse_level Number cell.cell_level.toText = cell.cell_level := by rw [parse_level, hread, hlevel]
  rw [NetworkCell.facts, List.foldl_append]
  cases hvalue : cell.value with
  | none =>
    simp [readFact, NodeAttrAcc.initial, NodeAttrAcc.attributes, hparse, Tracer.node_attrs, NetworkCell.snapshotItem,
      NetworkCell.item, Tracer.create_label, hvalue, label_to_namespace]
  | some val =>
    simp [readFact, NodeAttrAcc.initial, NodeAttrAcc.attributes, hparse, Tracer.node_attrs, NetworkCell.snapshotItem,
      NetworkCell.item, Tracer.create_label, hvalue, label_to_namespace]

theorem propagator_attributes {Number : String → JsNumber} {prop : NetworkPropagator} {d : Decimal}
    (hlevel : prop.propagator_level = .finite d) (hread : Number prop.propagator_level.toText = .finite d) :
    (prop.facts.foldl (readFact Number) (.initial prop.propagator_id)).attributes = Tracer.node_attrs prop.item := by
  have hparse : parse_level Number prop.propagator_level.toText = prop.propagator_level := by rw [parse_level, hread, hlevel]
  rw [NetworkPropagator.facts, List.foldl_append, List.foldl_append, readFact_edges Number "reads" _ (.inl rfl),
    readFact_edges Number "writes" _ (.inr rfl)]
  simp [readFact, NodeAttrAcc.initial, NodeAttrAcc.attributes, hparse, Tracer.node_attrs, NetworkPropagator.item,
    Tracer.create_label, label_to_namespace]

/-- The edges of the snapshot are the inputs and outputs. -/
theorem snapshot_edge (x y : String) : (∃ f ∈ snapshot_topology_facts net, factEdge f = some (x, y)) ↔
    ∃ prop ∈ net.propagator_snapshot, prop.propagator_id = y ∧ x ∈ prop.getInputs ∨
      prop.propagator_id = x ∧ y ∈ prop.getOutputs := by
  constructor
  · rintro ⟨f, hf, hedge⟩
    obtain ⟨tag, -, id, text, rfl, -⟩ := subject_mem_ids hf
    simp only [factEdge] at hedge
    split at hedge
    · rename_i htag
      obtain ⟨rfl, rfl⟩ := Prod.mk.inj (Option.some.inj hedge)
      obtain ⟨prop, hprop, hid, htext⟩ := mem_reads.1 (htag ▸ hf)
      exact ⟨prop, hprop, .inl ⟨hid, htext⟩⟩
    · split at hedge
      · rename_i htag
        obtain ⟨rfl, rfl⟩ := Prod.mk.inj (Option.some.inj hedge)
        obtain ⟨prop, hprop, hid, htext⟩ := mem_writes.1 (htag ▸ hf)
        exact ⟨prop, hprop, .inr ⟨hid, htext⟩⟩
      · cases hedge
  · rintro ⟨prop, hprop, ⟨hid, hx⟩ | ⟨hid, hy⟩⟩
    · exact ⟨_, mem_reads.2 ⟨prop, hprop, hid, hx⟩, rfl⟩
    · exact ⟨_, mem_writes.2 ⟨prop, hprop, hid, hy⟩, rfl⟩

/-- The value is an attribute of its own. -/
theorem node_attrs_value {item : Tracer.Item} (hcell : item.is_cell = true) (value : Option String) :
    Tracer.node_attrs { item with value } = Tracer.node_attrs item ↔ value = item.value := by
  unfold Tracer.node_attrs
  simp only [Tracer.create_label, hcell, if_true, List.append_cancel_left_eq]
  cases value <;> cases item.value <;> simp [Tracer.Term.str]

/-- The graph over any ids of the network has them as its nodes, with the attributes that
the tracer reads off the network, but for the value of a cell the text of the snapshot,
and the inputs and outputs between them as its edges. An id the registers do not know is
drawn as a cell of no namespace. -/
theorem snapshot_graph {Number : String → JsNumber} (hnet : net.Lawful) (hlevels : ReadsLevels Number net)
    {keepIds : List String} (hkeep : keepIds.Nodup) :
    let graph := graphology_from_topology_facts Number (snapshot_topology_facts net) keepIds
    (∀ id, graph.hasNode id = true ↔ id ∈ keepIds) ∧
    (∀ cell ∈ net.cell_snapshot, cell.cell_id ∈ keepIds →
      graph.nodes.get? cell.cell_id = some (Tracer.node_attrs { cell.item with value := cell.value }) ∧
      (graph.nodes.get? cell.cell_id = some (Tracer.node_attrs cell.item) ↔ cell.value = cell.item.value)) ∧
    (∀ prop ∈ net.propagator_snapshot, prop.propagator_id ∈ keepIds →
      graph.nodes.get? prop.propagator_id = some (Tracer.node_attrs prop.item)) ∧
    (∀ id ∈ keepIds, id ∉ net.cell_ids → id ∉ net.propagator_ids →
      graph.nodes.get? id = some (NodeAttrAcc.initial id).attributes) ∧
    ∀ x y, (x, y) ∈ graph.edges ↔ x ∈ keepIds ∧ y ∈ keepIds ∧ ∃ prop ∈ net.propagator_snapshot,
      prop.propagator_id = y ∧ x ∈ prop.getInputs ∨ prop.propagator_id = x ∧ y ∈ prop.getOutputs := by
  obtain ⟨hnodes, hattrs, hedges⟩ := graphology_kept Number (snapshot_topology_facts net) hkeep
  refine ⟨hnodes, fun cell hcell hid => ?_, fun prop hprop hid => ?_, fun id hid hc hp => ?_, fun x y => ?_⟩
  · obtain ⟨d, hlevel, hread⟩ := hlevels.1 cell hcell
    rw [hattrs _ hid, ensure_collectAttrs Number hid, (facts_about hnet _).1 cell hcell rfl, cell_attributes hlevel hread]
    exact ⟨rfl, Option.some_inj.trans (@node_attrs_value cell.item rfl cell.value)⟩
  · obtain ⟨d, hlevel, hread⟩ := hlevels.2 prop hprop
    rw [hattrs _ hid, ensure_collectAttrs Number hid, (facts_about hnet _).2.1 prop hprop rfl,
      propagator_attributes hlevel hread]
  · rw [hattrs _ hid, ensure_collectAttrs Number hid, (facts_about hnet _).2.2 hc hp]
    rfl
  · rw [hedges (x, y), snapshot_edge]

end

/-- Two cells with a propagator between them, as the registers have them. -/
def pairNetwork : LiveNetwork where
  cell_snapshot := [⟨"a", "Core|first", .ofNat 0, some ⟨false, some "1", "1"⟩⟩,
    ⟨"b", "second", .ofNat 1, some ⟨true, some "&&the_nothing&&", "&&the_nothing&&"⟩⟩]
  propagator_snapshot := [⟨"p", "Core|copy", .ofNat 0, ["a"], ["b"]⟩]

/-- `Number` on the texts of the levels of `pairNetwork`. -/
def readLevel (s : String) : JsNumber := if s = "0" then .ofNat 0 else if s = "1" then .ofNat 1 else .nan

theorem pairNetwork_lawful : pairNetwork.Lawful := by
  unfold LiveNetwork.Lawful
  decide

theorem pairNetwork_levels : ReadsLevels readLevel pairNetwork := by
  constructor
  · intro cell hcell
    simp only [pairNetwork, List.mem_cons, List.not_mem_nil, or_false] at hcell
    rcases hcell with rfl | rfl <;> exact ⟨_, rfl, by decide⟩
  · intro prop hprop
    obtain rfl := List.mem_singleton.1 hprop
    exact ⟨_, rfl, by decide⟩

/-- The graph has no value for an id the registers do not know, and one for the nothing. -/
theorem snapshot_graph_pair :
    let graph := graphology_from_topology_facts readLevel (snapshot_topology_facts pairNetwork) ["p", "a", "b", "x"]
    (∀ id, graph.hasNode id = true ↔ id ∈ ["p", "a", "b", "x"]) ∧
    (∀ cell ∈ pairNetwork.cell_snapshot, cell.cell_id ∈ ["p", "a", "b", "x"] →
      graph.nodes.get? cell.cell_id = some (Tracer.node_attrs { cell.item with value := cell.value }) ∧
      (graph.nodes.get? cell.cell_id = some (Tracer.node_attrs cell.item) ↔ cell.value = cell.item.value)) ∧
    (∀ prop ∈ pairNetwork.propagator_snapshot, prop.propagator_id ∈ ["p", "a", "b", "x"] →
      graph.nodes.get? prop.propagator_id = some (Tracer.node_attrs prop.item)) ∧
    (∀ id ∈ ["p", "a", "b", "x"], id ∉ pairNetwork.cell_ids → id ∉ pairNetwork.propagator_ids →
      graph.nodes.get? id = some (NodeAttrAcc.initial id).attributes) ∧
    ∀ x y, (x, y) ∈ graph.edges ↔ x ∈ ["p", "a", "b", "x"] ∧ y ∈ ["p", "a", "b", "x"] ∧
      ∃ prop ∈ pairNetwork.propagator_snapshot,
        prop.propagator_id = y ∧ x ∈ prop.getInputs ∨ prop.propagator_id = x ∧ y ∈ prop.getOutputs :=
  snapshot_graph pairNetwork_lawful pairNetwork_levels (by decide)

end LainLang.Datalog
