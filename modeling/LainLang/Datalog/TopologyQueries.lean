import LainLang.Datalog.TopologyFacts
/-!
# Programs over the live network

The selecting programs find the nodes of a snapshot that the graph combinators keep of
its graph. The path programs name the walks of one, two and three steps, each with its
propagators and cells, and `connected_to_program` finds the ends of walks of any length.
-/
open LainLang.Lib LainLang.Js

namespace LainLang.Datalog

open LainLang.Tracer (DirectedGraph NodeKind)

/-! ## Selecting nodes -/

/-- Ids whose namespace starts with the text. -/
def cell_namespace_program (start : String) (strategy : ExecutionStrategy) : LogicProgram :=
  program strategy [rule (atom "ns_match" [.V "X"])
    [.atom (atom "kind" [.V "X", .V "_K"]), .atom (atom "namespace" [.V "X", .V "NS"]), StartsWith (.V "NS") start]]

/-- The two texts of `kind` in a snapshot. -/
def snapshotKind : NodeKind → String
  | .cell => "cell"
  | .propagator => "prop"

/-- Ids of the kind. -/
def cell_kind_program (kind : NodeKind) (strategy : ExecutionStrategy) : LogicProgram :=
  program strategy [rule (atom "kind_match" [.V "X"]) [.atom (atom "kind" [.V "X", .str (snapshotKind kind)])]]

/-- Ids of the level. -/
def cell_level_program (level : JsNumber) (strategy : ExecutionStrategy) : LogicProgram :=
  program strategy [rule (atom "level_match" [.V "X"]) [.atom (atom "level" [.V "X", .str level.toText])]]

/-! ## Walks -/

/-- One propagator from cell to cell. -/
def hopRule : ExtendedRule :=
  rule (atom "hop" [.V "From", .V "P", .V "To"]) [.atom (atom "reads" [.V "P", .V "From"]), .atom (atom "writes" [.V "P", .V "To"])]

/-- Two propagators in a row. -/
def path2Rule : ExtendedRule :=
  rule (atom "path2" [.V "S", .V "P1", .V "M", .V "P2", .V "T"])
    [.atom (atom "hop" [.V "S", .V "P1", .V "M"]), .atom (atom "hop" [.V "M", .V "P2", .V "T"])]

/-- Three propagators in a row. -/
def path3Rule : ExtendedRule :=
  rule (atom "path3" [.V "S", .V "P1", .V "M1", .V "P2", .V "M2", .V "P3", .V "T"])
    [.atom (atom "hop" [.V "S", .V "P1", .V "M1"]), .atom (atom "hop" [.V "M1", .V "P2", .V "M2"]),
      .atom (atom "hop" [.V "M2", .V "P3", .V "T"])]

/-- Cells with one propagator between them. -/
def topology_hop_program : LogicProgram := program .semi_naive [hopRule]

/-- `topology_path2_program`, composed with the hops. -/
def topology_path2_program : LogicProgram := compose_programs topology_hop_program (program .semi_naive [path2Rule]) none

/-- `topology_path3_program`, composed with the paths of two. -/
def topology_path3_program : LogicProgram := compose_programs topology_path2_program (program .semi_naive [path3Rule]) none

/-- `reachable_from` the source, beside reachability. -/
def reachableFromRule (source_id : String) : ExtendedRule :=
  rule (atom "reachable_from" [.V "B"]) [.atom (atom "reachable" [.str source_id, .V "B"])]

/-- Reachability, and what the source reaches. -/
def connected_to_program (source_id : String) (strategy : ExecutionStrategy) : LogicProgram :=
  program strategy [flowsToRule, reachableRule, reachableStepRule, reachableFromRule source_id]

/-- The steps lead from the first cell to the last, each through a propagator into a cell. -/
inductive LiveNetwork.Walk (net : LiveNetwork) : String → List (String × String) → String → Prop where
  | nil (a : String) : Walk net a [] a
  | cons {a p b c : String} {steps : List (String × String)} : net.Hop a p b → Walk net b steps c →
      Walk net a ((p, b) :: steps) c

/-- The predicate for walks of so many steps. -/
def walkPredicate : ℕ → String
  | 1 => "hop"
  | 2 => "path2"
  | _ => "path3"

/-- The fact that names a walk from a cell. -/
def walkFact (a : String) (steps : List (String × String)) : Fact :=
  walkPredicate steps.length :: a :: steps.flatMap fun step => [step.1, step.2]

/-! ## What the registers say of an id -/

section
variable {net : LiveNetwork}

/-- The id is that of a cell or a propagator, which the snapshot draws as the item. -/
def LiveNetwork.Entry (net : LiveNetwork) (id : String) (item : Tracer.Item) : Prop :=
  (∃ cell ∈ net.cell_snapshot, cell.cell_id = id ∧ cell.snapshotItem = item) ∨
    ∃ prop ∈ net.propagator_snapshot, prop.propagator_id = id ∧ prop.item = item

/-- The kind of an item. -/
def itemKind (item : Tracer.Item) : NodeKind := if item.is_cell then .cell else .propagator

/-- A fact that both kinds of entries read off their items. -/
theorem mem_entry {tag id text : String} {read : Tracer.Item → String}
    (hcell : ∀ cell : NetworkCell, [tag, id, text] ∈ cell.facts ↔ cell.cell_id = id ∧ read cell.snapshotItem = text)
    (hprop : ∀ prop : NetworkPropagator, [tag, id, text] ∈ prop.facts ↔ prop.propagator_id = id ∧ read prop.item = text) :
    [tag, id, text] ∈ snapshot_topology_facts net ↔ ∃ item, net.Entry id item ∧ read item = text := by
  simp only [mem_snapshot, hcell, hprop]
  constructor
  · rintro (⟨cell, hmem, hid, htext⟩ | ⟨prop, hmem, hid, htext⟩)
    · exact ⟨cell.snapshotItem, .inl ⟨cell, hmem, hid, rfl⟩, htext⟩
    · exact ⟨prop.item, .inr ⟨prop, hmem, hid, rfl⟩, htext⟩
  · rintro ⟨item, ⟨cell, hmem, hid, rfl⟩ | ⟨prop, hmem, hid, rfl⟩, htext⟩
    · exact .inl ⟨cell, hmem, hid, htext⟩
    · exact .inr ⟨prop, hmem, hid, htext⟩

theorem mem_kind {id kind : String} : ["kind", id, kind] ∈ snapshot_topology_facts net ↔
    ∃ item, net.Entry id item ∧ snapshotKind (itemKind item) = kind := by
  refine @mem_entry net _ _ _ (fun item => snapshotKind (itemKind item)) (fun cell => ?_) fun prop => ?_
  · simp [NetworkCell.facts, NetworkCell.snapshotItem, NetworkCell.item, itemKind, snapshotKind, eq_comm]
  · simp [NetworkPropagator.facts, NetworkPropagator.item, itemKind, snapshotKind, eq_comm]

theorem mem_namespace {id ns : String} : ["namespace", id, ns] ∈ snapshot_topology_facts net ↔
    ∃ item, net.Entry id item ∧ label_to_namespace (Tracer.create_label item) = ns := by
  refine @mem_entry net _ _ _ (fun item => label_to_namespace (Tracer.create_label item)) (fun cell => ?_) fun prop => ?_
  · simp [NetworkCell.facts, NetworkCell.snapshotItem, NetworkCell.item, Tracer.create_label, eq_comm]
  · simp [NetworkPropagator.facts, NetworkPropagator.item, Tracer.create_label, eq_comm]

theorem mem_level {id level : String} : ["level", id, level] ∈ snapshot_topology_facts net ↔
    ∃ item, net.Entry id item ∧ item.level.toText = level := by
  refine @mem_entry net _ _ _ (fun item => item.level.toText) (fun cell => ?_) fun prop => ?_
  · simp [NetworkCell.facts, NetworkCell.snapshotItem, NetworkCell.item, eq_comm]
  · simp [NetworkPropagator.facts, NetworkPropagator.item, eq_comm]

/-- The ids of the registers. -/
def LiveNetwork.ids (net : LiveNetwork) : List String := net.cell_ids ++ net.propagator_ids

theorem mem_ids {id : String} : id ∈ net.ids ↔ ∃ item, net.Entry id item := by
  simp only [LiveNetwork.ids, LiveNetwork.cell_ids, LiveNetwork.propagator_ids, List.mem_append, List.mem_map]
  constructor
  · rintro (⟨cell, hmem, hid⟩ | ⟨prop, hmem, hid⟩)
    · exact ⟨_, .inl ⟨cell, hmem, hid, rfl⟩⟩
    · exact ⟨_, .inr ⟨prop, hmem, hid, rfl⟩⟩
  · rintro ⟨item, ⟨cell, hmem, hid, -⟩ | ⟨prop, hmem, hid, -⟩⟩
    · exact .inl ⟨cell, hmem, hid⟩
    · exact .inr ⟨prop, hmem, hid⟩

/-- The nodes of the graph of the whole snapshot are the entries. -/
theorem node_iff_entry {Number : String → JsNumber} (hnet : net.Lawful) (hlevels : ReadsLevels Number net) {id : String}
    {attrs : Tracer.Attributes} :
    (graphology_from_topology_facts Number (snapshot_topology_facts net) net.ids).nodes.get? id = some attrs ↔
      ∃ item, net.Entry id item ∧ Tracer.node_attrs item = attrs := by
  obtain ⟨hnodes, hcells, hprops, -⟩ := @snapshot_graph net Number hnet hlevels net.ids hnet
  have hentry : ∀ item, net.Entry id item →
      (graphology_from_topology_facts Number (snapshot_topology_facts net) net.ids).nodes.get? id = some (Tracer.node_attrs item) := by
    rintro item hitem
    have hid : id ∈ net.ids := mem_ids.2 ⟨item, hitem⟩
    rcases hitem with ⟨cell, hmem, rfl, rfl⟩ | ⟨prop, hmem, rfl, rfl⟩
    · exact (hcells cell hmem hid).1
    · exact hprops prop hmem hid
  constructor
  · intro hget
    obtain ⟨item, hitem⟩ := mem_ids.1 ((hnodes id).1 ((OrdMap.has_iff ..).2 ⟨attrs, hget⟩))
    rw [hentry item hitem, Option.some.injEq] at hget
    exact ⟨item, hitem, hget⟩
  · rintro ⟨item, hitem, rfl⟩
    exact hentry item hitem

end

/-! ## The selecting programs and the combinators -/

/-- What a node's attributes are, whether or not it has a value. -/
theorem get_node_attrs (item : Tracer.Item) :
    Tracer.get_attr (Tracer.node_attrs item) "namespace" = .str (label_to_namespace (Tracer.create_label item)) ∧
      Tracer.get_attr (Tracer.node_attrs item) "kind" = .str (itemKind item).text ∧
        Tracer.get_attr (Tracer.node_attrs item) "relationLevel" = .atom (.num item.level) := by
  unfold Tracer.node_attrs itemKind
  cases item.is_cell <;> exact ⟨rfl, rfl, rfl⟩

theorem snapshotKind_injective {kind kind' : NodeKind} (h : snapshotKind kind = snapshotKind kind') : kind = kind' := by
  cases kind <;> cases kind' <;> first | rfl | (simp [snapshotKind] at h)

theorem text_injective {kind kind' : NodeKind} (h : Tracer.Term.str kind.text = .str kind'.text) : kind = kind' := by
  cases kind <;> cases kind' <;> first | rfl | (simp [NodeKind.text, Tracer.Term.str] at h)

theorem entry_level {Number : String → JsNumber} {net : LiveNetwork} (hlevels : ReadsLevels Number net) {id : String}
    {item : Tracer.Item} (h : net.Entry id item) : ∃ d, item.level = .finite d := by
  rcases h with ⟨cell, hmem, -, rfl⟩ | ⟨prop, hmem, -, rfl⟩
  · obtain ⟨d, hd, -⟩ := hlevels.1 cell hmem
    exact ⟨d, hd⟩
  · obtain ⟨d, hd, -⟩ := hlevels.2 prop hmem
    exact ⟨d, hd⟩

theorem derives_X {body : Assignment → Prop} {head predicate id : String} :
    (∃ σ rest, body σ ∧ Atom.eval σ (atom head [.V "X"]) = predicate :: id :: rest) ↔
      head = predicate ∧ ∃ σ, σ "X" = id ∧ body σ := by
  constructor
  · rintro ⟨σ, rest, hbody, hhead⟩
    simp only [Atom.eval, atom, List.map_cons, Term.eval_str, Term.eval_V, List.map_nil, List.cons.injEq] at hhead
    exact ⟨hhead.1, σ, hhead.2.1, hbody⟩
  · rintro ⟨rfl, σ, rfl, hbody⟩
    exact ⟨σ, [], hbody, rfl⟩

section
variable {net : LiveNetwork} (strategy : ExecutionStrategy)

theorem snapshot_predicate {predicate : String} (h : predicate ∉ topologyTags) (args : List String) :
    predicate :: args ∉ snapshot_topology_facts net := by
  intro hf
  obtain ⟨tag, htag, id, text, heq, -⟩ := subject_mem_ids hf
  exact h ((List.cons.inj heq).1 ▸ htag)

theorem cell_namespace_layer (start : String) : OneLayer topologyTags (cell_namespace_program start strategy).rules :=
  oneLayer_of_check rfl

theorem cell_kind_layer (kind : NodeKind) : OneLayer topologyTags (cell_kind_program kind strategy).rules :=
  oneLayer_of_check rfl

theorem cell_level_layer (level : JsNumber) : OneLayer topologyTags (cell_level_program level strategy).rules :=
  oneLayer_of_check rfl

variable {P : Pmatcher} (hP : P.FirstOrder) {engines : MiniDatalog} (hE : engines.Correct P)
  {Number : String → JsNumber} (hnet : net.Lawful) (hlevels : ReadsLevels Number net)
include hP hE hnet hlevels

theorem reads_cell_namespace (start : String) :
    Reads (fun fuel => evaluate_program P engines fuel (cell_namespace_program start strategy) (snapshot_topology_facts net))
      "ns_match" (Tracer.subgraph_by_namespace
        (graphology_from_topology_facts Number (snapshot_topology_facts net) net.ids) start) := by
  refine reads_of_layer hP hE (cell_namespace_layer strategy start) (snapshot_predicate (by decide)) fun id => ?_
  rw [Tracer.subgraph_by_namespace, Tracer.hasNode_by_predicate]
  simp only [node_iff_entry hnet hlevels, cell_namespace_program, program, rule, List.mem_singleton, exists_eq_left,
    derives_X, AllHold, and_true, true_and, holds_startsWith]
  constructor
  · rintro ⟨σ, rfl, -, hns, hstart⟩
    rw [holds_atom (by decide) (by decide)] at hns
    obtain ⟨item, hitem, hname⟩ := mem_namespace.1 hns
    refine ⟨_, ⟨item, hitem, rfl⟩, ?_⟩
    rw [(get_node_attrs item).1, hname]
    exact hstart
  · rintro ⟨attrs, ⟨item, hitem, rfl⟩, hstart⟩
    rw [(get_node_attrs item).1] at hstart
    let σ : Assignment := fun x => if x = "X" then id else if x = "NS" then label_to_namespace (Tracer.create_label item) else
      snapshotKind (itemKind item)
    refine ⟨σ, rfl, ?_, ?_, hstart⟩
    · rw [holds_atom (by decide) (by decide)]
      exact mem_kind.2 ⟨item, hitem, rfl⟩
    · rw [holds_atom (by decide) (by decide)]
      exact mem_namespace.2 ⟨item, hitem, rfl⟩

theorem reads_cell_kind (kind : NodeKind) :
    Reads (fun fuel => evaluate_program P engines fuel (cell_kind_program kind strategy) (snapshot_topology_facts net))
      "kind_match" (Tracer.subgraph_by_kind
        (graphology_from_topology_facts Number (snapshot_topology_facts net) net.ids) kind) := by
  refine reads_of_layer hP hE (cell_kind_layer strategy kind) (snapshot_predicate (by decide)) fun id => ?_
  rw [Tracer.subgraph_by_kind, Tracer.hasNode_by_predicate]
  simp only [node_iff_entry hnet hlevels, cell_kind_program, program, rule, List.mem_singleton, exists_eq_left,
    derives_X, AllHold, and_true, true_and, decide_eq_true_eq]
  constructor
  · rintro ⟨σ, rfl, hkind⟩
    rw [holds_atom (by decide) (by decide)] at hkind
    obtain ⟨item, hitem, hkind⟩ := mem_kind.1 hkind
    refine ⟨_, ⟨item, hitem, rfl⟩, ?_⟩
    rw [(get_node_attrs item).2.1, snapshotKind_injective hkind]
  · rintro ⟨attrs, ⟨item, hitem, rfl⟩, hkind⟩
    rw [(get_node_attrs item).2.1] at hkind
    refine ⟨fun _ => id, rfl, ?_⟩
    rw [holds_atom (by decide) (by decide)]
    exact mem_kind.2 ⟨item, hitem, by rw [text_injective hkind]; rfl⟩

theorem reads_cell_level (level : Decimal) :
    Reads (fun fuel => evaluate_program P engines fuel (cell_level_program (.finite level) strategy) (snapshot_topology_facts net))
      "level_match" (Tracer.subgraph_by_level
        (graphology_from_topology_facts Number (snapshot_topology_facts net) net.ids) (.finite level)) := by
  refine reads_of_layer hP hE (cell_level_layer strategy (.finite level)) (snapshot_predicate (by decide)) fun id => ?_
  rw [Tracer.subgraph_by_level, Tracer.hasNode_by_predicate]
  simp only [node_iff_entry hnet hlevels, cell_level_program, program, rule, List.mem_singleton, exists_eq_left,
    derives_X, AllHold, and_true, true_and]
  constructor
  · rintro ⟨σ, rfl, hlevel⟩
    rw [holds_atom (by decide) (by decide)] at hlevel
    obtain ⟨item, hitem, htext⟩ := mem_level.1 hlevel
    refine ⟨_, ⟨item, hitem, rfl⟩, ?_⟩
    obtain ⟨d, hd⟩ := entry_level hlevels hitem
    rw [(get_node_attrs item).2.2, hd]
    rw [hd] at htext
    exact toText_eq_iff.1 htext
  · rintro ⟨attrs, ⟨item, hitem, rfl⟩, hlevel⟩
    obtain ⟨d, hd⟩ := entry_level hlevels hitem
    rw [(get_node_attrs item).2.2, hd] at hlevel
    refine ⟨fun _ => id, rfl, ?_⟩
    rw [holds_atom (by decide) (by decide)]
    exact mem_level.2 ⟨item, hitem, by rw [hd]; exact toText_eq_iff.2 hlevel⟩

/-- On every snapshot the programs find the nodes that the combinators keep of its graph. -/
theorem snapshot_queries_agree :
    (∀ start, Reads
      (fun fuel => evaluate_program P engines fuel (cell_namespace_program start strategy) (snapshot_topology_facts net)) "ns_match"
      (Tracer.subgraph_by_namespace (graphology_from_topology_facts Number (snapshot_topology_facts net) net.ids) start)) ∧
    (∀ kind, Reads
      (fun fuel => evaluate_program P engines fuel (cell_kind_program kind strategy) (snapshot_topology_facts net)) "kind_match"
      (Tracer.subgraph_by_kind (graphology_from_topology_facts Number (snapshot_topology_facts net) net.ids) kind)) ∧
    ∀ level : Decimal, Reads
      (fun fuel => evaluate_program P engines fuel (cell_level_program (.finite level) strategy) (snapshot_topology_facts net))
      "level_match"
      (Tracer.subgraph_by_level (graphology_from_topology_facts Number (snapshot_topology_facts net) net.ids) (.finite level)) :=
  ⟨reads_cell_namespace strategy hP hE hnet hlevels, reads_cell_kind strategy hP hE hnet hlevels,
    reads_cell_level strategy hP hE hnet hlevels⟩

end

theorem snapshot_queries_agree_pair :
    Reads (fun fuel => evaluate_program firstOrder naiveEngines fuel (cell_namespace_program "Co" .semi_naive)
        (snapshot_topology_facts pairNetwork)) "ns_match"
      (Tracer.subgraph_by_namespace (graphology_from_topology_facts readLevel (snapshot_topology_facts pairNetwork) ["a", "b", "p"]) "Co") ∧
    Reads (fun fuel => evaluate_program firstOrder naiveEngines fuel (cell_level_program (.ofNat 1) .incremental)
        (snapshot_topology_facts pairNetwork)) "level_match"
      (Tracer.subgraph_by_level (graphology_from_topology_facts readLevel (snapshot_topology_facts pairNetwork) ["a", "b", "p"])
        (.ofNat 1)) := by
  have hall := fun strategy =>
    snapshot_queries_agree strategy firstOrder_firstOrder naiveEngines_correct pairNetwork_lawful pairNetwork_levels
  exact ⟨(hall .semi_naive).1 "Co", (hall .incremental).2.2 (.ofNat 1)⟩

/-! ## What the path programs derive -/

section
variable {net : LiveNetwork}

/-- The facts, with those of the walks of at most `n` steps. -/
def walkModel (net : LiveNetwork) (n : ℕ) : Set Fact :=
  {f | f ∈ snapshot_topology_facts net ∨
    ∃ a steps b, net.Walk a steps b ∧ steps ≠ [] ∧ steps.length ≤ n ∧ f = walkFact a steps}

@[simp] theorem walk_nil {a b : String} : net.Walk a [] b ↔ a = b := by
  constructor
  · rintro ⟨⟩
    rfl
  · rintro rfl
    exact .nil a

@[simp] theorem walk_cons {a p b c : String} {steps : List (String × String)} :
    net.Walk a ((p, b) :: steps) c ↔ net.Hop a p b ∧ net.Walk b steps c := by
  constructor
  · rintro (_ | ⟨hhop, hrest⟩)
    exact ⟨hhop, hrest⟩
  · exact fun h => .cons h.1 h.2

theorem walkModel_zero : walkModel net 0 = {f | f ∈ snapshot_topology_facts net} := by
  ext f
  refine or_iff_left ?_
  rintro ⟨a, steps, b, -, hne, hlen, -⟩
  exact hne (List.eq_nil_of_length_eq_zero (Nat.le_zero.1 hlen))

theorem mem_walkModel_succ {n : ℕ} {f : Fact} : f ∈ walkModel net (n + 1) ↔
    f ∈ walkModel net n ∨ ∃ a steps b, net.Walk a steps b ∧ steps.length = n + 1 ∧ f = walkFact a steps := by
  constructor
  · rintro (hf | ⟨a, steps, b, hwalk, hne, hlen, hfact⟩)
    · exact .inl (.inl hf)
    · rcases Nat.lt_or_eq_of_le hlen with hlt | heq
      · exact .inl (.inr ⟨a, steps, b, hwalk, hne, Nat.le_of_lt_succ hlt, hfact⟩)
      · exact .inr ⟨a, steps, b, hwalk, heq, hfact⟩
  · rintro ((hf | ⟨a, steps, b, hwalk, hne, hlen, hfact⟩) | ⟨a, steps, b, hwalk, hlen, hfact⟩)
    · exact .inl hf
    · exact .inr ⟨a, steps, b, hwalk, hne, hlen.trans (Nat.le_succ n), hfact⟩
    · exact .inr ⟨a, steps, b, hwalk, List.ne_nil_of_length_eq_add_one hlen, hlen.le, hfact⟩

theorem length_walkFact (a : String) (steps : List (String × String)) : (walkFact a steps).length = 2 * steps.length + 2 := by
  rw [walkFact, List.length_cons, List.length_cons]
  induction steps with
  | nil => rfl
  | cons step steps ih =>
    simp only [List.flatMap_cons, List.length_append, List.length_cons, List.length_nil] at ih ⊢
    omega

/-- The facts named `hop` are the walks of one step. -/
theorem walkModel_hop {n : ℕ} {a p b : String} : ["hop", a, p, b] ∈ walkModel net (n + 1) ↔ net.Hop a p b := by
  constructor
  · rintro (hf | ⟨x, steps, y, hwalk, -, -, heq⟩)
    · exact absurd hf (snapshot_predicate (by decide) _)
    · have hlen : steps.length = 1 := by
        have hlength := congrArg List.length heq
        rw [length_walkFact] at hlength
        simp only [List.length_cons, List.length_nil] at hlength
        omega
      obtain ⟨⟨q, c⟩, rfl⟩ := List.length_eq_one_iff.1 hlen
      simp only [walkFact, walkPredicate, List.length_singleton, List.flatMap_cons, List.flatMap_nil, List.append_nil,
        List.cons.injEq, and_true, true_and] at heq
      obtain ⟨rfl, rfl, rfl⟩ := heq
      exact (walk_cons.1 hwalk).1
  · exact fun h => .inr ⟨a, [(p, b)], b, by simp [h], by simp, by simp, rfl⟩

theorem body_hop {I N : Set Fact} {σ : Assignment} :
    AllHold I N σ hopRule.body ↔ ["reads", σ "P", σ "From"] ∈ I ∧ ["writes", σ "P", σ "To"] ∈ I := by
  simp only [hopRule, rule, AllHold, and_true]
  rw [holds_atom (by decide) (by decide), holds_atom (by decide) (by decide)]
  rfl

theorem body_path2 {I N : Set Fact} {σ : Assignment} :
    AllHold I N σ path2Rule.body ↔ ["hop", σ "S", σ "P1", σ "M"] ∈ I ∧ ["hop", σ "M", σ "P2", σ "T"] ∈ I := by
  simp only [path2Rule, rule, AllHold, and_true]
  rw [holds_atom (by decide) (by decide), holds_atom (by decide) (by decide)]
  rfl

theorem body_path3 {I N : Set Fact} {σ : Assignment} : AllHold I N σ path3Rule.body ↔
    ["hop", σ "S", σ "P1", σ "M1"] ∈ I ∧ ["hop", σ "M1", σ "P2", σ "M2"] ∈ I ∧ ["hop", σ "M2", σ "P3", σ "T"] ∈ I := by
  simp only [path3Rule, rule, AllHold, and_true]
  rw [holds_atom (by decide) (by decide), holds_atom (by decide) (by decide), holds_atom (by decide) (by decide)]
  rfl

/-- A rule whose body holds for the walks of `n + 1` steps adds them. -/
theorem least_model_walks {n : ℕ} {r : ExtendedRule} (honce : NoFeedback [r] [r])
    (hbody : ∀ f, (∃ σ, AllHold (walkModel net n) ∅ σ r.body ∧ Atom.eval σ r.head = f) ↔
      ∃ a steps b, net.Walk a steps b ∧ steps.length = n + 1 ∧ f = walkFact a steps) :
    least_model ∅ [r] (walkModel net n) = walkModel net (n + 1) := by
  ext f
  rw [mem_least_model_once honce, mem_walkModel_succ, ← hbody]
  simp

theorem least_model_hop (hnet : net.Lawful) :
    least_model ∅ [hopRule] {f | f ∈ snapshot_topology_facts net} = walkModel net 1 := by
  rw [← walkModel_zero]
  refine least_model_walks (noFeedback_of_check (by decide)) fun f => ?_
  simp only [body_hop, walkModel_zero, Set.mem_ofPred_eq, ← hop_iff hnet]
  constructor
  · rintro ⟨σ, hhop, rfl⟩
    exact ⟨σ "From", [(σ "P", σ "To")], σ "To", by simp [hhop], rfl, rfl⟩
  · rintro ⟨a, steps, b, hwalk, hlen, rfl⟩
    obtain ⟨⟨p, c⟩, rfl⟩ := List.length_eq_one_iff.1 hlen
    let σ : Assignment := fun x => if x = "From" then a else if x = "P" then p else c
    exact ⟨σ, (walk_cons.1 hwalk).1, rfl⟩

theorem least_model_path2 : least_model ∅ [path2Rule] (walkModel net 1) = walkModel net 2 := by
  refine least_model_walks (noFeedback_of_check (by decide)) fun f => ?_
  simp only [body_path2, walkModel_hop]
  constructor
  · rintro ⟨σ, ⟨h1, h2⟩, rfl⟩
    exact ⟨σ "S", [(σ "P1", σ "M"), (σ "P2", σ "T")], σ "T", by simp [h1, h2], rfl, rfl⟩
  · rintro ⟨a, steps, b, hwalk, hlen, rfl⟩
    obtain ⟨⟨p1, m⟩, ⟨p2, t⟩, rfl⟩ := List.length_eq_two.1 hlen
    simp only [walk_cons] at hwalk
    let σ : Assignment := fun x => if x = "S" then a else if x = "P1" then p1 else if x = "M" then m else
      if x = "P2" then p2 else t
    exact ⟨σ, ⟨hwalk.1, hwalk.2.1⟩, rfl⟩

theorem least_model_path3 : least_model ∅ [path3Rule] (walkModel net 2) = walkModel net 3 := by
  refine least_model_walks (noFeedback_of_check (by decide)) fun f => ?_
  simp only [body_path3, walkModel_hop]
  constructor
  · rintro ⟨σ, ⟨h1, h2, h3⟩, rfl⟩
    exact ⟨σ "S", [(σ "P1", σ "M1"), (σ "P2", σ "M2"), (σ "P3", σ "T")], σ "T", by simp [h1, h2, h3], rfl, rfl⟩
  · rintro ⟨a, steps, b, hwalk, hlen, rfl⟩
    obtain ⟨⟨p1, m1⟩, ⟨p2, m2⟩, ⟨p3, t⟩, rfl⟩ := List.length_eq_three.1 hlen
    simp only [walk_cons] at hwalk
    let σ : Assignment := fun x => if x = "S" then a else if x = "P1" then p1 else if x = "M1" then m1 else
      if x = "P2" then p2 else if x = "M2" then m2 else if x = "P3" then p3 else t
    exact ⟨σ, ⟨hwalk.1, hwalk.2.1, hwalk.2.2.1⟩, rfl⟩

theorem Walk.append_hop {a b p c : String} {steps : List (String × String)} (h : net.Walk a steps b) (hhop : net.Hop b p c) :
    net.Walk a (steps ++ [(p, c)]) c := by
  induction h with
  | nil a => simpa using hhop
  | cons hstep _ ih => exact .cons hstep (ih hhop)

/-- Flows of any length are walks of one step or more. -/
theorem flows_iff_walk (hnet : net.Lawful) {a b : String} :
    Relation.TransGen (Flows (snapshot_topology_facts net)) a b ↔ ∃ steps, steps ≠ [] ∧ net.Walk a steps b := by
  constructor
  · intro h
    induction h with
    | single hflow =>
      obtain ⟨p, hhop⟩ := (flows_iff hnet).1 hflow
      exact ⟨_, List.cons_ne_nil _ _, .cons hhop (.nil _)⟩
    | tail _ hflow ih =>
      obtain ⟨p, hhop⟩ := (flows_iff hnet).1 hflow
      obtain ⟨steps, -, hwalk⟩ := ih
      exact ⟨_, by simp, Walk.append_hop hwalk hhop⟩
  · rintro ⟨steps, hne, hwalk⟩
    induction hwalk with
    | nil a => exact absurd rfl hne
    | @cons a p b c steps hhop hrest ih =>
      have hflow : Flows (snapshot_topology_facts net) a b := (flows_iff hnet).2 ⟨p, hhop⟩
      by_cases hnil : steps = []
      · rw [hnil, walk_nil] at hrest
        exact .single (hrest ▸ hflow)
      · exact .head hflow (ih hnil)

theorem path_rules_checked : ∀ r ∈ topology_path3_program.rules, r.safe = true ∧ bodyNegated r.body = [] := by decide

theorem path_rules_subset {n : ℕ} {prog : LogicProgram}
    (h : (n, prog) ∈ [(1, topology_hop_program), (2, topology_path2_program), (3, topology_path3_program)]) :
    prog.rules ⊆ topology_path3_program.rules := by
  simp only [List.mem_cons, Prod.mk.injEq, List.not_mem_nil, or_false] at h
  rcases h with ⟨-, rfl⟩ | ⟨-, rfl⟩ | ⟨-, rfl⟩
  · exact List.Subset.trans (List.subset_append_left _ [path2Rule]) (List.subset_append_left _ _)
  · exact List.subset_append_left _ _
  · exact List.Subset.refl _

theorem rules_path3 : topology_path3_program.rules = [hopRule] ++ [path2Rule] ++ [path3Rule] := rfl

theorem least_model_paths (hnet : net.Lawful) :
    least_model ∅ topology_path2_program.rules {f | f ∈ snapshot_topology_facts net} = walkModel net 2 ∧
      least_model ∅ topology_path3_program.rules {f | f ∈ snapshot_topology_facts net} = walkModel net 3 := by
  have hpath2 : least_model ∅ ([hopRule] ++ [path2Rule]) {f | f ∈ snapshot_topology_facts net} = walkModel net 2 := by
    rw [least_model_stages (noFeedback_of_check (by decide)), least_model_hop hnet, least_model_path2]
  refine ⟨hpath2, ?_⟩
  rw [rules_path3, least_model_stages (noFeedback_of_check (by decide)), hpath2, least_model_path3]

theorem mem_connected (hnet : net.Lawful) (source_id b : String) :
    ["reachable_from", b] ∈ least_model ∅ ([flowsToRule, reachableRule, reachableStepRule] ++ [reachableFromRule source_id])
      {f | f ∈ snapshot_topology_facts net} ↔ ∃ steps, steps ≠ [] ∧ net.Walk source_id steps b := by
  have hfacts := @snapshot_tagged net
  have hbody : ∀ σ : Assignment, AllHold (flowModel (snapshot_topology_facts net)) ∅ σ (reachableFromRule source_id).body ↔
      Relation.TransGen (Flows (snapshot_topology_facts net)) source_id (σ "B") := by
    intro σ
    simp only [reachableFromRule, rule, AllHold, and_true]
    rw [holds_atom (by decide) (by decide), ← flowModel_reachable hfacts]
    rfl
  have hnot : ["reachable_from", b] ∉ flowModel (snapshot_topology_facts net) := by
    rw [flowModel_edb (by decide) (by decide)]
    exact hfacts.no_predicate (by decide)
  rw [least_model_stages (noFeedback_of_check rfl), least_model_flows hfacts, mem_least_model_once (noFeedback_of_check rfl),
    or_iff_right hnot, ← flows_iff_walk hnet]
  simp only [List.mem_singleton, exists_eq_left, hbody]
  constructor
  · rintro ⟨σ, hflow, hhead⟩
    have hb : σ "B" = b := (List.cons.inj (List.cons.inj hhead).2).1
    exact hb ▸ hflow
  · exact fun h => ⟨fun _ => b, h, rfl⟩

end

section
variable {P : Pmatcher} (hP : P.FirstOrder) {engines : MiniDatalog} (hE : engines.Correct P) {net : LiveNetwork}
  (hnet : net.Lawful)
include hP hE hnet

/-- Each path program derives the walks up to its length, each with its propagators and
cells, and no other fact, and `connected_to_program` the ends of all walks from the source. -/
theorem path_programs_walks (source_id : String) (strategy : ExecutionStrategy) :
    (∀ n prog, (n, prog) ∈ [(1, topology_hop_program), (2, topology_path2_program), (3, topology_path3_program)] →
      (∃ fuel facts, evaluate_program P engines fuel prog (snapshot_topology_facts net) = some facts) ∧
      ∀ fuel facts, evaluate_program P engines fuel prog (snapshot_topology_facts net) = some facts → ∀ f, f ∈ facts ↔
        f ∈ snapshot_topology_facts net ∨
          ∃ a steps b, net.Walk a steps b ∧ steps ≠ [] ∧ steps.length ≤ n ∧ f = walkFact a steps) ∧
    (∃ fuel facts, evaluate_program P engines fuel (connected_to_program source_id strategy) (snapshot_topology_facts net) =
      some facts) ∧
    ∀ fuel facts, evaluate_program P engines fuel (connected_to_program source_id strategy) (snapshot_topology_facts net) =
      some facts → ∀ b, ["reachable_from", b] ∈ facts ↔ ∃ steps, steps ≠ [] ∧ net.Walk source_id steps b := by
  refine ⟨fun n prog hprog => ⟨evaluate_program_ends hP engines _ _, fun fuel facts h f => ?_⟩,
    evaluate_program_ends hP engines _ _, fun fuel facts h b => ?_⟩
  · have hmodel : least_model ∅ prog.rules {f | f ∈ snapshot_topology_facts net} = walkModel net n := by
      simp only [List.mem_cons, Prod.mk.injEq, List.not_mem_nil, or_false] at hprog
      rcases hprog with ⟨rfl, rfl⟩ | ⟨rfl, rfl⟩ | ⟨rfl, rfl⟩
      · exact least_model_hop hnet
      · exact (least_model_paths hnet).1
      · exact (least_model_paths hnet).2
    have hsafe := fun r hr => path_rules_checked r (path_rules_subset hprog hr)
    rw [evaluate_program_model hP hE (fun r hr => safe_of_check (hsafe r hr).1) (fun r hr => (hsafe r hr).2) h, hmodel]
    rfl
  · have hrules : ∀ r ∈ (connected_to_program source_id strategy).rules, r.safe = true ∧ bodyNegated r.body = [] := by
      intro r hr
      simp only [connected_to_program, program, List.mem_cons, List.not_mem_nil, or_false] at hr
      rcases hr with rfl | rfl | rfl | rfl <;> exact ⟨rfl, rfl⟩
    rw [evaluate_program_model hP hE (fun r hr => safe_of_check (hrules r hr).1) (fun r hr => (hrules r hr).2) h]
    exact mem_connected hnet source_id b

end

theorem path_programs_walks_pair : ∃ facts connected,
    (∃ fuel, evaluate_program firstOrder naiveEngines fuel topology_path3_program (snapshot_topology_facts pairNetwork) =
      some facts) ∧ ["hop", "a", "p", "b"] ∈ facts ∧
    (∃ fuel, evaluate_program firstOrder naiveEngines fuel (connected_to_program "a" .incremental)
      (snapshot_topology_facts pairNetwork) = some connected) ∧ ["reachable_from", "b"] ∈ connected := by
  have hwalk : pairNetwork.Walk "a" [("p", "b")] "b" :=
    .cons ⟨⟨"p", "Core|copy", .ofNat 0, ["a"], ["b"]⟩, by simp [pairNetwork], rfl, by simp, by simp⟩ (.nil "b")
  obtain ⟨hpaths, ⟨fuel', connected, hconnected⟩, hreached⟩ :=
    path_programs_walks firstOrder_firstOrder naiveEngines_correct pairNetwork_lawful "a" .incremental
  obtain ⟨⟨fuel, facts, hfacts⟩, hmem⟩ := hpaths 3 topology_path3_program (by simp)
  refine ⟨facts, connected, ⟨fuel, hfacts⟩, ?_, ⟨fuel', hconnected⟩, ?_⟩
  · exact (hmem fuel facts hfacts _).2 (.inr ⟨"a", _, "b", hwalk, by simp, by simp, rfl⟩)
  · exact (hreached fuel' connected hconnected "b").2 ⟨_, by simp, hwalk⟩

end LainLang.Datalog
