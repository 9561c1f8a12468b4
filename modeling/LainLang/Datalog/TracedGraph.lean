import LainLang.Datalog.Propagator
import LainLang.Tracer.Combinators
import LainLang.Js.NumberText
/-!
# Programs about traced graphs

A traced graph becomes facts about its nodes, and the programs select nodes by
rules of one layer: no rule reads what another derives. The ids they derive are
the nodes that the graph combinators keep.
-/
open LainLang.Lib LainLang.Js

namespace LainLang.Datalog

open LainLang.Tracer

/-! ## Facts of a graph -/

/-- `"cell"` and `"propagator"`, of all that may stand under `kind`. -/
def kindText : Tracer.Term → Option String
  | .atom (.str text) => if text = "cell" ∨ text = "propagator" then some text else none
  | _ => none

/-- `String(n)` of a number. -/
def levelText : Tracer.Term → Option String
  | .atom (.num n) => some n.toText
  | _ => none

/-- `String(t)` of what is there; `toText` is that of arrays, objects and
functions. -/
def presentText (toText : Tracer.Term → String) : Tracer.Term → Option String
  | .atom .undefined | .atom .null => none
  | .atom (.str text) => some text
  | .atom (.num n) => some n.toText
  | .atom (.bool b) => some (if b then "true" else "false")
  | t => some (toText t)

/-- The facts of one node: each attribute that has a value of the right type. -/
def node_facts (toText : Tracer.Term → String) (id : String) (a : Attributes) : List Fact :=
  ["g_node", id] ::
    (((kindText (get_attr a "kind")).map fun kind => ["g_kind", id, kind]).toList ++
    ((stringRow (get_attr a "namespace")).map fun ns => ["g_namespace", id, ns]).toList ++
    ((levelText (get_attr a "relationLevel")).map fun level => ["g_level", id, level]).toList ++
    ((presentText toText (get_attr a "label")).map fun label => ["g_label", id, label]).toList ++
    ((presentText toText (get_attr a "value")).map fun value => ["g_value", id, value]).toList)

/-- `traced_graph_to_facts`: nodes, then edges. -/
def traced_graph_to_facts (toText : Tracer.Term → String) (graph : DirectedGraph) : List Fact :=
  graph.nodes.entries.flatMap (fun node => node_facts toText node.1 node.2) ++
    graph.edges.map fun e => ["g_edge", e.1, e.2]

/-- Which node is in which of two traces. -/
def trace_pair_membership_facts (up down : DirectedGraph) : List Fact :=
  up.nodes.keys.map (fun id => ["trace_mem", "up", id]) ++ down.nodes.keys.map fun id => ["trace_mem", "down", id]

/-! ## Programs -/

/-- `StartsWith(v, start)` is a predicate on the variable. -/
def StartsWith (variable_ : Term) (start : String) : BodyAtom := .pred variable_ fun s => startsWith s start

/-- Nodes whose namespace starts with the text. -/
def traced_namespace_program (start : String) (strategy : ExecutionStrategy) : LogicProgram :=
  program strategy [rule (atom "ns_match" [.V "N"]) [.atom (atom "g_namespace" [.V "N", .V "NS"]), StartsWith (.V "NS") start]]

/-- Cells whose namespace starts as the slots of a card do. -/
def traced_card_slot_cell_program (strategy : ExecutionStrategy) : LogicProgram :=
  program strategy [rule (atom "card_cell" [.V "N"]) [.atom (atom "g_kind" [.V "N", .str "cell"]),
    .atom (atom "g_namespace" [.V "N", .V "NS"]), StartsWith (.V "NS") "::"]]

/-- Nodes of the kind. -/
def traced_kind_program (kind : NodeKind) (strategy : ExecutionStrategy) : LogicProgram :=
  program strategy [rule (atom "kind_match" [.V "N"]) [.atom (atom "g_kind" [.V "N", .str kind.text])]]

/-- Nodes of the level. -/
def traced_level_program (level : JsNumber) (strategy : ExecutionStrategy) : LogicProgram :=
  program strategy [rule (atom "level_match" [.V "N"]) [.atom (atom "g_level" [.V "N", .str level.toText])]]

/-- Cells of the level. -/
def traced_cell_at_level_program (level : JsNumber) (strategy : ExecutionStrategy) : LogicProgram :=
  program strategy [rule (atom "level_cell" [.V "N"])
    [.atom (atom "g_kind" [.V "N", .str "cell"]), .atom (atom "g_level" [.V "N", .str level.toText])]]

/-- Nodes of some trace, and nodes of both. -/
def traced_trace_pair_program (strategy : ExecutionStrategy) : LogicProgram :=
  program strategy [
    rule (atom "union_node" [.V "N"]) [.atom (atom "trace_mem" [.str "up", .V "N"])],
    rule (atom "union_node" [.V "N"]) [.atom (atom "trace_mem" [.str "down", .V "N"])],
    rule (atom "both_node" [.V "N"]) [.atom (atom "trace_mem" [.str "up", .V "N"]), .atom (atom "trace_mem" [.str "down", .V "N"])]]

/-! ## Queries -/

/-- The first argument of a fact with the predicate. -/
def factNode (predicate : String) : Fact → Option String
  | tag :: id :: _ => if tag = predicate then some id else none
  | _ => none

/-- The nodes of one predicate, without repetitions. -/
def node_ids_from_facts (facts : List Fact) (predicate : String) : List String :=
  (facts.filterMap (factNode predicate)).eraseDups

section
variable (P : Pmatcher) (engines : MiniDatalog)

/-- `evaluate_program` over the facts of a traced graph. -/
def evaluate_traced_program (toText : Tracer.Term → String) (fuel : ℕ) (graph : DirectedGraph) (prog : LogicProgram) :
    Option (List Fact) :=
  evaluate_program P engines fuel prog (traced_graph_to_facts toText graph)

/-- `evaluate_program` over the membership facts. -/
def evaluate_trace_pair_program (fuel : ℕ) (up down : DirectedGraph) (prog : LogicProgram) : Option (List Fact) :=
  evaluate_program P engines fuel prog (trace_pair_membership_facts up down)

end

theorem mem_node_ids {facts : List Fact} {predicate id : String} :
    id ∈ node_ids_from_facts facts predicate ↔ ∃ rest, predicate :: id :: rest ∈ facts := by
  rw [node_ids_from_facts, List.mem_eraseDups, List.mem_filterMap]
  constructor
  · rintro ⟨f, hf, hid⟩
    match f with
    | tag :: first :: rest =>
      by_cases htag : tag = predicate
      · simp only [factNode, if_pos htag, Option.some.injEq] at hid
        exact ⟨rest, htag ▸ hid ▸ hf⟩
      · simp [factNode, htag] at hid
    | [_] | [] => cases hid
  · rintro ⟨rest, hf⟩
    exact ⟨_, hf, if_pos rfl⟩

/-! ## Programs of one layer -/

/-- The literal looks only for facts with these predicates. -/
def BodyAtom.looksInto (tags : List String) : BodyAtom → Bool
  | .atom (.str p :: _) => decide (p ∈ tags)
  | .pred _ _ => true
  | _ => false

/-- Safe rules that look only for facts which none of them derives. -/
structure OneLayer (tags : List String) (rules : List ExtendedRule) : Prop where
  safe : ∀ r ∈ rules, r.safe = true
  bodies : ∀ r ∈ rules, r.body.all (BodyAtom.looksInto tags) = true
  heads : ∀ r ∈ rules, ∃ q, Atom.predicate r.head = some (.str q) ∧ q ∉ tags

/-- The head is none of the given predicates. -/
def headOutside (tags : List String) : Atom → Bool
  | .str q :: _ => !decide (q ∈ tags)
  | _ => false

theorem oneLayer_of_check {tags : List String} {rules : List ExtendedRule}
    (h : (rules.all fun r => r.safe && r.body.all (BodyAtom.looksInto tags) && headOutside tags r.head) = true) :
    OneLayer tags rules := by
  simp only [List.all_eq_true, Bool.and_eq_true] at h
  refine ⟨fun r hr => (h r hr).1.1, fun r hr => List.all_eq_true.2 (h r hr).1.2, fun r hr => ?_⟩
  have hhead := (h r hr).2
  unfold headOutside at hhead
  split at hhead
  · rename_i q args heq
    exact ⟨q, by rw [heq]; rfl, by simpa using hhead⟩
  · cases hhead

theorem holds_congr {tags : List String} {I J N : Set Fact} {σ : Assignment}
    (hIJ : ∀ p ∈ tags, ∀ args, p :: args ∈ I ↔ p :: args ∈ J) {a : BodyAtom} (ha : a.looksInto tags = true) :
    a.Holds I N σ ↔ a.Holds J N σ := by
  cases a with
  | atom a =>
    rw [BodyAtom.Holds, BodyAtom.Holds]
    cases a with
    | nil => cases ha
    | cons t args =>
      cases t with
      | V v => cases ha
      | str p =>
        have hp : p ∈ tags := of_decide_eq_true ha
        split
        · rfl
        split
        · rfl
        · exact hIJ p hp _
  | pred t fn => rfl
  | _ => cases ha

theorem allHold_congr {tags : List String} {I J N : Set Fact} {σ : Assignment}
    (hIJ : ∀ p ∈ tags, ∀ args, p :: args ∈ I ↔ p :: args ∈ J) {body : List BodyAtom}
    (hbody : body.all (BodyAtom.looksInto tags) = true) : AllHold I N σ body ↔ AllHold J N σ body := by
  induction body with
  | nil => rfl
  | cons a body ih =>
    rw [List.all_cons, Bool.and_eq_true] at hbody
    rw [AllHold, AllHold, holds_congr hIJ hbody.1, ih hbody.2]

section
variable {tags : List String} {prog : LogicProgram} (hlayer : OneLayer tags prog.rules)
include hlayer

theorem OneLayer.negFree : NegFree prog := by
  have hbody : ∀ body : List BodyAtom, body.all (BodyAtom.looksInto tags) = true → bodyNegated body = [] := by
    intro body
    induction body with
    | nil => exact fun _ => rfl
    | cons a body ih =>
      intro h
      rw [List.all_cons, Bool.and_eq_true] at h
      rw [bodyNegated, ih h.2, List.append_nil]
      cases a with
      | atom a => rfl
      | pred t fn => rfl
      | _ => cases h.1
  exact fun r hr => hbody _ (hlayer.bodies r hr)

/-- One application of the rules to the facts given derives everything. -/
theorem OneLayer.mem_least_model {edb : Set Fact} {f : Fact} : f ∈ least_model ∅ prog.rules edb ↔
    f ∈ edb ∨ ∃ r ∈ prog.rules, ∃ σ, AllHold edb ∅ σ r.body ∧ Atom.eval σ r.head = f := by
  have hsame : ∀ p ∈ tags, ∀ args, p :: args ∈ least_model ∅ prog.rules edb ↔ p :: args ∈ edb := by
    refine fun p hp args => mem_edb_of_predicate rfl fun r hr => ?_
    obtain ⟨q, hq, hnot⟩ := hlayer.heads r hr
    exact ⟨q, hq, fun heq => hnot (heq ▸ hp)⟩
  rw [LainLang.Datalog.mem_least_model]
  refine or_congr_right (exists_congr fun r => and_congr_right fun hr => exists_congr fun σ => and_congr_left fun _ => ?_)
  exact allHold_congr hsame (hlayer.bodies r hr)

end

/-- The run ends, and the ids it gives for the predicate are the graph's nodes. -/
structure Reads (run : ℕ → Option (List Fact)) (predicate : String) (graph : DirectedGraph) : Prop where
  ends : ∃ fuel facts, run fuel = some facts
  ids : ∀ fuel facts, run fuel = some facts → ∀ id, id ∈ node_ids_from_facts facts predicate ↔ graph.hasNode id = true

/-- A program of one layer gives the nodes whose facts make the body of one of
its rules hold. -/
theorem reads_of_layer {P : Pmatcher} (hP : P.FirstOrder) {engines : MiniDatalog} (hE : engines.Correct P)
    {tags : List String} {prog : LogicProgram} (hlayer : OneLayer tags prog.rules) {edb : List Fact} {predicate : String}
    (hedb : ∀ args, predicate :: args ∉ edb) {graph : DirectedGraph}
    (h : ∀ id, (∃ r ∈ prog.rules, ∃ σ rest, AllHold {f | f ∈ edb} ∅ σ r.body ∧ Atom.eval σ r.head = predicate :: id :: rest) ↔
      graph.hasNode id = true) : Reads (fun fuel => evaluate_program P engines fuel prog edb) predicate graph := by
  refine ⟨evaluate_program_ends hP engines prog edb, fun fuel facts hrun id => ?_⟩
  have hmodel := evaluate_program_model hP hE (fun r hr => safe_of_check (hlayer.safe r hr)) hlayer.negFree hrun
  rw [mem_node_ids, ← h]
  constructor
  · rintro ⟨rest, hf⟩
    obtain hf | ⟨r, hr, σ, hbody, hhead⟩ := hlayer.mem_least_model.1 ((hmodel _).1 hf)
    · exact absurd hf (hedb _)
    · exact ⟨r, hr, σ, rest, hbody, hhead⟩
  · rintro ⟨r, hr, σ, rest, hbody, hhead⟩
    exact ⟨rest, (hmodel _).2 (hlayer.mem_least_model.2 (.inr ⟨r, hr, σ, hbody, hhead⟩))⟩

/-! ## The facts say what the attributes are -/

/-- The predicates of a traced graph. -/
def tracedTags : List String := ["g_node", "g_edge", "g_kind", "g_namespace", "g_level", "g_label", "g_value"]

section
variable {toText : Tracer.Term → String} {graph : DirectedGraph}

theorem mem_traced_facts {f : Fact} : f ∈ traced_graph_to_facts toText graph ↔
    (∃ id a, graph.nodes.get? id = some a ∧ f ∈ node_facts toText id a) ∨ ∃ e ∈ graph.edges, ["g_edge", e.1, e.2] = f := by
  simp only [traced_graph_to_facts, List.mem_append, List.mem_flatMap, List.mem_map, Prod.exists, OrdMap.mem_entries_iff]

theorem traced_predicate {predicate : String} (h : predicate ∉ tracedTags) (args : List String) :
    predicate :: args ∉ traced_graph_to_facts toText graph := by
  simp only [tracedTags, List.mem_cons, List.not_mem_nil, or_false, not_or, @eq_comm _ predicate] at h
  rw [mem_traced_facts]
  rintro (⟨id, a, -, hf⟩ | ⟨e, -, he⟩)
  · simp only [node_facts, List.mem_cons, List.mem_append, Option.mem_toList, Option.map_eq_some_iff, List.cons.injEq, h,
      false_and, and_false, exists_false, or_false] at hf
    exact h.1 hf.1.symm
  · exact h.2.1 (List.cons.inj he).1

theorem mem_g_kind {id kind : String} : ["g_kind", id, kind] ∈ traced_graph_to_facts toText graph ↔
    ∃ a, graph.nodes.get? id = some a ∧ kindText (get_attr a "kind") = some kind := by
  simp [mem_traced_facts, node_facts]

theorem mem_g_namespace {id ns : String} : ["g_namespace", id, ns] ∈ traced_graph_to_facts toText graph ↔
    ∃ a, graph.nodes.get? id = some a ∧ stringRow (get_attr a "namespace") = some ns := by
  simp [mem_traced_facts, node_facts]

theorem mem_g_level {id level : String} : ["g_level", id, level] ∈ traced_graph_to_facts toText graph ↔
    ∃ a, graph.nodes.get? id = some a ∧ levelText (get_attr a "relationLevel") = some level := by
  simp [mem_traced_facts, node_facts]

theorem mem_trace_pair {up down : DirectedGraph} {side id : String} :
    ["trace_mem", side, id] ∈ trace_pair_membership_facts up down ↔
      side = "up" ∧ up.hasNode id = true ∨ side = "down" ∧ down.hasNode id = true := by
  simp only [trace_pair_membership_facts, List.mem_append, List.mem_map, List.cons.injEq, true_and, and_true,
    DirectedGraph.hasNode, OrdMap.has_iff_mem_keys, exists_eq_right_right]
  simp [and_comm, eq_comm]

theorem trace_pair_predicate {predicate : String} (h : predicate ∉ ["trace_mem"]) {up down : DirectedGraph}
    (args : List String) : predicate :: args ∉ trace_pair_membership_facts up down := by
  have hne : "trace_mem" ≠ predicate := fun heq => h (by simp [heq])
  simp [trace_pair_membership_facts, hne]

end

/-! ## The tests of the combinators, on what the facts hold -/

theorem kindText_iff {t : Tracer.Term} {kind : NodeKind} : kindText t = some kind.text ↔ t = .str kind.text := by
  unfold kindText
  cases t with
  | atom a =>
    cases a with
    | str text =>
      by_cases htext : text = "cell" ∨ text = "propagator"
      · simp [Tracer.Term.str, htext]
      · have hne : text ≠ kind.text := by
          rintro rfl
          cases kind <;> simp [NodeKind.text] at htext
        simp [Tracer.Term.str, htext, hne]
    | _ => simp [Tracer.Term.str]
  | _ => simp [Tracer.Term.str]

theorem stringRow_iff {t : Tracer.Term} {ns : String} :
    (∃ text, stringRow t = some text ∧ startsWith text ns = true) ↔ isStringFrom ns t = true := by
  unfold stringRow isStringFrom
  cases t with
  | atom a => cases a <;> simp
  | _ => simp

/-- Finite numbers are printed alike if and only if they are equal, `0` and `-0`
among them. -/
theorem toText_eq_iff {d d' : Decimal} :
    (JsNumber.finite d).toText = (JsNumber.finite d').toText ↔ numberEquals (.finite d) (.finite d') = true := by
  simp only [JsNumber.toText, numberEquals, String.ofList_inj, Bool.or_eq_true, decide_eq_true_eq, Bool.and_eq_true, beq_iff_eq]
  constructor
  · exact Decimal.text_inj
  · rintro (rfl | ⟨h, h'⟩)
    · rfl
    · rw [Decimal.text, Decimal.text, if_pos h, if_pos h']

/-- A level that is a number is a finite one. -/
def FiniteLevels (graph : DirectedGraph) : Prop :=
  ∀ id a n, graph.nodes.get? id = some a → get_attr a "relationLevel" = .atom (.num n) → ∃ d, n = .finite d

theorem levelText_iff {t : Tracer.Term} (ht : ∀ n, t = .atom (.num n) → ∃ d, n = .finite d) {level : Decimal} :
    levelText t = some (JsNumber.finite level).toText ↔ isNumber (.finite level) t = true := by
  unfold levelText isNumber
  cases t with
  | atom a =>
    cases a with
    | num n =>
      obtain ⟨d, rfl⟩ := ht n rfl
      simp only [Option.some.injEq]
      exact toText_eq_iff
    | _ => simp
  | _ => simp

/-! ## The bodies of the rules -/

theorem derives_node {body : Assignment → Prop} {head predicate id : String} :
    (∃ σ rest, body σ ∧ Atom.eval σ (atom head [.V "N"]) = predicate :: id :: rest) ↔
      head = predicate ∧ ∃ σ, σ "N" = id ∧ body σ := by
  constructor
  · rintro ⟨σ, rest, hbody, hhead⟩
    simp only [Atom.eval, atom, List.map_cons, Term.eval_str, Term.eval_V, List.map_nil, List.cons.injEq] at hhead
    exact ⟨hhead.1, σ, hhead.2.1, hbody⟩
  · rintro ⟨rfl, σ, rfl, hbody⟩
    exact ⟨σ, [], hbody, rfl⟩

/-- Values for the node and its namespace. -/
def nodeValues (id ns : String) : Assignment := fun x => if x = "N" then id else ns

theorem body_node {Q : String → Prop} {id : String} : (∃ σ : Assignment, σ "N" = id ∧ Q (σ "N")) ↔ Q id := by
  constructor
  · rintro ⟨σ, rfl, h⟩
    exact h
  · exact fun h => ⟨nodeValues id "", rfl, h⟩

theorem body_node_namespace {Q : String → String → Prop} {id : String} :
    (∃ σ : Assignment, σ "N" = id ∧ Q (σ "N") (σ "NS")) ↔ ∃ ns, Q id ns := by
  constructor
  · rintro ⟨σ, rfl, h⟩
    exact ⟨_, h⟩
  · rintro ⟨ns, h⟩
    exact ⟨nodeValues id ns, rfl, h⟩

theorem holds_startsWith {I N : Set Fact} {σ : Assignment} {x start : String} :
    (StartsWith (.V x) start).Holds I N σ ↔ startsWith (σ x) start = true := by
  rw [StartsWith, BodyAtom.Holds, Term.eval_V]

section
variable {I N : Set Fact} {σ : Assignment} {value : String}

theorem holds_kind : (BodyAtom.atom (atom "g_kind" [.V "N", .str value])).Holds I N σ ↔ ["g_kind", σ "N", value] ∈ I :=
  holds_atom (by decide) (by decide)

theorem holds_namespace :
    (BodyAtom.atom (atom "g_namespace" [.V "N", .V "NS"])).Holds I N σ ↔ ["g_namespace", σ "N", σ "NS"] ∈ I :=
  holds_atom (by decide) (by decide)

theorem holds_level : (BodyAtom.atom (atom "g_level" [.V "N", .str value])).Holds I N σ ↔ ["g_level", σ "N", value] ∈ I :=
  holds_atom (by decide) (by decide)

theorem holds_member :
    (BodyAtom.atom (atom "trace_mem" [.str value, .V "N"])).Holds I N σ ↔ ["trace_mem", value, σ "N"] ∈ I :=
  holds_atom (by decide) (by decide)

end

/-! ## The programs and the combinators -/

section
variable (strategy : ExecutionStrategy)

theorem namespace_layer (start : String) : OneLayer tracedTags (traced_namespace_program start strategy).rules :=
  oneLayer_of_check rfl

theorem card_slot_cell_layer : OneLayer tracedTags (traced_card_slot_cell_program strategy).rules := oneLayer_of_check rfl

theorem kind_layer (kind : NodeKind) : OneLayer tracedTags (traced_kind_program kind strategy).rules :=
  oneLayer_of_check rfl

theorem level_layer (level : JsNumber) : OneLayer tracedTags (traced_level_program level strategy).rules :=
  oneLayer_of_check rfl

theorem cell_at_level_layer (level : JsNumber) :
    OneLayer tracedTags (traced_cell_at_level_program level strategy).rules := oneLayer_of_check rfl

theorem trace_pair_layer : OneLayer ["trace_mem"] (traced_trace_pair_program strategy).rules := oneLayer_of_check rfl

end

section
variable {P : Pmatcher} (hP : P.FirstOrder) {engines : MiniDatalog} (hE : engines.Correct P)
  (toText : Tracer.Term → String) (graph : DirectedGraph) (strategy : ExecutionStrategy)
include hP hE

theorem reads_namespace (start : String) :
    Reads (fun fuel => evaluate_traced_program P engines toText fuel graph (traced_namespace_program start strategy))
      "ns_match" (subgraph_by_namespace graph start) := by
  refine reads_of_layer hP hE (namespace_layer strategy start) (traced_predicate (by decide)) fun id => ?_
  simp only [traced_namespace_program, program, rule, List.mem_singleton, exists_eq_left, derives_node, AllHold,
    holds_startsWith, holds_namespace, Set.mem_ofPred_eq, and_true, true_and]
  rw [@body_node_namespace fun id ns => ["g_namespace", id, ns] ∈ traced_graph_to_facts toText graph ∧ startsWith ns start = true]
  rw [subgraph_by_namespace, hasNode_by_predicate]
  simp only [mem_g_namespace]
  cases hid : graph.nodes.get? id with
  | none => simp
  | some a => simp [stringRow_iff]

theorem reads_kind (kind : NodeKind) :
    Reads (fun fuel => evaluate_traced_program P engines toText fuel graph (traced_kind_program kind strategy))
      "kind_match" (subgraph_by_kind graph kind) := by
  refine reads_of_layer hP hE (kind_layer strategy kind) (traced_predicate (by decide)) fun id => ?_
  simp only [traced_kind_program, program, rule, List.mem_singleton, exists_eq_left, derives_node, AllHold,
    holds_kind, Set.mem_ofPred_eq, and_true, true_and]
  rw [@body_node fun id => ["g_kind", id, kind.text] ∈ traced_graph_to_facts toText graph]
  rw [subgraph_by_kind, hasNode_by_predicate, mem_g_kind]
  simp only [kindText_iff, decide_eq_true_eq]

theorem reads_level (hlevels : FiniteLevels graph) (level : Decimal) :
    Reads (fun fuel => evaluate_traced_program P engines toText fuel graph (traced_level_program (.finite level) strategy))
      "level_match" (subgraph_by_level graph (.finite level)) := by
  refine reads_of_layer hP hE (level_layer strategy (.finite level)) (traced_predicate (by decide)) fun id => ?_
  simp only [traced_level_program, program, rule, List.mem_singleton, exists_eq_left, derives_node, AllHold,
    holds_level, Set.mem_ofPred_eq, and_true, true_and]
  rw [@body_node fun id => ["g_level", id, (JsNumber.finite level).toText] ∈ traced_graph_to_facts toText graph]
  rw [subgraph_by_level, hasNode_by_predicate, mem_g_level]
  exact exists_congr fun a => and_congr_right fun hid => levelText_iff fun n => hlevels id a n hid

variable {subgraph : DirectedGraph → (String → Bool) → DirectedGraph}
  (hsubgraph : ∀ graph keep, Induced graph (subgraph graph keep) (keep · = true))
include hsubgraph

theorem reads_card_slot_cell :
    Reads (fun fuel => evaluate_traced_program P engines toText fuel graph (traced_card_slot_cell_program strategy))
      "card_cell" (intersect_graphs subgraph (subgraph_by_namespace graph "::") (subgraph_by_kind graph .cell)) := by
  refine reads_of_layer hP hE (card_slot_cell_layer strategy) (traced_predicate (by decide)) fun id => ?_
  simp only [traced_card_slot_cell_program, program, rule, List.mem_singleton, exists_eq_left, derives_node, AllHold,
    holds_startsWith, holds_namespace, holds_kind, Set.mem_ofPred_eq, and_true, true_and]
  rw [@body_node_namespace fun id ns => ["g_kind", id, "cell"] ∈ traced_graph_to_facts toText graph ∧
    ["g_namespace", id, ns] ∈ traced_graph_to_facts toText graph ∧ startsWith ns "::" = true]
  rw [hasNode_intersect_graphs hsubgraph, subgraph_by_namespace, subgraph_by_kind, hasNode_by_predicate, hasNode_by_predicate]
  simp only [mem_g_namespace, mem_g_kind]
  cases hid : graph.nodes.get? id with
  | none => simp
  | some a =>
    have hkind : kindText (get_attr a "kind") = some "cell" ↔ _ := @kindText_iff _ .cell
    simp only [Option.some.injEq, exists_eq_left', ← stringRow_iff, decide_eq_true_eq, hkind, exists_and_left]
    exact and_comm

theorem reads_cell_at_level (hlevels : FiniteLevels graph) (level : Decimal) :
    Reads (fun fuel => evaluate_traced_program P engines toText fuel graph (traced_cell_at_level_program (.finite level) strategy))
      "level_cell" (intersect_graphs subgraph (subgraph_by_kind graph .cell) (subgraph_by_level graph (.finite level))) := by
  refine reads_of_layer hP hE (cell_at_level_layer strategy (.finite level)) (traced_predicate (by decide)) fun id => ?_
  simp only [traced_cell_at_level_program, program, rule, List.mem_singleton, exists_eq_left, derives_node, AllHold,
    holds_level, holds_kind, Set.mem_ofPred_eq, and_true, true_and]
  rw [@body_node fun id => ["g_kind", id, "cell"] ∈ traced_graph_to_facts toText graph ∧
    ["g_level", id, (JsNumber.finite level).toText] ∈ traced_graph_to_facts toText graph]
  rw [hasNode_intersect_graphs hsubgraph, subgraph_by_kind, subgraph_by_level, hasNode_by_predicate, hasNode_by_predicate]
  simp only [mem_g_level, mem_g_kind]
  cases hid : graph.nodes.get? id with
  | none => simp
  | some a =>
    have hkind : kindText (get_attr a "kind") = some "cell" ↔ _ := @kindText_iff _ .cell
    have hlevel := @levelText_iff (get_attr a "relationLevel") (fun n => hlevels id a n hid) level
    simp only [Option.some.injEq, exists_eq_left', decide_eq_true_eq, hlevel, hkind]

omit hsubgraph

theorem reads_union (up down : DirectedGraph) :
    Reads (fun fuel => evaluate_trace_pair_program P engines fuel up down (traced_trace_pair_program strategy)) "union_node"
      (union_graphs up down) := by
  refine reads_of_layer hP hE (trace_pair_layer strategy) (trace_pair_predicate (by decide)) fun id => ?_
  simp only [traced_trace_pair_program, program, rule, List.mem_cons, List.not_mem_nil, or_false, or_and_right, exists_or,
    exists_eq_left, derives_node, AllHold, holds_member, Set.mem_ofPred_eq, and_true, mem_trace_pair]
  rw [hasNode_union_graphs, ← @body_node (fun id => up.hasNode id = true) id, ← @body_node (fun id => down.hasNode id = true) id]
  simp

include hsubgraph

theorem reads_both (up down : DirectedGraph) :
    Reads (fun fuel => evaluate_trace_pair_program P engines fuel up down (traced_trace_pair_program strategy)) "both_node"
      (intersect_graphs subgraph up down) := by
  refine reads_of_layer hP hE (trace_pair_layer strategy) (trace_pair_predicate (by decide)) fun id => ?_
  simp only [traced_trace_pair_program, program, rule, List.mem_cons, List.not_mem_nil, or_false, or_and_right, exists_or,
    exists_eq_left, derives_node, AllHold, holds_member, Set.mem_ofPred_eq, and_true, mem_trace_pair]
  rw [hasNode_intersect_graphs hsubgraph, ← @body_node (fun id => up.hasNode id = true ∧ down.hasNode id = true) id]
  simp

/-- The programs and the combinators select the same nodes: by namespace, kind
and level, by two of these at once, and in one or both of two graphs. -/
theorem traced_queries_agree :
    (∀ graph, FiniteLevels graph →
      (∀ start, Reads (fun fuel => evaluate_traced_program P engines toText fuel graph (traced_namespace_program start strategy))
        "ns_match" (subgraph_by_namespace graph start)) ∧
      (∀ kind, Reads (fun fuel => evaluate_traced_program P engines toText fuel graph (traced_kind_program kind strategy))
        "kind_match" (subgraph_by_kind graph kind)) ∧
      (∀ level : Decimal,
        Reads (fun fuel => evaluate_traced_program P engines toText fuel graph (traced_level_program (.finite level) strategy))
          "level_match" (subgraph_by_level graph (.finite level)) ∧
        Reads (fun fuel => evaluate_traced_program P engines toText fuel graph
            (traced_cell_at_level_program (.finite level) strategy)) "level_cell"
          (intersect_graphs subgraph (subgraph_by_kind graph .cell) (subgraph_by_level graph (.finite level)))) ∧
      Reads (fun fuel => evaluate_traced_program P engines toText fuel graph (traced_card_slot_cell_program strategy)) "card_cell"
        (intersect_graphs subgraph (subgraph_by_namespace graph "::") (subgraph_by_kind graph .cell))) ∧
    ∀ up down,
      Reads (fun fuel => evaluate_trace_pair_program P engines fuel up down (traced_trace_pair_program strategy)) "union_node"
        (union_graphs up down) ∧
      Reads (fun fuel => evaluate_trace_pair_program P engines fuel up down (traced_trace_pair_program strategy)) "both_node"
        (intersect_graphs subgraph up down) := by
  refine ⟨fun graph hlevels => ⟨?_, ?_, fun level => ⟨?_, ?_⟩, ?_⟩, fun up down => ⟨?_, ?_⟩⟩
  · exact reads_namespace hP hE toText graph strategy
  · exact reads_kind hP hE toText graph strategy
  · exact reads_level hP hE toText graph strategy hlevels level
  · exact reads_cell_at_level hP hE toText graph strategy hsubgraph hlevels level
  · exact reads_card_slot_cell hP hE toText graph strategy hsubgraph
  · exact reads_union hP hE strategy up down
  · exact reads_both hP hE strategy hsubgraph up down

end

/-! ## A slot's cell and a propagator -/

/-- A slot cell and a propagator without a namespace. -/
def slotGraph : DirectedGraph :=
  (emptyGraph.mergeNode "a" [("kind", .str "cell"), ("namespace", .str "::this"), ("relationLevel", .atom (.num (.ofNat 3)))]).mergeNode
    "p" [("kind", .str "propagator"), ("relationLevel", .atom (.num (.ofNat 5)))]

theorem slotGraph_levels : FiniteLevels slotGraph := by
  intro id a n hid hn
  simp only [slotGraph, DirectedGraph.mergeNode, OrdMap.get?_set] at hid
  by_cases hp : id = "p"
  · simp only [hp, if_true, Option.some.injEq] at hid
    subst hid
    exact ⟨_, by cases hn; rfl⟩
  · by_cases ha : id = "a"
    · simp only [ha, if_true, Option.some.injEq, if_neg (show "a" ≠ "p" by decide)] at hid
      subst hid
      exact ⟨_, by cases hn; rfl⟩
    · simp [hp, ha, emptyGraph] at hid

/-- The subgraph induced by a test on ids. -/
def inducedBy (graph : DirectedGraph) (keep : String → Bool) : DirectedGraph :=
  induced_subgraph_from_ids graph (graph.nodes.keys.filter keep)

theorem inducedBy_induced (graph : DirectedGraph) (keep : String → Bool) :
    Induced graph (inducedBy graph keep) (keep · = true) := by
  refine (induced_subgraph_spec graph _).congr fun id hid => ?_
  rw [List.mem_filter]
  exact and_iff_right ((OrdMap.has_iff_mem_keys ..).1 hid)

theorem traced_queries_agree_slot :
    Reads (fun fuel => evaluate_traced_program firstOrder naiveEngines (fun _ => "") fuel slotGraph
        (traced_card_slot_cell_program .semi_naive)) "card_cell"
      (intersect_graphs inducedBy (subgraph_by_namespace slotGraph "::") (subgraph_by_kind slotGraph .cell)) ∧
    Reads (fun fuel => evaluate_traced_program firstOrder naiveEngines (fun _ => "") fuel slotGraph
        (traced_level_program (.ofNat 5) .semi_naive)) "level_match" (subgraph_by_level slotGraph (.ofNat 5)) := by
  have hall := traced_queries_agree firstOrder_firstOrder naiveEngines_correct (fun _ => "") .semi_naive inducedBy_induced
  obtain ⟨-, -, hlevel, hcard⟩ := hall.1 slotGraph slotGraph_levels
  exact ⟨hcard, (hlevel (.ofNat 5)).1⟩

end LainLang.Datalog
