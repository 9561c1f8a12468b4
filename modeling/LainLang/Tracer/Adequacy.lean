import LainLang.Tracer.Reify
/-!
# Queries find what they say

The goal of a clause means what the relational reading says, under any valuation
that agrees with an assignment on the variables made for its names. So the rows
of a query are the projections of the satisfying assignments: a row without
variables is one, and each is an instance of a row.
-/
open LainLang.Lib LainLang.Js

namespace LainLang.Tracer

/-! ## Terms mean their values -/

/-- The valuation gives the variable made for a name what the assignment gives
the name. -/
def Agrees (st : QueryVars) (ρ : Assignment) (σ : Valuation) : Prop :=
  ∀ name v, st.vars.get? name = some v → ρ name = σ (.ofNat v.id)

/-- What a term of the query became: it has the same value, it is an atom only
if it was that atom before, and a literal string stays. -/
structure Denotes (final : QueryVars) (t t' : Term) : Prop where
  same : ∀ ρ σ, Agrees final ρ σ → Same (eval σ t') (valueOf ρ t)
  atom : ∀ a, t' = .atom a → t = .atom a
  text : ∀ s, t = .str s → startsWith s "?" = false → t' = .str s

theorem creates_items_forall {Q : QueryVars → Term → Term → Prop} {items : List Term}
    (h : ∀ x ∈ items, Creates (logic_query_term x) fun final t' => Q final x t') :
    Creates (logic_query_items items) fun final items' => List.Forall₂ (Q final) items items' := by
  induction items with
  | nil => exact .pure fun _ => .nil
  | cons t ts ih =>
    rw [List.forall_mem_cons] at h
    exact h.1.bind fun t' => (ih h.2).bind fun ts' => .pure fun final hts ht => .cons ht hts

theorem logic_query_fields_eq (fields : List (String × Term)) :
    logic_query_fields fields = fields.map fun f => (f.1, logic_query_term f.2) := by
  induction fields with
  | nil => rfl
  | cons f fs ih => rw [logic_query_fields, ih, List.map_cons]

theorem denotes_arr {final : QueryVars} {items items' : List Term} (h : List.Forall₂ (Denotes final) items items') :
    Denotes final (.arr items) (.arr items') := by
  refine ⟨fun ρ σ hρ => ?_, fun _ h => (by cases h), fun _ h => (by cases h)⟩
  rw [eval_arr, valueOf, fill, fillItems_eq]
  refine .arr (by simpa using h.length_eq.symm) fun i x y hx hy => ?_
  rw [List.getElem?_map, Option.map_eq_some_iff] at hx hy
  obtain ⟨t', ht', rfl⟩ := hx
  obtain ⟨t, ht, rfl⟩ := hy
  exact (forall₂_getElem? h ht ht').same ρ σ hρ

theorem denotes_obj {final : QueryVars} {fields entries : List (String × Term)}
    (root : is_logic_var (.obj fields) = none) (hkeys : entries.map Prod.fst = ownKeys fields)
    (h : ∀ e ∈ entries, ∃ t, field fields e.1 = some t ∧ Denotes final t e.2) :
    Denotes final (.obj fields) (.obj entries) := by
  have hfield : ∀ k t', field entries k = some t' → ∃ t, field fields k = some t ∧ Denotes final t t' :=
    fun k t' ht' => h (k, t') (field_mem ht')
  have hroot : is_logic_var (.obj entries) = none := by
    by_contra hne
    obtain ⟨v, hv⟩ := Option.ne_none_iff_exists'.1 hne
    obtain ⟨id, htype, hid, hkey⟩ := is_logic_var_obj.1 hv
    obtain ⟨t, ht, hdenotes⟩ := hfield _ _ htype
    obtain rfl := hdenotes.atom _ rfl
    obtain ⟨u, hu, hdenotes⟩ := hfield _ _ hid
    obtain rfl := hdenotes.atom _ rfl
    rw [is_logic_var_obj.2 ⟨id, ht, hu, hkey⟩] at root
    cases root
  refine ⟨fun ρ σ hρ => ?_, fun _ h => (by cases h), fun _ h => (by cases h)⟩
  rw [eval_obj hroot, valueOf, fill, fillFields_eq]
  refine .obj (fun k => ?_) fun k x y hx hy => ?_
  · simp only [List.map_map, Function.comp_def]
    rw [hkeys, mem_ownKeys]
  · rw [field_map, Option.map_eq_some_iff] at hx hy
    obtain ⟨t', ht', rfl⟩ := hx
    obtain ⟨t, ht, rfl⟩ := hy
    obtain ⟨u, hu, hdenotes⟩ := hfield k t' ht'
    rw [ht] at hu
    cases hu
    exact hdenotes.same ρ σ hρ

/-- By induction on the term; only a string that starts with `?` makes a variable. -/
theorem creates_denoted {t : Term} (h : NoVars t) : Creates (logic_query_term t) fun final t' => Denotes final t t' := by
  induction h with
  | atom a =>
    cases a with
    | str s =>
      rw [logic_query_term]
      split
      · rename_i hs
        refine (creates_query_var hs).mono fun final t' => ?_
        rintro ⟨v, hv, rfl⟩
        refine ⟨fun ρ σ hρ => ?_, fun _ h => (by cases h), fun s' hs' hliteral => ?_⟩
        · rw [eval_var (is_logic_var_term v), valueOf, fill, if_pos hs, hρ s v hv]
          exact .refl _
        · cases hs'
          simp [hs] at hliteral
      · rename_i hs
        refine .pure fun final => ⟨fun ρ σ _ => ?_, fun _ h => h, fun _ h _ => h⟩
        rw [Term.str, eval_atom, valueOf, fill, if_neg hs]
        exact .refl _
    | _ => exact .pure fun final => ⟨fun ρ σ _ => by rw [eval_atom]; exact .refl _, fun _ h => h,
        fun _ h => (by cases h)⟩
  | arr _ ih =>
    rw [logic_query_term]
    exact (creates_items_forall ih).bind fun items' => .pure fun final h => denotes_arr h
  | @obj fields root _ ih =>
    rw [logic_query_term]
    refine (creates_inOrder (Q := fun final k t' => ∃ t, field fields k = some t ∧ Denotes final t t') fun e he => ?_).bind
      fun entries => .pure fun final h => denotes_obj root ?_ h.2
    · obtain ⟨k, run⟩ := e
      rw [mem_ownEntries, logic_query_fields_eq, field_map, Option.map_eq_some_iff] at he
      obtain ⟨t, ht, rfl⟩ := he
      exact (ih k t ht).mono fun final t' hdenotes => ⟨t, ht, hdenotes⟩
    · rw [h.1, ownEntries_keys, logic_query_fields_eq, ownKeys_map]

/-! ## Facts mean relations -/

/-- The attributes are data. -/
def PlainAttributes (graph : DirectedGraph) : Prop := ∀ id attrs, graph.nodes.get? id = some attrs → NoVars (.obj attrs)

theorem PlainAttributes.get_attr {graph : DirectedGraph} (h : PlainAttributes graph) {id : String} {attrs : Attributes}
    (hid : graph.nodes.get? id = some attrs) (attr_name : String) : NoVars (get_attr attrs attr_name) := by
  rw [Tracer.get_attr]
  cases hf : field attrs attr_name with
  | none => exact .atom _
  | some t =>
    cases h id attrs hid with
    | obj _ all => exact all attr_name t hf

/-- A value equal to a term is equal to the data the term is. -/
theorem same_eval_iff {t : Term} (h : NoVars t) (σ : Valuation) {x : Value} : Same x (eval σ t) ↔ Same x (literal t) :=
  ⟨fun hx => hx.trans (eval_literal h σ), fun hx => hx.trans (eval_literal h σ).symm⟩

section means
variable {graph : DirectedGraph} {σ : Valuation}

theorem means_equal (a b : Term) : Means σ (goal_equal a b) (Same (eval σ a) (eval σ b)) :=
  (means_rows _).congr (by simp)

/-- One row of two equations for each item of a list. -/
theorem means_rows_map {α : Type} (xs : List α) (a b : Term) (f g : α → Term) :
    Means σ (goal_rows (xs.map fun x => [(a, f x), (b, g x)]))
      (∃ x ∈ xs, Same (eval σ a) (eval σ (f x)) ∧ Same (eval σ b) (eval σ (g x))) :=
  (means_rows _).congr (by
    simp only [List.mem_map, exists_exists_and_eq_and, List.forall_mem_cons, List.not_mem_nil, false_imp_iff,
      implies_true, and_true])

theorem means_pairRows (a b : Term) (pairs : List EdgeTuple) : Means σ (goal_rows (pairRows a b pairs))
    (∃ x y, (x, y) ∈ pairs ∧ Same (eval σ a) (.str x) ∧ Same (eval σ b) (.str y)) :=
  (means_rows_map pairs a b (fun p => .str p.1) fun p => .str p.2).congr (by
    simp only [Prod.exists, Term.str, Value.str, eval_atom])

theorem means_edge_fact (a b : Term) : Means σ (edge_fact graph a b) (EdgeFact graph (eval σ a) (eval σ b)) :=
  means_pairRows a b graph.edges

theorem means_node_fact (hattrs : PlainAttributes graph) (a b : Term) :
    Means σ (node_fact graph a b) (NodeFact graph (eval σ a) (eval σ b)) := by
  refine (means_rows_map graph.nodes.entries a b (fun node => .str node.1) fun node => .obj node.2).congr ?_
  simp only [Prod.exists, OrdMap.mem_entries_iff]
  refine exists_congr fun id => exists_congr fun attrs => and_congr_right fun hid => ?_
  rw [same_eval_iff (hattrs id attrs hid), Term.str, eval_atom]
  rfl

theorem means_attr_fact (hattrs : PlainAttributes graph) (attr_name : String) {predicate : Option (Term → Attributes → Bool)}
    {counts : Term → Prop} (hcounts : ∀ v attrs, predicate.all (· v attrs) = true ↔ counts v) (a b : Term) :
    Means σ (attr_fact graph attr_name a b predicate) (AttrFact graph attr_name counts (eval σ a) (eval σ b)) := by
  refine (means_rows_map _ a b (fun node : String × Attributes => .str node.1) fun node => get_attr node.2 attr_name).congr ?_
  simp only [Prod.exists, List.mem_filter, hcounts, OrdMap.mem_entries_iff, and_assoc]
  refine exists_congr fun id => exists_congr fun attrs => and_congr_right fun hid => and_congr_right fun _ => ?_
  rw [same_eval_iff (hattrs.get_attr hid attr_name), Term.str, eval_atom]
  rfl

theorem means_reachable (hids : ArrowFree graph) (a b : Term) :
    Means σ (reachable graph a b) (PathFact graph (eval σ a) (eval σ b)) := by
  intro bind hbind fuel state states hrun
  obtain ⟨pairs, hpairs, hrun⟩ := except_bind_eq_ok hrun
  rw [means_pairRows a b pairs bind hbind fuel state states hrun]
  simp only [mem_enumerate hids hpairs, PathFact]

theorem means_upstream_of (hids : ArrowFree graph) (a b : Term) :
    Means σ (upstream_of graph a b) (PathFact graph (eval σ b) (eval σ a)) := by
  have hreverse : ArrowFree (reverse_graph graph) := hids
  refine (means_reachable hreverse a b).congr ?_
  simp only [PathFact, path_reverse]
  rw [exists_comm]
  refine exists_congr fun x => exists_congr fun y => and_congr_right fun _ => and_comm

theorem means_join_through (a b c : Term) : Means σ (join_through graph a b c)
    (EdgeFact graph (eval σ a) (eval σ b) ∧ EdgeFact graph (eval σ b) (eval σ c)) :=
  (means_and (.cons (means_edge_fact a b) (.cons (means_edge_fact b c) .nil))).congr (by
    simp only [List.forall_mem_cons, List.not_mem_nil, false_imp_iff, implies_true, and_true])

theorem means_label_test (test : String → String → Bool) (a : Term) (text : String) :
    Means σ (label_test test graph a (.str text)) (LabelFact graph test (eval σ a) (eval σ (.str text))) := by
  intro bind hbind fuel state states hrun
  obtain ⟨value, hvalue, hrun⟩ := except_bind_eq_ok hrun
  obtain rfl := substitute_atom hvalue
  dsimp only at hrun
  rw [means_rows _ bind hbind fuel state states hrun]
  refine and_congr_right fun _ => ?_
  constructor
  · rintro ⟨row, hrow, hall⟩
    obtain ⟨id, attrs, raw_label, hid, hlabel, htest, rfl⟩ := mem_labelRows.1 hrow
    exact ⟨id, attrs, raw_label, text, hid, hlabel, htest, hall _ (List.mem_singleton_self _), .refl _⟩
  · rintro ⟨id, attrs, raw_label, text', hid, hlabel, htest, hx, htext⟩
    obtain rfl : text = text' := by
      cases htext
      rfl
    refine ⟨_, mem_labelRows.2 ⟨id, attrs, raw_label, hid, hlabel, htest, rfl⟩, fun p hp => ?_⟩
    rw [List.mem_singleton.1 hp]
    exact hx

end means

/-! ## Clauses mean what they say -/

/-- What is asked of the graph: its ids have no arrow, its attributes are data. -/
structure Plain (graph : DirectedGraph) : Prop where
  ids : ArrowFree graph
  attributes : PlainAttributes graph

/-- Each operator on two terms has a goal that means its relation, the label
tests when their second term is a string. -/
theorem binary_means {graph : DirectedGraph} (hgraph : Plain graph) {op first second : String}
    {R : Value → Value → Prop} (h : binary_relation graph op = some (first, second, R)) :
    ∃ goal, binary_goal graph op = some (first, second, goal) ∧
      ∀ (σ : Valuation) (a b : Term), (needsText op → ∃ s, b = .str s) → Means σ (goal a b) (R (eval σ a) (eval σ b)) := by
  have hall : ∀ v attrs, (none : Option (Term → Attributes → Bool)).all (· v attrs) = true ↔ True := by simp
  have hdefined : ∀ v attrs, (some isDefined).all (· v attrs) = true ↔ v ≠ .undefined := by simp [isDefined]
  have htest : ∀ (test : String → String → Bool) (σ : Valuation) (a b : Term), (∃ s, b = .str s) →
      Means σ (label_test test graph a b) (LabelFact graph test (eval σ a) (eval σ b)) := by
    rintro test σ a b ⟨s, rfl⟩
    exact means_label_test test a s
  unfold binary_relation at h
  split at h <;> cases h
  case h_1 => exact ⟨_, rfl, fun σ a b _ => means_equal a b⟩
  case h_2 => exact ⟨_, rfl, fun σ a b _ => means_node_fact hgraph.attributes a b⟩
  case h_3 => exact ⟨_, rfl, fun σ a b _ => means_edge_fact a b⟩
  case h_4 | h_5 | h_6 | h_7 => exact ⟨_, rfl, fun σ a b _ => means_attr_fact hgraph.attributes _ hall a b⟩
  case h_8 | h_9 => exact ⟨_, rfl, fun σ a b _ => means_attr_fact hgraph.attributes _ hdefined a b⟩
  case h_10 => exact ⟨_, rfl, fun σ a b htext => htest startsWith σ a b (htext (.inl rfl))⟩
  case h_11 => exact ⟨_, rfl, fun σ a b htext => htest includes σ a b (htext (.inr rfl))⟩
  case h_12 | h_13 => exact ⟨_, rfl, fun σ a b _ => means_reachable hgraph.ids a b⟩
  case h_14 => exact ⟨_, rfl, fun σ a b _ => means_upstream_of hgraph.ids a b⟩

/-- The relations do not tell equal values apart. -/
theorem binary_congr {graph : DirectedGraph} {op first second : String} {R : Value → Value → Prop}
    (h : binary_relation graph op = some (first, second, R)) {x x' y y' : Value} (hx : Same x x') (hy : Same y y')
    (hR : R x y) : R x' y' := by
  unfold binary_relation at h
  split at h <;> cases h
  case h_1 => exact (hx.symm.trans hR).trans hy
  case h_2 =>
    obtain ⟨id, attrs, hid, h1, h2⟩ := hR
    exact ⟨id, attrs, hid, hx.symm.trans h1, hy.symm.trans h2⟩
  case h_3 | h_12 | h_13 =>
    obtain ⟨a, b, hab, h1, h2⟩ := hR
    exact ⟨a, b, hab, hx.symm.trans h1, hy.symm.trans h2⟩
  case h_4 | h_5 | h_6 | h_7 | h_8 | h_9 =>
    obtain ⟨id, attrs, hid, hcounts, h1, h2⟩ := hR
    exact ⟨id, attrs, hid, hcounts, hx.symm.trans h1, hy.symm.trans h2⟩
  case h_10 | h_11 =>
    obtain ⟨id, attrs, raw_label, text, hid, hlabel, htest, h1, h2⟩ := hR
    exact ⟨id, attrs, raw_label, text, hid, hlabel, htest, hx.symm.trans h1, hy.symm.trans h2⟩
  case h_14 =>
    obtain ⟨a, b, hab, h1, h2⟩ := hR
    exact ⟨a, b, hab, hy.symm.trans h1, hx.symm.trans h2⟩

/-- The goal means that the assignment satisfies the clause. -/
def ClauseMeans (graph : DirectedGraph) (final : QueryVars) (clause : Term) (goal : Goal) : Prop :=
  ∀ ρ σ, Agrees final ρ σ → Means σ goal (Satisfies graph ρ clause)

theorem forall₂_means {graph : DirectedGraph} {final : QueryVars} {clauses : List Term} {goals : List Goal}
    (h : List.Forall₂ (ClauseMeans graph final) clauses goals) {ρ : Assignment} {σ : Valuation} (hρ : Agrees final ρ σ) :
    List.Forall₂ (Means σ) goals (clauses.map (Satisfies graph ρ)) := by
  induction h with
  | nil => exact .nil
  | cons hc _ ih => exact .cons (hc ρ σ hρ) ih

theorem creates_clause_means {graph : DirectedGraph} {clauses : List Term}
    (h : ∀ c ∈ clauses.filter isObject,
      Creates (clause_goal graph c) fun final result => ∃ goal, result = some goal ∧ ClauseMeans graph final c goal) :
    Creates (clause_goals graph clauses) fun final goals =>
      List.Forall₂ (ClauseMeans graph final) (clauses.filter isObject) goals := by
  induction clauses with
  | nil => exact .pure fun _ => .nil
  | cons c cs ih =>
    rw [clause_goals]
    cases c with
    | obj fields =>
      have hfilter : (Term.obj fields :: cs).filter isObject = .obj fields :: cs.filter isObject := rfl
      rw [hfilter, List.forall_mem_cons] at h
      rw [hfilter]
      refine h.1.bind fun result => (ih h.2).bind fun goals => .pure fun final hgoals => ?_
      rintro ⟨goal, rfl, hgoal⟩
      exact .cons hgoal hgoals
    | atom _ | arr _ =>
      refine (Creates.pure (Q := fun _ (result : Option Goal) => result = none) fun _ => rfl).bind fun result =>
        (ih h).bind fun goals => .pure fun final hgoals hnone => ?_
      subst hnone
      exact hgoals

theorem nested_goals_eq (graph : DirectedGraph) (fields : List (String × Term)) : nested_goals graph fields =
    match field fields "clauses" with
    | some (.arr clauses) => clause_goals graph clauses
    | _ => pure [] := by
  induction fields with
  | nil => rfl
  | cons f fields ih =>
    obtain ⟨key, t⟩ := f
    by_cases hkey : key = "clauses"
    · subst hkey
      cases t <;> simp [nested_goals, field]
    · rw [field_cons_ne (Ne.symm hkey), ← ih]
      cases t <;> simp [nested_goals, hkey]

theorem creates_nested_means {graph : DirectedGraph} {fields : List (String × Term)}
    (h : ∀ c ∈ subclauses fields,
      Creates (clause_goal graph c) fun final result => ∃ goal, result = some goal ∧ ClauseMeans graph final c goal) :
    Creates (nested_goals graph fields) fun final goals =>
      List.Forall₂ (ClauseMeans graph final) (subclauses fields) goals := by
  rw [nested_goals_eq]
  simp only [subclauses] at h ⊢
  cases hclauses : field fields "clauses" with
  | none => exact .pure fun _ => .nil
  | some t =>
    rw [hclauses] at h
    cases t with
    | arr clauses => exact creates_clause_means h
    | atom _ | obj _ => exact .pure fun _ => .nil

section recognised
variable {graph : DirectedGraph} {fields : List (String × Term)}

theorem clause_goal_and (op : hasOp fields "and") : clause_goal graph (.obj fields) = (do
    let goals ← nested_goals graph fields
    return some (goal_and goals)) := by
  rw [hasOp, Term.str] at op
  simp [clause_goal, op]

theorem clause_goal_or (op : hasOp fields "or") : clause_goal graph (.obj fields) = (do
    let goals ← nested_goals graph fields
    return if goals.length > 0 then some (goal_or goals) else none) := by
  rw [hasOp, Term.str] at op
  simp [clause_goal, op]

theorem clause_goal_join_through (op : hasOp fields "join_through") : clause_goal graph (.obj fields) = (do
    let source ← logic_query_term (clauseField fields "source")
    let middle ← logic_query_term (clauseField fields "middle")
    let target ← logic_query_term (clauseField fields "target")
    return some (join_through graph source middle target)) := by
  rw [hasOp, Term.str] at op
  simp [clause_goal, op]

theorem clause_goal_binary {name first second : String} {goal : Term → Term → Goal} (op : hasOp fields name)
    (hgoal : binary_goal graph name = some (first, second, goal)) : clause_goal graph (.obj fields) = (do
    let a ← logic_query_term (clauseField fields first)
    let b ← logic_query_term (clauseField fields second)
    return some (goal a b)) := by
  have hnames : name ≠ "and" ∧ name ≠ "or" ∧ name ≠ "join_through" := by
    refine ⟨?_, ?_, ?_⟩ <;> rintro rfl <;> cases hgoal
  rw [hasOp, Term.str] at op
  simp [clause_goal, op, hnames, hgoal]

theorem creates_recognised (hgraph : Plain graph) {clause : Term} (h : Recognised graph clause) :
    Creates (clause_goal graph clause) fun final result =>
      ∃ goal, result = some goal ∧ ClauseMeans graph final clause goal := by
  induction h with
  | and op _ ih =>
    rw [clause_goal_and op]
    refine (creates_nested_means ih).bind fun goals => .pure fun final hgoals => ⟨_, rfl, fun ρ σ hρ => ?_⟩
    refine (means_and (forall₂_means hgoals hρ)).congr ?_
    rw [satisfies_and op, List.forall_mem_map]
  | or op hsome _ ih =>
    rw [clause_goal_or op]
    refine (creates_nested_means ih).bind fun goals => .pure fun final hgoals => ?_
    have hlen : goals.length > 0 := by
      rw [← hgoals.length_eq]
      exact List.length_pos_iff.2 hsome
    rw [if_pos hlen]
    refine ⟨_, rfl, fun ρ σ hρ => (means_or (forall₂_means hgoals hρ)).congr ?_⟩
    rw [satisfies_or op]
    simp only [List.mem_map, exists_exists_and_eq_and]
  | join_through op source middle target =>
    rw [clause_goal_join_through op]
    refine (creates_denoted source).bind fun a => (creates_denoted middle).bind fun b => (creates_denoted target).bind
      fun c => .pure fun final hc hb ha => ⟨_, rfl, fun ρ σ hρ => (means_join_through a b c).congr ?_⟩
    rw [satisfies_join_through op]
    have hedge := fun {x x' y y'} => @binary_congr graph "edge" "source" "target" (EdgeFact graph) rfl x x' y y'
    have h1 := ha.same ρ σ hρ
    have h2 := hb.same ρ σ hρ
    have h3 := hc.same ρ σ hρ
    constructor
    · rintro ⟨first, second⟩
      exact ⟨hedge h1 h2 first, hedge h2 h3 second⟩
    · rintro ⟨first, second⟩
      exact ⟨hedge h1.symm h2.symm first, hedge h2.symm h3.symm second⟩
  | binary op relation left right text =>
    obtain ⟨goal, hgoal, hmeans⟩ := binary_means hgraph relation
    rw [clause_goal_binary op hgoal]
    refine (creates_denoted left).bind fun a => (creates_denoted right).bind fun b =>
      .pure fun final hb ha => ⟨_, rfl, fun ρ σ hρ => (hmeans σ a b fun htext => ?_).congr ?_⟩
    · obtain ⟨s, hs, hliteral⟩ := text htext
      exact ⟨s, hb.text s hs hliteral⟩
    · rw [satisfies_binary op relation]
      have h1 := ha.same ρ σ hρ
      have h2 := hb.same ρ σ hρ
      exact ⟨binary_congr relation h1 h2, binary_congr relation h1.symm h2.symm⟩

end recognised

/-! ## The variables made are those of the clauses -/

/-- The computation makes variables for these names. -/
def Adds {α : Type} (run : Named α) (names : List String) : Prop :=
  ∀ (st : QueryVars) name, (∃ v, (run st).2.vars.get? name = some v) ↔ (∃ v, st.vars.get? name = some v) ∨ name ∈ names

section adds
variable {α β : Type}

theorem Adds.pure (a : α) : Adds (pure a) [] := by
  intro st name
  rw [List.mem_nil_iff, or_false]
  rfl

theorem Adds.bind {run : Named α} {f : α → Named β} {names more : List String} (h : Adds run names)
    (hf : ∀ a, Adds (f a) more) : Adds (run >>= f) (names ++ more) := by
  intro st name
  have h1 := h st name
  have h2 := hf (run st).1 (run st).2 name
  rw [h1] at h2
  rw [List.mem_append, ← or_assoc, ← h2]
  rfl

/-- A computation followed by one that makes no variables. -/
theorem Adds.map {run : Named α} {f : α → Named β} {names : List String} (h : Adds run names)
    (hf : ∀ a, Adds (f a) []) : Adds (run >>= f) names := List.append_nil names ▸ h.bind hf

theorem adds_query_var (name : String) : Adds (query_var name) [name] := by
  intro st name'
  cases h : st.vars.get? name with
  | some v =>
    have hrun : (query_var name st).2 = st := by simp only [query_var, h]
    rw [hrun, List.mem_singleton]
    refine ⟨.inl, fun h' => h'.elim id ?_⟩
    rintro rfl
    exact ⟨v, h⟩
  | none =>
    have hrun : (query_var name st).2.vars = st.vars.set name ⟨st.next, some (sliceFrom name 1)⟩ := by
      simp only [query_var, h]
    rw [hrun, List.mem_singleton]
    simp only [OrdMap.get?_set]
    by_cases hname : name' = name
    · simp [hname]
    · simp [hname]

theorem adds_inOrder {V : Type} {entries : List (String × V)} {run : V → Named Term} {names : V → List String}
    (h : ∀ e ∈ entries, Adds (run e.2) (names e.2)) :
    Adds (inOrder (entries.map fun e => (e.1, run e.2))) (entries.flatMap fun e => names e.2) := by
  induction entries with
  | nil => exact .pure _
  | cons e entries ih =>
    rw [List.forall_mem_cons] at h
    rw [List.flatMap_cons]
    exact h.1.bind fun t => (ih h.2).map fun _ => .pure _

end adds

theorem fieldsVars_eq (fields : List (String × Term)) : fieldsVars fields = fields.map fun f => (f.1, termVars f.2) := by
  induction fields with
  | nil => rfl
  | cons f fs ih => rw [fieldsVars, ih, List.map_cons]

mutual

theorem adds_term : ∀ t : Term, Adds (logic_query_term t) (termVars t)
  | .atom a => by
    cases a with
    | str s =>
      rw [logic_query_term, termVars]
      split
      · exact adds_query_var s
      · exact .pure _
    | _ => exact .pure _
  | .arr items => by
    rw [logic_query_term, termVars]
    exact (adds_items items).map fun _ => .pure _
  | .obj fields => by
    rw [logic_query_term, termVars, logic_query_fields_eq, fieldsVars_eq, ownEntries_map, ownEntries_map, List.flatMap_map]
    refine (adds_inOrder fun e he => ?_).map fun _ => .pure _
    exact adds_fields fields e (field_mem (mem_ownEntries.1 he))

theorem adds_items : ∀ items : List Term, Adds (logic_query_items items) (itemsVars items)
  | [] => .pure _
  | t :: ts => (adds_term t).bind fun _ => (adds_items ts).map fun _ => .pure _

theorem adds_fields : ∀ (fields : List (String × Term)), ∀ e ∈ fields, Adds (logic_query_term e.2) (termVars e.2)
  | [], _, he => nomatch he
  | (key, t) :: fields, e, he => by
    rcases List.mem_cons.1 he with rfl | he
    · exact adds_term t
    · exact adds_fields fields e he

end

theorem termKeys_of_binary {graph : DirectedGraph} {op first second : String} {goal : Term → Term → Goal}
    (h : binary_goal graph op = some (first, second, goal)) : termKeys graph op = [first, second] := by
  unfold binary_goal at h
  split at h <;> cases h <;> rfl

theorem termKeys_of_none {graph : DirectedGraph} {op : String} (hjoin : op ≠ "join_through")
    (h : binary_goal graph op = none) : termKeys graph op = [] := by
  rw [termKeys, if_neg hjoin]
  cases hrelation : binary_relation graph op with
  | none => rfl
  | some r =>
    unfold binary_relation at hrelation
    split at hrelation <;> cases hrelation <;> cases h

mutual

theorem adds_clause_goal (graph : DirectedGraph) : ∀ clause : Term, Adds (clause_goal graph clause) (clauseVars graph clause)
  | .atom _ => .pure _
  | .arr _ => .pure _
  | .obj fields => by
    rw [clause_goal, clauseVars]
    cases field fields "op" with
    | none => exact .pure _
    | some t =>
      cases t with
      | arr _ | obj _ => exact .pure _
      | atom a =>
        cases a with
        | str op =>
          dsimp only
          by_cases hand : op = "and"
          · rw [if_pos hand, if_pos (.inl hand)]
            exact (adds_nested_goals graph fields).map fun _ => .pure _
          · by_cases hor : op = "or"
            · rw [if_neg hand, if_pos hor, if_pos (.inr hor)]
              exact (adds_nested_goals graph fields).map fun _ => .pure _
            · rw [if_neg hand, if_neg hor, if_neg (not_or.2 ⟨hand, hor⟩)]
              by_cases hjoin : op = "join_through"
              · subst hjoin
                exact (adds_term _).bind fun _ => (adds_term _).bind fun _ => (adds_term _).bind fun _ => .pure _
              · rw [if_neg hjoin]
                cases hgoal : binary_goal graph op with
                | none =>
                  rw [termKeys_of_none hjoin hgoal]
                  exact .pure _
                | some g =>
                  obtain ⟨first, second, goal⟩ := g
                  rw [termKeys_of_binary hgoal]
                  exact (adds_term _).bind fun _ => (adds_term _).bind fun _ => .pure _
        | _ => exact .pure _

theorem adds_nested_goals (graph : DirectedGraph) :
    ∀ fields : List (String × Term), Adds (nested_goals graph fields) (nestedVars graph fields)
  | [] => .pure _
  | (key, .arr clauses) :: fields => by
    rw [nested_goals, nestedVars]
    split
    · exact adds_clause_goals graph clauses
    · exact adds_nested_goals graph fields
  | (key, .atom _) :: fields | (key, .obj _) :: fields => by
    simp only [nested_goals, nestedVars]
    split
    · exact .pure _
    · exact adds_nested_goals graph fields

theorem adds_clause_goals (graph : DirectedGraph) :
    ∀ clauses : List Term, Adds (clause_goals graph clauses) (clausesVars graph clauses)
  | [] => .pure _
  | clause :: clauses => (adds_clause_goal graph clause).bind fun _ => (adds_clause_goals graph clauses).map fun _ => .pure _

end

/-! ## The projection -/

theorem sliceFrom_injective {a b : String} (ha : startsWith a "?" = true) (hb : startsWith b "?" = true)
    (h : sliceFrom a 1 = sliceFrom b 1) : a = b := by
  have hcons : ∀ s : String, startsWith s "?" = true → s.toList = '?' :: s.toList.drop 1 := by
    intro s hs
    obtain ⟨rest, hrest⟩ := List.isPrefixOf_iff_prefix.1 hs
    rw [← hrest]
    rfl
  have hdrop : a.toList.drop 1 = b.toList.drop 1 := by simpa [sliceFrom] using congrArg String.toList h
  rw [← String.toList_inj, hcons a ha, hcons b hb, hdrop]

/-- A field made of a variable and its name. -/
theorem field_of_vars {V : Type} {f : String × LogicVar → V} {st : QueryVars} {k : String} {x : V}
    (hx : field (st.vars.entries.map fun e => (sliceFrom e.1 1, f e)) k = some x) :
    ∃ name v, st.vars.get? name = some v ∧ k = sliceFrom name 1 ∧ x = f (name, v) := by
  obtain ⟨⟨name, v⟩, he, heq⟩ := List.mem_map.1 (field_mem hx)
  cases heq
  exact ⟨name, v, (st.vars.mem_entries_iff name v).1 he, rfl, rfl⟩

theorem default_projection_root (st : QueryVars) : is_logic_var (default_projection st.vars) = none := by
  by_contra hne
  obtain ⟨v, hv⟩ := Option.ne_none_iff_exists'.1 hne
  obtain ⟨id, htype, -⟩ := is_logic_var_obj.1 hv
  obtain ⟨name, w, -, -, hterm⟩ := field_of_vars htype
  cases hterm

theorem default_projection_same {st : QueryVars} (hst : st.Ok) {names : List String}
    (hnames : ∀ name, name ∈ names ↔ ∃ v, st.vars.get? name = some v) {ρ : Assignment} {σ : Valuation}
    (hρ : Agrees st ρ σ) :
    Same (eval σ (default_projection st.vars)) (.obj (names.map fun name => (sliceFrom name 1, ρ name))) := by
  have hroot := default_projection_root st
  rw [default_projection] at hroot ⊢
  rw [eval_obj hroot, List.map_map]
  refine .obj (fun k => ?_) fun k x y hx hy => ?_
  · simp only [List.map_map, Function.comp_def, List.mem_map, Prod.exists, OrdMap.mem_entries_iff, hnames]
    exact ⟨fun ⟨name, v, hv, hk⟩ => ⟨name, ⟨v, hv⟩, hk⟩, fun ⟨name, ⟨v, hv⟩, hk⟩ => ⟨name, v, hv, hk⟩⟩
  · obtain ⟨name, v, hv, hk, rfl⟩ := field_of_vars hx
    obtain ⟨name', hname', heq⟩ := List.mem_map.1 (field_mem hy)
    cases heq
    obtain ⟨v', hv'⟩ := (hnames name').1 hname'
    obtain rfl := sliceFrom_injective (hst.mark name' v' hv') (hst.mark name v hv) hk
    rw [eval_var (is_logic_var_term v), hρ name' v hv]
    exact .refl _

/-! ## Adequacy -/

/-- The values that a valuation gives to the names. -/
def assignment (st : QueryVars) (σ : Valuation) : Assignment := fun name =>
  match st.vars.get? name with
  | some v => σ (.ofNat v.id)
  | none => .atom .undefined

theorem agrees_assignment (st : QueryVars) (σ : Valuation) : Agrees st (assignment st σ) σ := by
  intro name v hv
  rw [assignment, hv]

/-- Different names have different variables. -/
theorem QueryVars.Ok.find?_id {st : QueryVars} (hst : st.Ok) {name : String} {v : LogicVar} (hv : st.vars.get? name = some v) :
    (st.vars.entries.find? fun e => JsNumber.ofNat e.2.id = .ofNat v.id) = some (name, v) := by
  have hmem := (st.vars.mem_entries_iff name v).2 hv
  cases hfind : st.vars.entries.find? fun e => JsNumber.ofNat e.2.id = .ofNat v.id with
  | none => exact absurd (List.find?_eq_none.1 hfind _ hmem) (by simp)
  | some e =>
    obtain ⟨name', v'⟩ := e
    have hv' := (st.vars.mem_entries_iff name' v').1 (List.mem_of_find?_eq_some hfind)
    have hid : JsNumber.ofNat v'.id = .ofNat v.id := by simpa using List.find?_some hfind
    obtain rfl := hst.inj name' name v' v hv' hv (Decimal.ofNat_injective (JsNumber.finite.inj hid))
    rw [Option.some.inj (hv'.symm.trans hv)]

/-- Any values can be given to the names. -/
theorem exists_agrees {st : QueryVars} (hst : st.Ok) (ρ : Assignment) : ∃ σ, Agrees st ρ σ := by
  refine ⟨fun key => ((st.vars.entries.find? fun e => JsNumber.ofNat e.2.id = key).map fun e => ρ e.1).getD (.atom .undefined),
    fun name v hv => ?_⟩
  beta_reduce
  rw [hst.find?_id hv, Option.map_some, Option.getD_some]

/-- The goals and the projection of a query, under the variables made for it. -/
theorem query_translates {graph : DirectedGraph} (hgraph : Plain graph) {parsed : LogicQuerySpec} {next : ℕ}
    {goals : List Goal} {st : QueryVars} (hclauses : ∀ c ∈ parsed.where, Recognised graph c)
    (hselect : ∀ t, parsed.select = some t → NoVars t)
    (hrun : (clause_goals graph parsed.where).run { vars := OrdMap.empty, next := next } = (goals, st)) :
    goals.length = parsed.where.length ∧ ((query_projection parsed).run st).2.Ok ∧
      ∀ ρ σ, Agrees ((query_projection parsed).run st).2 ρ σ →
        Means σ (goal_and goals) (∀ c ∈ parsed.where, Satisfies graph ρ c) ∧
          Same (eval σ ((query_projection parsed).run st).1) (projected graph parsed ρ) := by
  have hobjects : parsed.where.filter isObject = parsed.where := by
    refine List.filter_eq_self.2 fun c hc => ?_
    cases hclauses c hc <;> rfl
  have hcreates := creates_clause_means fun c hc => creates_recognised hgraph (hclauses c (hobjects ▸ hc))
  obtain ⟨hok, -, hmeans⟩ := hcreates _ (QueryVars.ok_empty next)
  have hrun' : clause_goals graph parsed.where { vars := OrdMap.empty, next := next } = (goals, st) := hrun
  rw [hrun'] at hok hmeans
  rw [hobjects] at hmeans
  have hand : ∀ final, st.Le final → ∀ ρ σ, Agrees final ρ σ →
      Means σ (goal_and goals) (∀ c ∈ parsed.where, Satisfies graph ρ c) := fun final hle ρ σ hρ =>
    (means_and (forall₂_means (hmeans final hle) hρ)).congr (by rw [List.forall_mem_map])
  refine ⟨(hmeans st fun _ _ h => h).length_eq.symm, ?_⟩
  simp only [query_projection, projected]
  cases hsel : parsed.select with
  | some select =>
    obtain ⟨hok', hle, hdenotes⟩ := creates_denoted (hselect select hsel) st hok
    exact ⟨hok', fun ρ σ hρ => ⟨hand _ hle ρ σ hρ, (hdenotes _ fun _ _ h => h).same ρ σ hρ⟩⟩
  | none =>
    have hnames : ∀ name, name ∈ clausesVars graph parsed.where ↔ ∃ v, st.vars.get? name = some v := by
      intro name
      have hadds := adds_clause_goals graph parsed.where { vars := OrdMap.empty, next := next } name
      rw [hrun'] at hadds
      simpa using hadds.symm
    exact ⟨hok, fun ρ σ hρ => ⟨hand st (fun _ _ h => h) ρ σ hρ, default_projection_same hok hnames hρ⟩⟩

theorem reifyRows_all {fuel : ℕ} {projection : Term} {states : List GoalState} {count : ℕ} {rows : List Term}
    (h : reifyRows fuel projection none states count = .ok rows) :
    List.Forall₂ (fun state row => reify fuel projection state.subst = .ok row) states rows := by
  induction states generalizing count rows with
  | nil => cases h; exact .nil
  | cons state states ih =>
    obtain ⟨row, hrow, h⟩ := except_bind_eq_ok h
    obtain ⟨rest, hrest, h⟩ := except_bind_eq_ok h
    cases h
    exact .cons hrow (ih hrest)

/-- The answers of a run whose checked run returns are acyclic. -/
theorem answers_acyclic {goal : Goal} (hgoal : Regular goal) {projection : Term} {limit : Option ℕ} {counter : ℕ}
    {checkedFuel : ℕ} {checkedRows : List Term}
    (hchecked : run_goal bind_checked checkedFuel goal projection limit counter = .ok checkedRows) {fuel : ℕ}
    {states : List GoalState}
    (hrun : goal bind_unchecked fuel { subst := OrdMap.empty, counter := counter } = .ok states) :
    ∀ s ∈ states, Acyclic s.subst := by
  obtain ⟨checked, hstates, -⟩ := except_bind_eq_ok hchecked
  have hreal := (hgoal.upto _ trivial _ _ bind_checked_upto_unchecked checkedFuel checkedFuel le_rfl _).ok hstates
  obtain rfl := (hgoal.grows_unchecked _).ok_unique hrun hreal
  exact hgoal.acyclic checkedFuel _ states acyclic_empty hstates

/-- A run of the query returns, its ground rows are projections of satisfying
assignments, and the projection of each satisfying assignment is an instance of
a row. -/
theorem query_adequate {JSON_parse : String → Option Term} {next : ℕ} {graph : DirectedGraph} {query : Term}
    {parsed : LogicQuerySpec} (hgraph : Plain graph) (hparsed : to_logic_query_spec JSON_parse query = some parsed)
    (hwhere : parsed.where ≠ []) (hlimit : parsed.limit = none) (hclauses : ∀ c ∈ parsed.where, Recognised graph c)
    (hselect : ∀ t, parsed.select = some t → NoVars t) (hcyclic : NeverCyclic JSON_parse next graph query) :
    (∃ fuel rows, graph_rel_run_query JSON_parse next fuel graph query = .ok rows) ∧
      ∀ fuel rows, graph_rel_run_query JSON_parse next fuel graph query = .ok rows →
        (∀ row ∈ rows, NoVars row →
          ∃ ρ, (∀ c ∈ parsed.where, Satisfies graph ρ c) ∧ Same (literal row) (projected graph parsed ρ)) ∧
        ∀ ρ, (∀ c ∈ parsed.where, Satisfies graph ρ c) → ∃ row ∈ rows, InstanceOf row (projected graph parsed ρ) := by
  refine ⟨query_returns hcyclic, fun fuel rows hrows => ?_⟩
  obtain ⟨checkedFuel, checkedRows, hchecked⟩ := checked_run_returns hcyclic
  cases hrun : (clause_goals graph parsed.where).run { vars := OrdMap.empty, next := next } with
  | mk goals st =>
    obtain ⟨hlen, hok, hmeaning⟩ := query_translates hgraph hclauses hselect hrun
    have hgoals : goals.length ≠ 0 := by
      rw [hlen]
      exact fun h => hwhere (List.length_eq_zero_iff.1 h)
    have hregular : Regular (goal_and goals) := by
      obtain ⟨-, -, h⟩ := creates_clause_goals graph parsed.where _ (QueryVars.ok_empty next)
      have hrun' : clause_goals graph parsed.where { vars := OrdMap.empty, next := next } = (goals, st) := hrun
      replace h := h _ fun _ _ h => h
      rw [hrun'] at h
      exact regular_and h
    rw [run_query_eq hparsed hrun hgoals] at hchecked
    rw [graph_rel_run_query, run_query_eq hparsed hrun hgoals] at hrows
    obtain ⟨states, hstates, hreify⟩ := except_bind_eq_ok hrows
    have hacyclic := answers_acyclic hregular hchecked hstates
    rw [hlimit] at hreify
    have hforall := reifyRows_all hreify
    have hempty : ∀ σ, Solves σ (OrdMap.empty : Substitution) := fun σ v t h => by simp at h
    constructor
    · intro row hrow hground
      obtain ⟨state, hstate, hreified⟩ := forall₂_mem_right hforall hrow
      obtain ⟨σ, hσ⟩ := exists_solution (hacyclic state hstate)
      have hagrees := agrees_assignment ((query_projection parsed).run st).2 σ
      obtain ⟨hmeans, hprojection⟩ := hmeaning _ σ hagrees
      refine ⟨_, ((hmeans _ binds_unchecked fuel _ states hstates).1 ⟨state, hstate, hσ⟩).2, ?_⟩
      have hreads := (substitute_reads hσ hreified).same (.inl hground)
      exact ((eval_literal hground σ).symm.trans hreads).trans hprojection
    · intro ρ hρ
      obtain ⟨σ, hagrees⟩ := exists_agrees hok ρ
      obtain ⟨hmeans, hprojection⟩ := hmeaning ρ σ hagrees
      obtain ⟨state, hstate, hσ⟩ := (hmeans _ binds_unchecked fuel _ states hstates).2 ⟨hempty σ, hρ⟩
      obtain ⟨row, hrow, hreified⟩ := forall₂_mem_left hforall hstate
      have hreads := (substitute_reads hσ hreified).congr hprojection
      exact ⟨row, hrow, σ, hreads, fun hfree => hreads.same (.inr hfree)⟩

theorem cellGraph_plain : Plain cellGraph where
  ids := by
    intro id hid
    have hkeys : cellGraph.nodes.keys = ["c", "p"] := rfl
    rw [OrdMap.has_iff_mem_keys, hkeys] at hid
    simp only [List.mem_cons, List.not_mem_nil, or_false] at hid
    rcases hid with rfl | rfl <;> decide
  attributes := by
    intro id attrs hid
    have hentries : cellGraph.nodes.entries = [("c", [("kind", .str "cell")]), ("p", [])] := rfl
    rw [← OrdMap.mem_entries_iff, hentries] at hid
    simp only [List.mem_cons, List.not_mem_nil, or_false, Prod.mk.injEq] at hid
    rcases hid with ⟨-, rfl⟩ | ⟨-, rfl⟩
    · refine .obj rfl fun k x hx => ?_
      obtain ⟨rfl, rfl⟩ := Prod.mk.inj (List.mem_singleton.1 (field_mem hx))
      exact .atom _
    · exact .obj rfl fun k x hx => absurd (field_mem hx) (by simp)

theorem cellQuery_adequate :
    (∃ fuel rows, graph_rel_run_query (fun _ => none) 0 fuel cellGraph cellQuery = .ok rows) ∧
      ∀ fuel rows, graph_rel_run_query (fun _ => none) 0 fuel cellGraph cellQuery = .ok rows →
        (∀ row ∈ rows, NoVars row → ∃ ρ, (∀ c ∈ cellClauses, Satisfies cellGraph ρ c) ∧
          Same (literal row) (projected cellGraph ⟨cellClauses, none, none⟩ ρ)) ∧
        ∀ ρ, (∀ c ∈ cellClauses, Satisfies cellGraph ρ c) →
          ∃ row ∈ rows, InstanceOf row (projected cellGraph ⟨cellClauses, none, none⟩ ρ) := by
  have hclauses : ∀ c ∈ cellClauses, Recognised cellGraph c := by
    intro c hc
    simp only [cellClauses, List.mem_cons, List.not_mem_nil, or_false] at hc
    rcases hc with rfl | rfl
    · exact .binary (R := AttrFact cellGraph "kind" fun _ => True) rfl rfl (.atom _) (.atom _) (by simp [needsText])
    · exact .binary (R := PathFact cellGraph) rfl rfl (.atom _) (.atom _) (by simp [needsText])
  exact @query_adequate (fun _ => none) 0 cellGraph cellQuery ⟨cellClauses, none, none⟩ cellGraph_plain rfl
    (by simp [cellClauses]) rfl hclauses (fun _ h => by simp at h) (neverCyclic_of_ok cellQuery_checked)

end LainLang.Tracer
