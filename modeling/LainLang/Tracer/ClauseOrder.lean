import LainLang.Tracer.Worlds
/-!
# The order of clauses

The alternatives of a conjunction do not know the order of its plans, so two
orders of the clauses of a query take from the same alternatives. Their ground
rows are the same unless in one of the runs a label filter comes to an unbound
variable.
-/
open LainLang.Lib LainLang.Js

namespace LainLang.Tracer

/-! ## Valuations for a world -/

/-- The trees of the names for their variables, of the keys for all others. -/
def valuationOf (final : QueryVars) (w : World) : TreeValuation := fun key =>
  match final.vars.entries.find? fun e => JsNumber.ofNat e.2.id = key with
  | some e => w.names e.1
  | none => w.keys key

section valuationOf
variable {base : ℕ} {final : QueryVars} {w : World}

theorem valuationOf_name (hok : final.Ok) {name : String} {v : LogicVar} (hv : final.vars.get? name = some v) :
    valuationOf final w (.ofNat v.id) = w.names name := by
  rw [valuationOf, hok.find?_id hv]

theorem valuationOf_old (hfrom : FromCounter base final) {key : JsNumber} (hkey : ∀ n, base ≤ n → key ≠ .ofNat n) :
    valuationOf final w key = w.keys key := by
  rw [valuationOf]
  cases hfind : final.vars.entries.find? fun e => JsNumber.ofNat e.2.id = key with
  | none => rfl
  | some e =>
    have hid : JsNumber.ofNat e.2.id = key := by simpa using List.find?_some hfind
    have hv := (final.vars.mem_entries_iff e.1 e.2).1 (List.mem_of_find?_eq_some hfind)
    exact absurd hid.symm (hkey _ (hfrom.ids e.1 e.2 hv))

/-- A world of one numbering is a world of every other one of the same names. -/
theorem worldOf_valuationOf (hok : final.Ok) (hfrom : FromCounter base final) {final' : QueryVars}
    (hnames : ∀ name, (∃ v, final'.vars.get? name = some v) ↔ ∃ v, final.vars.get? name = some v) (σ : TreeValuation) :
    worldOf base final (valuationOf final (worldOf base final' σ)) = worldOf base final' σ := by
  refine World.ext (funext fun name => ?_) (funext fun key => ?_)
  · -- Names: by the variable made for each.
    cases hv : final.vars.get? name with
    | some v =>
      refine Eq.trans ?_ (valuationOf_name hok hv)
      simp only [worldOf, hv]
    | none =>
      cases hv' : final'.vars.get? name with
      | some v' =>
        obtain ⟨v, hv''⟩ := (hnames name).1 ⟨v', hv'⟩
        rw [hv] at hv''
        cases hv''
      | none => simp only [worldOf, hv, hv']
  · -- Keys: only those below the counter are old.
    by_cases hkey : ∃ n, base ≤ n ∧ key = .ofNat n
    · simp only [worldOf, if_pos hkey]
    · have hold : ∀ n, base ≤ n → key ≠ .ofNat n := fun n hn h => hkey ⟨n, hn, h⟩
      refine (if_neg hkey).trans ?_
      rw [valuationOf_old hfrom hold]

end valuationOf

/-! ## The projection -/

theorem projection_named {base : ℕ} {parsed : LogicQuerySpec} (hselect : ∀ t, parsed.select = some t → Old base t)
    {st final : QueryVars} {projection : Term} (hst : st.Ok) (hrun : (query_projection parsed).run st = (projection, final)) :
    final.Ok ∧ st.Le final ∧ (∀ t, parsed.select = some t → ∀ σ, tree σ projection = meaning (worldOf base final σ) t) ∧
      (parsed.select = none → projection = default_projection final.vars) := by
  rw [query_projection] at hrun
  cases hsel : parsed.select with
  | some select =>
    rw [hsel] at hrun
    obtain ⟨hok, hle, htranslated⟩ := creates_translated (hselect select hsel) st hst
    have hrun' : logic_query_term select st = (projection, final) := hrun
    rw [hrun'] at hok hle htranslated
    refine ⟨hok, hle, fun t ht => ?_, by simp⟩
    cases ht
    exact (htranslated final fun _ _ h => h).tree
  | none =>
    rw [hsel] at hrun
    cases hrun
    exact ⟨hst, fun _ _ h => h, by simp, fun _ => rfl⟩

theorem meaning_default {base : ℕ} {st st' : QueryVars} (hst : st.Ok) (hst' : st'.Ok)
    (hnames : ∀ name, (∃ v, st.vars.get? name = some v) ↔ ∃ v, st'.vars.get? name = some v) {σ σ' : TreeValuation}
    (hworld : worldOf base st σ = worldOf base st' σ') :
    tree σ (default_projection st.vars) = tree σ' (default_projection st'.vars) := by
  refine (tree_eq_iff (default_projection_root st) (default_projection_root st')).2
    ⟨congrArg Outline.obj (Set.ext fun k => ?_), fun place x y hx hy => ?_⟩
  · simp only [List.map_map, Function.comp_def, Set.mem_ofPred_eq, List.mem_map, Prod.exists, OrdMap.mem_entries_iff]
    constructor
    · rintro ⟨name, v, hv, hk⟩
      obtain ⟨v', hv'⟩ := (hnames name).1 ⟨v, hv⟩
      exact ⟨name, v', hv', hk⟩
    · rintro ⟨name, v, hv, hk⟩
      obtain ⟨v', hv'⟩ := (hnames name).2 ⟨v, hv⟩
      exact ⟨name, v', hv', hk⟩
  · cases place with
    | item i => cases hx
    | key k =>
      obtain ⟨name, v, hv, hk, rfl⟩ := field_of_vars hx
      obtain ⟨name', v', hv', hk', rfl⟩ := field_of_vars hy
      obtain rfl := sliceFrom_injective (hst.mark name v hv) (hst'.mark name' v' hv') (hk.symm.trans hk')
      have hname := congrFun (congrArg World.names hworld) name
      simp only [worldOf, hv, hv'] at hname
      rw [tree_var (is_logic_var_term v), tree_var (is_logic_var_term v'), hname]

/-! ## Runs of a query -/

/-- The plans of a query and what it projects. -/
def nameQuery (graph : DirectedGraph) (parsed : LogicQuerySpec) : Named (List Plan × Term) := do
  let plans ← namePlans (clause_plans graph parsed.where)
  return (plans, ← query_projection parsed)

/-- The same with the variables made for them. -/
def namedQuery (graph : DirectedGraph) (parsed : LogicQuerySpec) (next : ℕ) : (List Plan × Term) × QueryVars :=
  (nameQuery graph parsed).run { vars := OrdMap.empty, next := next }

/-- The run of the query comes to a label filter whose value is an unbound variable. -/
def QueryAsks (next fuel : ℕ) (graph : DirectedGraph) (parsed : LogicQuerySpec) : Prop :=
  (Plan.and (namedQuery graph parsed next).1.1).Asks graph bind_unchecked fuel
    { subst := OrdMap.empty, counter := (namedQuery graph parsed next).2.next }

theorem namePlans_length (plans : List Plan) (st : QueryVars) : (namePlans plans st).1.length = plans.length := by
  induction plans generalizing st with
  | nil => rfl
  | cons plan plans ih => exact congrArg Nat.succ (ih _)

section runs
variable {JSON_parse : String → Option Term} {graph : DirectedGraph} {query : Term} {parsed : LogicQuerySpec}

theorem clause_goals_run (next : ℕ) : (clause_goals graph parsed.where).run { vars := OrdMap.empty, next := next } =
    (planGoals graph (namePlans (clause_plans graph parsed.where) { vars := OrdMap.empty, next := next }).1,
      (namePlans (clause_plans graph parsed.where) { vars := OrdMap.empty, next := next }).2) := by
  rw [clause_goals_plans]
  rfl

/-- A query with plans runs their conjunction. -/
theorem run_plans_eq (hparsed : to_logic_query_spec JSON_parse query = some parsed)
    (hplans : clause_plans graph parsed.where ≠ []) (next fuel : ℕ) : graph_rel_run_query JSON_parse next fuel graph query =
      run_goal bind_unchecked fuel ((Plan.and (namedQuery graph parsed next).1.1).goal graph) (namedQuery graph parsed next).1.2
        (rowLimit parsed.limit) (namedQuery graph parsed next).2.next := by
  refine run_query_eq hparsed (clause_goals_run next) (fun hlength => hplans ?_) bind_unchecked fuel
  rw [planGoals_eq, List.length_map, namePlans_length] at hlength
  exact List.length_eq_zero_iff.1 hlength

theorem run_plans_nil (hparsed : to_logic_query_spec JSON_parse query = some parsed)
    (hplans : clause_plans graph parsed.where = []) (next fuel : ℕ) :
    graph_rel_run_query JSON_parse next fuel graph query = .ok [] := by
  simp only [graph_rel_run_query, run_query_with, hparsed, clause_goals_run, hplans]
  rfl

end runs

/-- What a run has made of a query when it returns. -/
structure Answered (base : ℕ) (graph : DirectedGraph) (parsed : LogicQuerySpec) (asks : Prop) (final : QueryVars)
    (projection : Term) (states : List GoalState) : Prop where
  ok : final.Ok
  fromCounter : FromCounter base final
  names : ∀ name, (∃ v, final.vars.get? name = some v) ↔
    name ∈ clausesVars graph parsed.where ∨ name ∈ parsed.select.elim [] termVars
  select : ∀ t, parsed.select = some t → ∀ σ, tree σ projection = meaning (worldOf base final σ) t
  default : parsed.select = none → projection = default_projection final.vars
  taken : ∀ s ∈ states, ∃ α ∈ allAlternatives graph meaning meaningOfData (clause_plans graph parsed.where),
    solutions s = Set.preimage (worldOf base final) α
  covered : ¬ asks → ∀ α ∈ allAlternatives graph meaning meaningOfData (clause_plans graph parsed.where),
    (Set.preimage (worldOf base final) α).Nonempty → ∃ s ∈ states, solutions s = Set.preimage (worldOf base final) α

theorem adds_clause_plans (graph : DirectedGraph) (clauses : List Term) :
    Adds (namePlans (clause_plans graph clauses)) (clausesVars graph clauses) := by
  intro st name
  have h := adds_clause_goals graph clauses st name
  rw [clause_goals_plans] at h
  exact h

theorem adds_query_projection (parsed : LogicQuerySpec) : Adds (query_projection parsed) (parsed.select.elim [] termVars) := by
  rw [query_projection]
  cases parsed.select with
  | some select => exact adds_term select
  | none =>
    intro st name
    exact (or_iff_left List.not_mem_nil).symm

theorem adds_nameQuery (graph : DirectedGraph) (parsed : LogicQuerySpec) :
    Adds (nameQuery graph parsed) (clausesVars graph parsed.where ++ parsed.select.elim [] termVars) :=
  (adds_clause_plans graph parsed.where).bind fun _ => (adds_query_projection parsed).map fun _ => .pure _

theorem countsUp_query_projection (base : ℕ) (parsed : LogicQuerySpec) : CountsUp base (query_projection parsed) := by
  rw [query_projection]
  cases parsed.select with
  | some select => exact countsUp_term select
  | none => exact fun _ h => h

theorem countsUp_nameQuery (base : ℕ) (graph : DirectedGraph) (parsed : LogicQuerySpec) :
    CountsUp base (nameQuery graph parsed) :=
  (countsUp_names _).bind fun _ => (countsUp_query_projection base parsed).bind fun _ => .pure _

theorem solutions_start (counter : ℕ) : solutions { subst := OrdMap.empty, counter := counter } = Set.univ :=
  Set.eq_univ_of_forall fun σ v t h => by simp at h

section answered
variable {JSON_parse : String → Option Term} {base next : ℕ} {graph : DirectedGraph} {query : Term} {parsed : LogicQuerySpec}

theorem query_answered (hparsed : to_logic_query_spec JSON_parse query = some parsed) (hlimit : parsed.limit = none)
    (hbase : base ≤ next) (hgraph : OldAttributes base graph) (hplans : AllPlans (Old base) (clause_plans graph parsed.where))
    (hselect : ∀ t, parsed.select = some t → Old base t) (hsome : clause_plans graph parsed.where ≠ []) {fuel : ℕ}
    {rows : List Term} (hrun : graph_rel_run_query JSON_parse next fuel graph query = .ok rows) :
    ∃ final projection states, Answered base graph parsed (QueryAsks next fuel graph parsed) final projection states ∧
      List.Forall₂ (fun state row => reify fuel projection state.subst = .ok row) states rows := by
  rw [run_plans_eq hparsed hsome] at hrun
  obtain ⟨states, hstates, hreify⟩ := except_bind_eq_ok hrun
  rw [hlimit] at hreify
  obtain ⟨hst, -, hoffers⟩ := creates_names hgraph _ hplans _ (QueryVars.ok_empty next)
  obtain ⟨hok, hle, hmeaning, hdefault⟩ := projection_named hselect hst rfl
  have hsame : (Plan.and (namedQuery graph parsed next).1.1).alternatives graph tree tree =
      Set.preimage (worldOf base (namedQuery graph parsed next).2) ''
        allAlternatives graph meaning meaningOfData (clause_plans graph parsed.where) := offers_all (hoffers _ hle)
  obtain ⟨htaken, hcovered⟩ := plan_exact binds_unchecked (.and (namedQuery graph parsed next).1.1) hstates
  rw [hsame, solutions_start] at htaken hcovered
  refine ⟨(namedQuery graph parsed next).2, (namedQuery graph parsed next).1.2, states, ?_, reifyRows_all hreify⟩
  refine ⟨hok, ?_, fun name => ?_, hmeaning, hdefault, fun s hs => ?_, fun hasks α hα hnonempty => ?_⟩
  · exact countsUp_nameQuery base graph parsed _ ⟨hbase, fun name v h => by simp at h⟩
  · refine (adds_nameQuery graph parsed _ name).trans ?_
    simp
  · obtain ⟨_, ⟨α, hα, rfl⟩, hsol⟩ := htaken s hs
    exact ⟨α, hα, hsol.trans (Set.univ_inter _)⟩
  · obtain ⟨s, hs, hsol⟩ := hcovered hasks _ ⟨α, hα, rfl⟩ (by rwa [Set.univ_inter])
    exact ⟨s, hs, hsol.trans (Set.univ_inter _)⟩

end answered

/-! ## Two orders -/

theorem mem_clausesVars {graph : DirectedGraph} {clauses : List Term} {name : String} :
    name ∈ clausesVars graph clauses ↔ ∃ c ∈ clauses, name ∈ clauseVars graph c := by
  induction clauses with
  | nil => simp [clausesVars]
  | cons c cs ih => simp only [clausesVars, List.mem_append, ih, List.exists_mem_cons_iff]

section orders
variable {base : ℕ} {graph : DirectedGraph} {parsed parsed' : LogicQuerySpec} {asks asks' : Prop} {final final' : QueryVars}
  {projection projection' : Term} {states states' : List GoalState} (hclauses : parsed.where.Perm parsed'.where)
  (hselect : parsed'.select = parsed.select) (h : Answered base graph parsed asks final projection states)
  (h' : Answered base graph parsed' asks' final' projection' states')
include hclauses hselect h h'

theorem same_names (name : String) : (∃ v, final.vars.get? name = some v) ↔ ∃ v, final'.vars.get? name = some v := by
  rw [h.names, h'.names, hselect, mem_clausesVars, mem_clausesVars]
  exact or_congr_left (exists_congr fun c => and_congr_left fun _ => hclauses.mem_iff)

/-- In the same world both orders project the same. -/
theorem same_projection {σ σ' : TreeValuation} (hworld : worldOf base final σ = worldOf base final' σ') :
    tree σ projection = tree σ' projection' := by
  cases hsel : parsed.select with
  | some select => rw [h.select select hsel, h'.select select (hselect.trans hsel), hworld]
  | none =>
    rw [h.default hsel, h'.default (hselect.trans hsel)]
    exact meaning_default h.ok h'.ok (same_names hclauses hselect h h') hworld

/-- Every world of one order is a world of the other. -/
theorem other_world (σ' : TreeValuation) : ∃ σ, worldOf base final σ = worldOf base final' σ' :=
  ⟨_, worldOf_valuationOf h.ok h.fromCounter (fun name => (same_names hclauses hselect h h' name).symm) σ'⟩

/-- What one order answers the other answers, if no label filter in it gives up. -/
theorem ground_rows {fuel fuel' : ℕ} {rows rows' : List Term} (hasks : ¬ asks')
    (hrows : List.Forall₂ (fun state row => reify fuel projection state.subst = .ok row) states rows)
    (hrows' : List.Forall₂ (fun state row => reify fuel' projection' state.subst = .ok row) states' rows') :
    ∀ row ∈ rows, NoVars row → ∃ row' ∈ rows', NoVars row' ∧ Same (literal row) (literal row') := by
  intro row hrow hground
  obtain ⟨s, hs, hreify⟩ := forall₂_mem_right hrows hrow
  obtain ⟨α, hα, hsol⟩ := h.taken s hs
  have hα' : α ∈ allAlternatives graph meaning meaningOfData (clause_plans graph parsed'.where) := by
    rw [clause_plans_eq] at hα ⊢
    rwa [← allAlternatives_perm graph meaning meaningOfData (hclauses.filterMap (clause_plan graph))]
  have hnonempty : (Set.preimage (worldOf base final') α).Nonempty := by
    obtain ⟨σ, hσ⟩ := solutions_nonempty s
    obtain ⟨σ', hworld⟩ := other_world hclauses.symm hselect.symm h' h σ
    refine ⟨σ', ?_⟩
    rw [Set.mem_preimage, hworld]
    rwa [hsol] at hσ
  obtain ⟨s', hs', hsol'⟩ := h'.covered hasks α hα' hnonempty
  obtain ⟨row', hrow', hreify'⟩ := forall₂_mem_left hrows' hs'
  refine ⟨row', hrow', substitute_ground hreify' hground fun σ' hσ' => ?_⟩
  -- A solution of the other answer gives its projection the tree that one of this answer gives the row.
  obtain ⟨σ, hworld⟩ := other_world hclauses hselect h h' σ'
  have hσ : σ ∈ solutions s := by
    have hmem : σ' ∈ solutions s' := hσ'
    rw [hsol'] at hmem
    rwa [hsol, Set.mem_preimage, hworld]
  calc tree σ' projection' = tree σ projection := (same_projection hclauses hselect h h' hworld).symm
    _ = tree σ row := substitute_tree hσ hreify hground
    _ = tree σ' row := tree_noVars hground σ σ'

end orders

/-! ## The theorem -/

section
variable {JSON_parse : String → Option Term} {base next next' fuel fuel' : ℕ} {graph : DirectedGraph} {query query' : Term}
  {parsed : LogicQuerySpec} {clauses : List Term} {rows rows' : List Term}

/-- The ground rows of one order are rows of the other if no label filter in the
run of the other comes to an unbound variable. -/
theorem clause_order (hparsed : to_logic_query_spec JSON_parse query = some parsed)
    (hparsed' : to_logic_query_spec JSON_parse query' = some { parsed with «where» := clauses })
    (hclauses : parsed.where.Perm clauses) (hlimit : parsed.limit = none) (hbase : base ≤ next) (hbase' : base ≤ next')
    (hgraph : OldAttributes base graph) (hplans : ∀ plan ∈ clause_plans graph parsed.where, plan.All (Old base))
    (hselect : ∀ t, parsed.select = some t → Old base t)
    (hrun : graph_rel_run_query JSON_parse next fuel graph query = .ok rows)
    (hrun' : graph_rel_run_query JSON_parse next' fuel' graph query' = .ok rows') :
    (¬ QueryAsks next' fuel' graph { parsed with «where» := clauses } →
      ∀ row ∈ rows, NoVars row → ∃ row' ∈ rows', NoVars row' ∧ Same (literal row) (literal row')) ∧
    (¬ QueryAsks next fuel graph parsed →
      ∀ row' ∈ rows', NoVars row' → ∃ row ∈ rows, NoVars row ∧ Same (literal row') (literal row)) := by
  have hsame : (clause_plans graph parsed.where).Perm (clause_plans graph clauses) := by
    rw [clause_plans_eq, clause_plans_eq]
    exact hclauses.filterMap (clause_plan graph)
  by_cases hsome : clause_plans graph parsed.where = []
  · -- Without plans both orders return no rows.
    have hsome' : clause_plans graph clauses = [] := (hsome ▸ hsame).nil_eq.symm
    rw [run_plans_nil hparsed hsome] at hrun
    rw [run_plans_nil hparsed' hsome'] at hrun'
    cases hrun
    cases hrun'
    exact ⟨fun _ row hrow => absurd hrow (by simp), fun _ row hrow => absurd hrow (by simp)⟩
  · have hsome' : clause_plans graph clauses ≠ [] := fun h => hsome (h ▸ hsame).eq_nil
    obtain ⟨final, projection, states, h, hrows⟩ :=
      query_answered hparsed hlimit hbase hgraph (allPlans_iff.2 hplans) hselect hsome hrun
    have hplans' : ∀ plan ∈ clause_plans graph clauses, plan.All (Old base) := fun p hp => hplans p (hsame.mem_iff.2 hp)
    obtain ⟨final', projection', states', h', hrows'⟩ :=
      query_answered hparsed' hlimit hbase' hgraph (allPlans_iff.2 hplans') hselect hsome' hrun'
    refine ⟨fun hasks => ?_, fun hasks => ?_⟩
    · exact @ground_rows base graph parsed { parsed with «where» := clauses } _ _ _ _ _ _ _ _ hclauses rfl h h'
        _ _ _ _ hasks hrows hrows'
    · exact @ground_rows base graph { parsed with «where» := clauses } parsed _ _ _ _ _ _ _ _ hclauses.symm rfl h' h
        _ _ _ _ hasks hrows' hrows

end

/-- A query of its clauses only. -/
def whereQuery (clauses : List Term) : Term := .obj [("where", .arr clauses)]

/-- The cells and what they reach, the other way round and with later variables. -/
theorem cellClauses_order : ∃ rows rows',
    graph_rel_run_query (fun _ => none) 0 9 cellGraph (whereQuery cellClauses) = .ok rows ∧
      graph_rel_run_query (fun _ => none) 2 9 cellGraph (whereQuery cellClauses.reverse) = .ok rows' ∧
        (∀ row ∈ rows, NoVars row → ∃ row' ∈ rows', NoVars row' ∧ Same (literal row) (literal row')) ∧
        ∀ row' ∈ rows', NoVars row' → ∃ row ∈ rows, NoVars row ∧ Same (literal row') (literal row) := by
  have hrun : graph_rel_run_query (fun _ => none) 0 9 cellGraph (whereQuery cellClauses) =
      .ok [.obj [("x", .str "c"), ("y", .str "p")]] := by decide +kernel
  have hrun' : graph_rel_run_query (fun _ => none) 2 9 cellGraph (whereQuery cellClauses.reverse) =
      .ok [.obj [("x", .str "c"), ("y", .str "p")]] := by decide +kernel
  have hgraph : OldAttributes 0 cellGraph := fun id attrs hid => (cellGraph_plain.attributes id attrs hid).old
  have hplans : ∀ plan ∈ clause_plans cellGraph cellClauses, plan.All (Old 0) := by
    have hlist : clause_plans cellGraph cellClauses = [.binary "kind" (.str "?x") (.str "cell"),
      .binary "reachable" (.str "?x") (.str "?y")] := rfl
    rw [hlist, ← allPlans_iff]
    exact ⟨⟨old_atom 0 _, old_atom 0 _⟩, ⟨old_atom 0 _, old_atom 0 _⟩, trivial⟩
  have horder := @clause_order (fun _ => none) 0 0 2 9 9 cellGraph (whereQuery cellClauses) (whereQuery cellClauses.reverse)
    ⟨cellClauses, none, none⟩ cellClauses.reverse _ _ rfl rfl (List.reverse_perm _).symm rfl le_rfl (Nat.zero_le 2) hgraph hplans
    (fun t ht => by simp at ht) hrun hrun'
  have hkind : ¬ needsText "kind" := by simp [needsText]
  have hreachable : ¬ needsText "reachable" := by simp [needsText]
  refine ⟨_, _, hrun, hrun', horder.1 ?_, horder.2 ?_⟩
  · rintro (⟨_, _, h, _⟩ | ⟨_, _, ⟨_, _, h, _⟩ | ⟨_, _, h⟩⟩)
    exacts [hreachable h, hkind h, h]
  · rintro (⟨_, _, h, _⟩ | ⟨_, _, ⟨_, _, h, _⟩ | ⟨_, _, h⟩⟩)
    exacts [hkind h, hreachable h, h]

/-! ## Where the order matters -/

/-- One card. -/
def cardGraph : DirectedGraph where
  nodes := OrdMap.empty.set "c" [("label", .str "CARD|1")]
  edges := []
  nodup := by decide
  ends := by decide

/-- The cards, by a prefix that another clause gives. -/
def prefixClauses : List Term := [
  .obj [("op", .str "equal"), ("left", .str "?p"), ("right", .str "CARD")],
  .obj [("op", .str "label_prefix"), ("id", .str "?x"), ("value", .str "?p")]]

/-- An object of the shape of the first variable. -/
def firstLookalike : Term := .obj [("type", .str "logic-var"), ("id", .atom (.num (.ofNat 0)))]

/-- An equation on an object that looks like the first variable of a run. -/
def lookalikeClauses : List Term := [
  .obj [("op", .str "equal"), ("left", .str "?x"), ("right", .str "a")],
  .obj [("op", .str "equal"), ("left", .str "?y"), ("right", .str "b")],
  .obj [("op", .str "equal"), ("left", firstLookalike), ("right", .str "a")]]

/-- The same clauses, the other order. -/
def lookalikeClausesSwapped : List Term := [
  .obj [("op", .str "equal"), ("left", .str "?y"), ("right", .str "b")],
  .obj [("op", .str "equal"), ("left", .str "?x"), ("right", .str "a")],
  .obj [("op", .str "equal"), ("left", firstLookalike), ("right", .str "a")]]

theorem noVars_pair {k l s t : String} (hk : k ≠ "type") (hl : l ≠ "type") : NoVars (.obj [(k, .str s), (l, .str t)]) := by
  refine .obj ?_ fun key x hx => ?_
  · by_contra hne
    obtain ⟨v, hv⟩ := Option.ne_none_iff_exists'.1 hne
    obtain ⟨id, htype, -⟩ := is_logic_var_obj.1 hv
    have hmem := field_mem htype
    simp [hk.symm, hl.symm] at hmem
  · have hmem := field_mem hx
    simp only [List.mem_cons, Prod.mk.injEq, List.not_mem_nil, or_false] at hmem
    rcases hmem with ⟨-, rfl⟩ | ⟨-, rfl⟩ <;> exact .atom _

/-- A ground row of one order is missing in the other, with a label filter before
its prefix is known, and with an object that takes part as a variable of the run. -/
theorem clause_order_matters :
    (prefixClauses.Perm prefixClauses.reverse ∧ (∀ c ∈ prefixClauses, (clause_plan cardGraph c).isSome) ∧
      NoVars (.obj [("p", .str "CARD"), ("x", .str "c")]) ∧
      graph_rel_run_query (fun _ => none) 0 9 cardGraph (whereQuery prefixClauses) =
        .ok [.obj [("p", .str "CARD"), ("x", .str "c")]] ∧
      graph_rel_run_query (fun _ => none) 0 9 cardGraph (whereQuery prefixClauses.reverse) = .ok []) ∧
    (lookalikeClauses.Perm lookalikeClausesSwapped ∧ (∀ c ∈ lookalikeClauses, (clause_plan emptyGraph c).isSome) ∧
      NoVars (.obj [("x", .str "a"), ("y", .str "b")]) ∧
      graph_rel_run_query (fun _ => none) 0 9 emptyGraph (whereQuery lookalikeClauses) =
        .ok [.obj [("x", .str "a"), ("y", .str "b")]] ∧
      graph_rel_run_query (fun _ => none) 0 9 emptyGraph (whereQuery lookalikeClausesSwapped) = .ok []) := by
  refine ⟨⟨(List.reverse_perm _).symm, ?_, noVars_pair (by decide) (by decide), by decide +kernel, by decide +kernel⟩,
    .swap _ _ _, ?_, noVars_pair (by decide) (by decide), by decide +kernel, by decide +kernel⟩
  · simp only [prefixClauses, List.forall_mem_cons]
    exact ⟨rfl, rfl, by simp⟩
  · simp only [lookalikeClauses, List.forall_mem_cons]
    exact ⟨rfl, rfl, rfl, by simp⟩

end LainLang.Tracer
