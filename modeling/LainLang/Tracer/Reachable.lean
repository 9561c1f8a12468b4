import LainLang.Tracer.Query
/-!
# The reachability query

`graph_query_reachable` asks the kernel for one pair of reachable nodes that is
the pair given. On a graph without an arrow in its node ids it returns, and its
answer is whether a path joins the two.
-/
open LainLang.Lib LainLang.Js

namespace LainLang.Tracer

/-- The loop of `query_edges` over the rows of a run. -/
def addEdgeRow (unique : OrdMap String EdgeTuple) : Term → OrdMap String EdgeTuple
  | .arr (.atom (.str source) :: .atom (.str target) :: _) => unique.set (pairKey (source, target)) (source, target)
  | _ => unique

/-- The rows of two variables as edges, each once by its key. -/
def query_edges (next_logic_var_id fuel : ℕ) (build_goal : Term → Term → Goal) (limit : Option ℕ) :
    Run (List EdgeTuple) := do
  let source_var : LogicVar := { id := next_logic_var_id, name := some "source" }
  let target_var : LogicVar := { id := next_logic_var_id + 1, name := some "target" }
  let results ← run_goal bind_unchecked fuel (build_goal source_var.term target_var.term)
    (.arr [source_var.term, target_var.term]) limit (next_logic_var_id + 2)
  return (results.foldl addEdgeRow OrdMap.empty).values

/-- Reachable, with both ends given. -/
def reachableGoal (graph : DirectedGraph) (source_id target_id : String) (source_var target_var : Term) : Goal :=
  goal_and [reachable graph source_var target_var, goal_equal source_var (.str source_id), goal_equal target_var (.str target_id)]

/-- Whether the query has a row. -/
def graph_query_reachable (next_logic_var_id fuel : ℕ) (graph : DirectedGraph) (source_id target_id : String) : Run Bool := do
  let edges ← query_edges next_logic_var_id fuel (reachableGoal graph source_id target_id) (some 1)
  return decide (edges.length > 0)

/-! ## Variables and strings -/

section
variable {s : Substitution} {v : LogicVar} {p q : String} {k : ℕ}

theorem is_logic_var_str : is_logic_var (.str p) = none := rfl

theorem resolve_unbound (h : s.get? (.ofNat v.id) = none) : resolve_var (k + 1) v.term s = .ok v.term := by
  rw [resolve_var, is_logic_var_term, Option.bind_some, h]

theorem resolve_str : resolve_var (k + 1) (.str p) s = .ok (.str p) := by
  rw [resolve_var, is_logic_var_str, Option.bind_none]

theorem resolve_bound (h : s.get? (.ofNat v.id) = some (.str p)) : resolve_var (k + 2) v.term s = .ok (.str p) := by
  rw [resolve_var, is_logic_var_term, Option.bind_some, h]
  exact resolve_str

theorem unify_unbound (h : s.get? (.ofNat v.id) = none) :
    unifyWith bind_unchecked (k + 2) v.term (.str p) s = .ok (some (s.set (.ofNat v.id) (.str p))) := by
  rw [unifyWith, resolve_unbound h, resolve_str, except_bind_ok, except_bind_ok, unifyResolved, is_logic_var_term,
    is_logic_var_str]
  rfl

theorem unify_bound (h : s.get? (.ofNat v.id) = some (.str p)) :
    unifyWith bind_unchecked (k + 3) v.term (.str q) s = .ok (if p = q then some s else none) := by
  rw [unifyWith, resolve_bound h, resolve_str, except_bind_ok, except_bind_ok, unifyResolved, is_logic_var_str,
    is_logic_var_str]
  by_cases hpq : p = q
  · rw [if_pos hpq, hpq]
    simp [childPairs, Term.str, unifyAll]
  · rw [if_neg hpq]
    simp [childPairs, Term.str, hpq]
    rfl

end

/-! ## The states of the query -/

section
variable {next k : ℕ} {graph : DirectedGraph}

/-- The variable of the source. -/
def sourceVar (next : ℕ) : LogicVar := { id := next, name := some "source" }

/-- The variable of the target. -/
def targetVar (next : ℕ) : LogicVar := { id := next + 1, name := some "target" }

/-- The state in which the two variables are bound to a pair. -/
def pairState (next : ℕ) (pair : EdgeTuple) : GoalState where
  subst := ((OrdMap.empty : Substitution).set (.ofNat next) (.str pair.1)).set (.ofNat (next + 1)) (.str pair.2)
  counter := next + 2

theorem source_ne_target (next : ℕ) : JsNumber.ofNat next ≠ .ofNat (next + 1) := fun h => by
  have := Decimal.ofNat_injective (JsNumber.finite.inj h)
  omega

theorem pairState_source (pair : EdgeTuple) : (pairState next pair).subst.get? (.ofNat (sourceVar next).id) = some (.str pair.1) := by
  simp [pairState, sourceVar, source_ne_target]

theorem pairState_target (pair : EdgeTuple) : (pairState next pair).subst.get? (.ofNat (targetVar next).id) = some (.str pair.2) := by
  simp [pairState, targetVar]

/-- Each pair found is a state. -/
theorem reachable_states {pairs : List EdgeTuple} (h : enumerate_reachable_pairs (k + 2) graph = .ok pairs) :
    reachable graph (sourceVar next).term (targetVar next).term bind_unchecked (k + 2)
      { subst := OrdMap.empty, counter := next + 2 } = .ok (pairs.map (pairState next)) := by
  rw [reachable, h, except_bind_ok, goal_rows, pairRows, collect_map, List.map_eq_flatMap]
  refine collect_eq _ fun pair _ => ?_
  have hunbound : ((OrdMap.empty : Substitution).set (.ofNat next) (.str pair.1)).get? (.ofNat (targetVar next).id) = none := by
    simp [targetVar, (source_ne_target next).symm]
  rw [unifyAll, unify_unbound (by simp), except_bind_ok]
  simp only
  rw [unifyAll, show (sourceVar next).id = next from rfl, unify_unbound hunbound, except_bind_ok]
  rfl

/-- A goal that equates a variable with a string keeps the states in which it has
that value. -/
theorem equal_states {v : LogicVar} {value : EdgeTuple → String} {id : String}
    (hv : ∀ pair, (pairState next pair).subst.get? (.ofNat v.id) = some (.str (value pair))) (pairs : List EdgeTuple) :
    collect (fun state => goal_equal v.term (.str id) bind_unchecked (k + 3) state) (pairs.map (pairState next)) =
      .ok ((pairs.filter fun pair => value pair = id).map (pairState next)) := by
  have hequal : ∀ pair, goal_equal v.term (.str id) bind_unchecked (k + 3) (pairState next pair) =
      .ok (if value pair = id then [pairState next pair] else []) := by
    intro pair
    rw [goal_equal, goal_rows, collect_eq (fun _ => if value pair = id then [pairState next pair] else []) fun row hrow => ?_]
    · simp
    · rw [List.mem_singleton.1 hrow, unifyAll, unify_bound (hv pair), except_bind_ok]
      by_cases hid : value pair = id
      · simp only [if_pos hid]
        rfl
      · simp only [if_neg hid]
        rfl
  rw [collect_map, collect_eq _ fun pair _ => hequal pair]
  induction pairs with
  | nil => rfl
  | cons pair pairs ih =>
    have htail := Except.ok.inj ih
    by_cases hid : value pair = id <;> simp [hid, htail]

/-- The goal leaves the states of the pairs found that are the pair given. -/
theorem goal_states {pairs : List EdgeTuple} (h : enumerate_reachable_pairs (k + 3) graph = .ok pairs) (a b : String) :
    reachableGoal graph a b (sourceVar next).term (targetVar next).term bind_unchecked (k + 3)
      { subst := OrdMap.empty, counter := next + 2 } =
      .ok (((pairs.filter fun pair => pair.1 = a).filter fun pair => pair.2 = b).map (pairState next)) := by
  have hfirst : collect (fun candidate => reachable graph (sourceVar next).term (targetVar next).term bind_unchecked (k + 3) candidate)
      [{ subst := OrdMap.empty, counter := next + 2 }] = .ok (pairs.map (pairState next)) := by
    rw [collect_eq (fun _ => pairs.map (pairState next)) fun state hstate => ?_]
    · simp
    · rw [List.mem_singleton.1 hstate]
      exact reachable_states h
  rw [reachableGoal, goal_and, goal_andAll, hfirst, except_bind_ok, goal_andAll, equal_states pairState_source,
    except_bind_ok, goal_andAll, equal_states pairState_target, except_bind_ok, goal_andAll]

/-- The row of a state is its pair. -/
theorem reify_pair (pair : EdgeTuple) : reify (k + 4) (.arr [(sourceVar next).term, (targetVar next).term]) (pairState next pair).subst =
    .ok (.arr [.str pair.1, .str pair.2]) := by
  have harr : resolve_var (k + 3) (.arr [(sourceVar next).term, (targetVar next).term]) (pairState next pair).subst =
      .ok (.arr [(sourceVar next).term, (targetVar next).term]) := rfl
  have hvar : ∀ {v : LogicVar} {p : String}, (pairState next pair).subst.get? (.ofNat v.id) = some (.str p) →
      substitute (k + 3) v.term (pairState next pair).subst = .ok (.str p) := by
    intro v p hv
    rw [substitute, resolve_bound hv]
    rfl
  rw [reify, substitute, harr, except_bind_ok]
  simp only [mapAll, hvar (pairState_source pair), hvar (pairState_target pair), except_bind_ok]
  rfl

/-- The answer by the rows of the run. -/
theorem query_of_rows {fuel : ℕ} {a b : String} {rows : List Term}
    (h : run_goal bind_unchecked fuel (reachableGoal graph a b (sourceVar next).term (targetVar next).term)
      (.arr [(sourceVar next).term, (targetVar next).term]) (some 1) (next + 2) = .ok rows) :
    graph_query_reachable next fuel graph a b = .ok (decide ((rows.foldl addEdgeRow OrdMap.empty).values.length > 0)) := by
  have hedges : query_edges next fuel (reachableGoal graph a b) (some 1) = .ok (rows.foldl addEdgeRow OrdMap.empty).values := by
    change (run_goal bind_unchecked fuel (reachableGoal graph a b (sourceVar next).term (targetVar next).term)
      (.arr [(sourceVar next).term, (targetVar next).term]) (some 1) (next + 2) >>= fun results =>
        .ok (results.foldl addEdgeRow OrdMap.empty).values) = _
    rw [h]
    rfl
  rw [graph_query_reachable, hedges]
  rfl

theorem query_reachable_eq {pairs : List EdgeTuple} (h : enumerate_reachable_pairs (k + 4) graph = .ok pairs) (a b : String) :
    graph_query_reachable next (k + 4) graph a b = .ok (decide ((a, b) ∈ pairs)) := by
  have hmem : ∀ pair, pair ∈ ((pairs.filter fun pair => pair.1 = a).filter fun pair => pair.2 = b) ↔ pair ∈ pairs ∧ pair = (a, b) := by
    intro pair
    simp only [List.mem_filter, decide_eq_true_eq, Prod.ext_iff, and_assoc]
  have hrun := @goal_states next (k + 1) graph pairs h a b
  cases hstates : (pairs.filter fun pair => pair.1 = a).filter fun pair => pair.2 = b with
  | nil =>
    rw [hstates] at hrun hmem
    have hnot : (a, b) ∉ pairs := fun hab => by simpa using (hmem (a, b)).2 ⟨hab, rfl⟩
    rw [decide_eq_false hnot, @query_of_rows next graph (k + 4) a b [] (by rw [run_goal, hrun]; rfl)]
    rfl
  | cons pair rest =>
    rw [hstates] at hrun hmem
    obtain ⟨hab, rfl⟩ := (hmem pair).1 List.mem_cons_self
    rw [decide_eq_true hab, @query_of_rows next graph (k + 4) a b [.arr [.str a, .str b]]]
    · rfl
    · rw [run_goal, hrun, except_bind_ok, List.map_cons, reifyRows, reify_pair, except_bind_ok]
      rfl

end

/-! ## The answer -/

theorem regular_reachableGoal (graph : DirectedGraph) (a b : String) (source_var target_var : Term) :
    Regular (reachableGoal graph a b source_var target_var) :=
  regular_and (by simpa using ⟨regular_reachable graph _ _, regular_rows _, regular_rows _⟩)

theorem query_reachable_grows (next : ℕ) (graph : DirectedGraph) (a b : String) :
    Grows .outOfFuel (fun fuel => graph_query_reachable next fuel graph a b) := by
  refine .bind (.bind (fun n m hnm => ?_) fun _ => .const _) fun _ => .const _
  exact @run_goal_upto (· = .outOfFuel) rfl _ _ bind_unchecked_upto n m hnm _ (regular_reachableGoal graph a b _ _) _ _ _

/-- The query returns, with whether a path joins the two nodes. -/
theorem query_reachable_iff {graph : DirectedGraph} (hids : ArrowFree graph) (next : ℕ) (a b : String) :
    (∃ fuel answer, graph_query_reachable next fuel graph a b = .ok answer) ∧
      ∀ fuel answer, graph_query_reachable next fuel graph a b = .ok answer → (answer = true ↔ graph.Path a b) := by
  obtain ⟨n, pairs, hpairs⟩ := enumerate_returns graph
  have hpairs' := (@enumerate_upto (· = .outOfFuel) n (n + 4) rfl (by omega) graph).ok hpairs
  have hanswer := @query_reachable_eq next n graph pairs hpairs' a b
  refine ⟨⟨_, _, hanswer⟩, fun fuel answer h => ?_⟩
  rw [(query_reachable_grows next graph a b).ok_unique h hanswer, decide_eq_true_iff]
  exact mem_enumerate hids hpairs a b

end LainLang.Tracer
