import LainLang.Tracer.Goals
/-!
# Graph queries

`graph_rel_run_query` reads a query, turns its clauses into goals over logic
variables that it makes on the way, and reifies a projection in every answer.
The kernel has no occurs check, so a query that puts a variable into its own
value may run forever; one that never does returns.
-/
open LainLang.Lib LainLang.Js

namespace LainLang.Tracer

/-! ## Terms of a query -/

/-- The `vars` map of a query and the `next_logic_var_id` counter. -/
structure QueryVars where
  vars : OrdMap String LogicVar
  next : ℕ

/-- Code that names query variables. -/
abbrev Named := StateM QueryVars

/-- `query_var`: one variable for each name. -/
def query_var (name : String) : Named Term := fun st =>
  match st.vars.get? name with
  | some existing => (existing.term, st)
  | none =>
    let created : LogicVar := { id := st.next, name := some (sliceFrom name 1) }
    (created.term, { vars := st.vars.set name created, next := st.next + 1 })

/-- Runs the computation at each key of an object. -/
def inOrder : List (String × Named Term) → Named (List (String × Term))
  | [] => return []
  | (key, run) :: rest => return (key, ← run) :: (← inOrder rest)

mutual

/-- `logic_query_term`: strings that start with `?` are variables. -/
def logic_query_term : Term → Named Term
  | .atom (.str s) => if startsWith s "?" then query_var s else return .str s
  | .atom a => return .atom a
  | .arr items => return .arr (← logic_query_items items)
  | .obj fields => return .obj (← inOrder (ownEntries (logic_query_fields fields)))

/-- The items of an array. -/
def logic_query_items : List Term → Named (List Term)
  | [] => return []
  | t :: ts => return (← logic_query_term t) :: (← logic_query_items ts)

/-- The fields of an object. -/
def logic_query_fields : List (String × Term) → List (String × Named Term)
  | [] => []
  | (key, t) :: fields => (key, logic_query_term t) :: logic_query_fields fields

end

/-! ## Clauses -/

/-- The fields that an operator on two terms reads, and the goal it makes of them. -/
def binary_goal (graph : DirectedGraph) : String → Option (String × String × (Term → Term → Goal))
  | "equal" => some ("left", "right", goal_equal)
  | "node" => some ("id", "attrs", node_fact graph)
  | "edge" => some ("source", "target", edge_fact graph)
  | "kind" => some ("id", "value", kind graph)
  | "namespace" => some ("id", "value", «namespace» graph)
  | "level" => some ("id", "value", level graph)
  | "label" => some ("id", "value", label graph)
  | "value" => some ("id", "value", value graph)
  | "content" => some ("id", "value", content graph)
  | "label_prefix" => some ("id", "value", label_prefix graph)
  | "label_contains" => some ("id", "value", label_contains graph)
  | "reachable" => some ("source", "target", reachable graph)
  | "downstream_of" => some ("source", "target", downstream_of graph)
  | "upstream_of" => some ("source", "target", upstream_of graph)
  | _ => none

/-- `clause[key]`, `undefined` where it is absent. -/
def clauseField (fields : List (String × Term)) (key : String) : Term := (field fields key).getD .undefined

mutual

/-- The goal of a clause, `none` where the source has `null`. -/
def clause_goal (graph : DirectedGraph) : Term → Named (Option Goal)
  | .obj fields =>
    match field fields "op" with
    | some (.atom (.str op)) =>
      if op = "and" then do
        let goals ← nested_goals graph fields
        return some (goal_and goals)
      else if op = "or" then do
        let goals ← nested_goals graph fields
        return if goals.length > 0 then some (goal_or goals) else none
      else if op = "join_through" then do
        let source ← logic_query_term (clauseField fields "source")
        let middle ← logic_query_term (clauseField fields "middle")
        let target ← logic_query_term (clauseField fields "target")
        return some (join_through graph source middle target)
      else
        match binary_goal graph op with
        | some (first, second, goal) => do
          let a ← logic_query_term (clauseField fields first)
          let b ← logic_query_term (clauseField fields second)
          return some (goal a b)
        | none => return none
    | _ => return none
  | _ => return none

/-- The goals of `clause.clauses`, none unless it is an array. -/
def nested_goals (graph : DirectedGraph) : List (String × Term) → Named (List Goal)
  | [] => return []
  | (key, t) :: fields =>
    if key = "clauses" then
      match t with
      | .arr clauses => clause_goals graph clauses
      | _ => return []
    else nested_goals graph fields

/-- The goals of the clauses that are recognised. -/
def clause_goals (graph : DirectedGraph) : List Term → Named (List Goal)
  | [] => return []
  | clause :: clauses => do
    let goal ← clause_goal graph clause
    let goals ← clause_goals graph clauses
    return goal.toList ++ goals

end

/-! ## Queries -/

/-- A query that was parsed. -/
structure LogicQuerySpec where
  «where» : List Term
  select : Option Term
  limit : Option JsNumber

/-- `is_plain_object(c) && typeof c.op === "string"`. -/
def isClause : Term → Bool
  | .obj fields =>
    match field fields "op" with
    | some (.atom (.str _)) => true
    | _ => false
  | _ => false

/-- `JSON_parse` is `JSON.parse`, with `none` where it throws. -/
def to_logic_query_spec (JSON_parse : String → Option Term) (input : Term) : Option LogicQuerySpec :=
  let parsed := match input with
    | .atom (.str s) => (JSON_parse s).getD (.atom .null)
    | _ => input
  match parsed with
  | .obj fields =>
    match field fields "where" with
    | some (.arr clauses) => some {
        «where» := clauses.filter isClause
        select := (field fields "select").filter (· ≠ .undefined)
        limit := match field fields "limit" with
          | some (.atom (.num limit)) => some limit
          | _ => none }
    | _ => none
  | _ => none

/-- All variables by their names. -/
def default_projection (vars : OrdMap String LogicVar) : Term :=
  .obj (vars.entries.map fun entry => (sliceFrom entry.1 1, entry.2.term))

/-- `select`, or all variables. -/
def query_projection (parsed : LogicQuerySpec) : Named Term := do
  match parsed.select with
  | some select => logic_query_term select
  | none => return default_projection (← get).vars

/-- `Math.floor` of a decimal that is not negative. -/
def floorNat (d : Decimal) : ℕ :=
  if 0 ≤ d.exponent then d.mantissa * 10 ^ d.exponent.toNat else d.mantissa / 10 ^ (-d.exponent).toNat

/-- The limit of a query, `none` for infinity. -/
def rowLimit (raw_limit : Option JsNumber) : Option ℕ :=
  match raw_limit with
  | some (.finite d) => if d.negative = false ∧ d.mantissa ≠ 0 then some (floorNat d) else none
  | _ => none

/-- The loop of `run_goal`, with the number of rows so far. -/
def reifyRows (fuel : ℕ) (projection : Term) (limit : Option ℕ) : List GoalState → ℕ → Run (List Term)
  | [], _ => .ok []
  | state :: states, count => do
    let row ← reify fuel projection state.subst
    if limit.any (· ≤ count + 1) then return [row]
    return row :: (← reifyRows fuel projection limit states (count + 1))

/-- The goal from the empty substitution; each state gives a row. -/
def run_goal (bind : Binder) (fuel : ℕ) (goal : Goal) (projection : Term) (limit : Option ℕ) (counter : ℕ) :
    Run (List Term) := do
  let states ← goal bind fuel { subst := OrdMap.empty, counter := counter }
  reifyRows fuel projection limit states 0

/-- `graph_rel_run_query` over a binder. -/
def run_query_with (bind : Binder) (JSON_parse : String → Option Term) (next_logic_var_id fuel : ℕ)
    (graph : DirectedGraph) (query : Term) : Run (List Term) :=
  match to_logic_query_spec JSON_parse query with
  | none => .ok []
  | some parsed =>
    let (goals, st) := (clause_goals graph parsed.where).run { vars := OrdMap.empty, next := next_logic_var_id }
    if goals.length = 0 then .ok []
    else
      let (projection, st) := (query_projection parsed).run st
      run_goal bind fuel (goal_and goals) projection (rowLimit parsed.limit) st.next

/-- The query as the code runs it, without an occurs check. -/
def graph_rel_run_query (JSON_parse : String → Option Term) (next_logic_var_id fuel : ℕ) (graph : DirectedGraph)
    (query : Term) : Run (List Term) :=
  run_query_with bind_unchecked JSON_parse next_logic_var_id fuel graph query

/-! ## Making variables -/

/-- Names start with `?`, and different names have different ids, all below the
counter. -/
structure QueryVars.Ok (st : QueryVars) : Prop where
  mark : ∀ name v, st.vars.get? name = some v → startsWith name "?" = true
  below : ∀ name v, st.vars.get? name = some v → v.id < st.next
  inj : ∀ name name' v v', st.vars.get? name = some v → st.vars.get? name' = some v' → v.id = v'.id → name = name'

/-- `st'` has the variables of `st` and maybe more. -/
def QueryVars.Le (st st' : QueryVars) : Prop := ∀ name v, st.vars.get? name = some v → st'.vars.get? name = some v

theorem QueryVars.ok_empty (next : ℕ) : QueryVars.Ok { vars := OrdMap.empty, next := next } := ⟨nofun, nofun, nofun⟩

/-- The computation only adds variables, and of what it returns `Q` holds under
the variables of any later state. -/
def Creates {α : Type} (run : Named α) (Q : QueryVars → α → Prop) : Prop :=
  ∀ st : QueryVars, st.Ok → (run st).2.Ok ∧ st.Le (run st).2 ∧ ∀ final, (run st).2.Le final → Q final (run st).1

section creates
variable {α β : Type}

theorem Creates.pure {a : α} {Q : QueryVars → α → Prop} (h : ∀ final, Q final a) : Creates (pure a) Q :=
  fun _ hst => ⟨hst, fun _ _ h => h, fun final _ => h final⟩

theorem Creates.bind {run : Named α} {f : α → Named β} {P : QueryVars → α → Prop} {Q : QueryVars → β → Prop}
    (hrun : Creates run P) (hf : ∀ a, Creates (f a) fun final b => P final a → Q final b) : Creates (run >>= f) Q := by
  intro st hst
  obtain ⟨hok, hle, hP⟩ := hrun st hst
  obtain ⟨hok', hle', hQ⟩ := hf (run st).1 (run st).2 hok
  exact ⟨hok', fun name v h => hle' name v (hle name v h), fun final hfinal =>
    hQ final hfinal (hP final fun name v h => hfinal name v (hle' name v h))⟩

theorem Creates.mono {run : Named α} {P Q : QueryVars → α → Prop} (h : Creates run P)
    (hPQ : ∀ final a, P final a → Q final a) : Creates run Q := by
  intro st hst
  obtain ⟨hok, hle, hP⟩ := h st hst
  exact ⟨hok, hle, fun final hfinal => hPQ final _ (hP final hfinal)⟩

theorem creates_query_var {name : String} (hname : startsWith name "?" = true) :
    Creates (query_var name) fun final t => ∃ v, final.vars.get? name = some v ∧ t = v.term := by
  intro st hst
  cases h : st.vars.get? name with
  | some v =>
    have hrun : query_var name st = (v.term, st) := by simp only [query_var, h]
    rw [hrun]
    exact ⟨hst, fun _ _ h => h, fun final hfinal => ⟨v, hfinal name v h, rfl⟩⟩
  | none =>
    have hrun : query_var name st = ((LogicVar.mk st.next (some (sliceFrom name 1))).term,
        { vars := st.vars.set name ⟨st.next, some (sliceFrom name 1)⟩, next := st.next + 1 }) := by
      simp only [query_var, h]
    rw [hrun]
    refine ⟨⟨fun name' v hv => ?_, fun name' v hv => ?_, fun n n' v v' hv hv' hid => ?_⟩, fun name' v hv => ?_,
      fun final hfinal => ?_⟩
    · simp only [OrdMap.get?_set] at hv
      split at hv
      · rename_i heq; exact heq ▸ hname
      · exact hst.mark name' v hv
    · simp only [OrdMap.get?_set] at hv
      split at hv
      · cases hv; exact Nat.lt_succ_self _
      · exact Nat.lt_succ_of_lt (hst.below name' v hv)
    · -- The new id is the counter, which is above every other id.
      simp only [OrdMap.get?_set] at hv hv'
      split at hv <;> split at hv'
      · simp_all
      · cases hv; exact absurd hid (Nat.ne_of_gt (hst.below n' v' hv'))
      · cases hv'; exact absurd hid (Nat.ne_of_lt (hst.below n v hv))
      · exact hst.inj n n' v v' hv hv' hid
    · have hne : name' ≠ name := by rintro rfl; rw [h] at hv; cases hv
      simpa [hne] using hv
    · exact ⟨_, hfinal name _ (by simp), rfl⟩

theorem creates_inOrder {runs : List (String × Named Term)} {Q : QueryVars → String → Term → Prop}
    (h : ∀ e ∈ runs, Creates e.2 fun final t => Q final e.1 t) :
    Creates (inOrder runs) fun final entries =>
      entries.map Prod.fst = runs.map Prod.fst ∧ ∀ e ∈ entries, Q final e.1 e.2 := by
  induction runs with
  | nil => exact .pure fun _ => by simp
  | cons run runs ih =>
    rw [List.forall_mem_cons] at h
    refine h.1.bind fun t => (ih h.2).bind fun rest => .pure fun final hrest ht => ?_
    simp only [List.map_cons, List.forall_mem_cons]
    exact ⟨congrArg _ hrest.1, ht, hrest.2⟩

end creates

mutual

theorem creates_term : ∀ t : Term, Creates (logic_query_term t) fun _ _ => True
  | .atom a => by
    cases a with
    | str s =>
      rw [logic_query_term]
      split
      · rename_i hs
        exact (creates_query_var hs).mono fun _ _ _ => trivial
      · exact .pure fun _ => trivial
    | _ => exact .pure fun _ => trivial
  | .arr items => by
    rw [logic_query_term]
    exact (creates_items items).bind fun _ => .pure fun _ _ => trivial
  | .obj fields => by
    rw [logic_query_term]
    refine (creates_inOrder (Q := fun _ _ _ => True) fun e he => ?_).bind fun _ => .pure fun _ _ => trivial
    exact creates_fields fields e (field_mem (mem_ownEntries.1 he))

theorem creates_items : ∀ items : List Term, Creates (logic_query_items items) fun _ _ => True
  | [] => .pure fun _ => trivial
  | t :: ts => (creates_term t).bind fun _ => (creates_items ts).bind fun _ => .pure fun _ _ _ => trivial

theorem creates_fields : ∀ fields : List (String × Term), ∀ e ∈ logic_query_fields fields, Creates e.2 fun _ _ => True
  | [], _, he => nomatch he
  | (key, t) :: fields, e, he => by
    rw [logic_query_fields] at he
    rcases List.mem_cons.1 he with rfl | he
    · exact creates_term t
    · exact creates_fields fields e he

end

/-! ## Every clause is a goal that ends -/

theorem regular_binary {graph : DirectedGraph} {op first second : String} {goal : Term → Term → Goal}
    (h : binary_goal graph op = some (first, second, goal)) (a b : Term) : Regular (goal a b) := by
  unfold binary_goal at h
  split at h <;> cases h
  case h_10 | h_11 => exact regular_label_test _ graph a b
  case h_12 | h_13 => exact regular_reachable graph a b
  case h_14 => exact regular_reachable (reverse_graph graph) a b
  all_goals exact regular_rows _

mutual

theorem creates_clause_goal (graph : DirectedGraph) :
    ∀ clause : Term, Creates (clause_goal graph clause) fun _ result => ∀ goal ∈ result, Regular goal
  | .atom _ => .pure fun _ => by simp
  | .arr _ => .pure fun _ => by simp
  | .obj fields => by
    rw [clause_goal]
    split
    · split
      · refine (creates_nested_goals graph fields).bind fun goals => .pure fun _ h => ?_
        simpa using regular_and h
      · split
        · refine (creates_nested_goals graph fields).bind fun goals => .pure fun _ h => ?_
          split
          · simpa using regular_or h
          · simp
        · split
          · refine (creates_term _).bind fun source => (creates_term _).bind fun middle => (creates_term _).bind fun target =>
              .pure fun _ _ _ _ => ?_
            simpa using regular_join_through graph source middle target
          · split
            · rename_i first second goal hgoal
              refine (creates_term _).bind fun a => (creates_term _).bind fun b => .pure fun _ _ _ => ?_
              simpa using regular_binary hgoal a b
            · exact .pure fun _ => by simp
    · exact .pure fun _ => by simp

theorem creates_nested_goals (graph : DirectedGraph) :
    ∀ fields : List (String × Term), Creates (nested_goals graph fields) fun _ goals => ∀ goal ∈ goals, Regular goal
  | [] => .pure fun _ => by simp
  | (key, .arr clauses) :: fields => by
    rw [nested_goals]
    split
    · exact creates_clause_goals graph clauses
    · exact creates_nested_goals graph fields
  | (key, .atom _) :: fields | (key, .obj _) :: fields => by
    simp only [nested_goals]
    split
    · exact .pure fun _ => by simp
    · exact creates_nested_goals graph fields

theorem creates_clause_goals (graph : DirectedGraph) :
    ∀ clauses : List Term, Creates (clause_goals graph clauses) fun _ goals => ∀ goal ∈ goals, Regular goal
  | [] => .pure fun _ => by simp
  | clause :: clauses => by
    rw [clause_goals]
    refine (creates_clause_goal graph clause).bind fun goal => (creates_clause_goals graph clauses).bind fun goals =>
      .pure fun _ hgoals hgoal g hg => ?_
    rcases List.mem_append.1 hg with hg | hg
    · exact hgoal g (by simpa using hg)
    · exact hgoals g hg

end

/-! ## Queries without a cycle return -/

theorem reifyRows_upto {bad : Stop → Prop} (hbad : bad .outOfFuel) {n m : ℕ} (hnm : n ≤ m) (projection : Term)
    (limit : Option ℕ) (states : List GoalState) (count : ℕ) :
    Upto bad (reifyRows n projection limit states count) (reifyRows m projection limit states count) := by
  induction states generalizing count with
  | nil => exact .refl _
  | cons state states ih =>
    refine (substitute_upto hbad hnm projection state.subst).bind fun row => ?_
    split
    · exact .refl _
    · exact (ih (count + 1)).bind fun _ => .refl _

theorem reifyRows_ends {states : List GoalState} (hs : ∀ s ∈ states, Acyclic s.subst) (projection : Term)
    (limit : Option ℕ) (count : ℕ) : Ends .outOfFuel (fun n => reifyRows n projection limit states count) := by
  induction states generalizing count with
  | nil => exact .ok _
  | cons state states ih =>
    rw [List.forall_mem_cons] at hs
    have hgrows : ∀ k, Grows .outOfFuel (fun n => reifyRows n projection limit states k) := fun k n m hnm =>
      @reifyRows_upto (· = .outOfFuel) rfl n m hnm projection limit states k
    refine .bind (substitute_grows projection state.subst) (fun row => ?_) (resolve_ends hs.1 projection) fun _ row _ => ?_
    · split
      · exact .const _
      · exact (hgrows (count + 1)).bind fun _ => .const _
    · split
      · exact .ok _
      · exact .bind (hgrows (count + 1)) (fun _ => .const _) (ih hs.2 (count + 1)) fun _ _ _ => .ok _

theorem run_goal_upto {bad : Stop → Prop} (hbad : bad .outOfFuel) {bind bind' : Binder}
    (hbind : BinderUpto bad bind bind') {n m : ℕ} (hnm : n ≤ m) {goal : Goal} (hgoal : Regular goal) (projection : Term)
    (limit : Option ℕ) (counter : ℕ) :
    Upto bad (run_goal bind n goal projection limit counter) (run_goal bind' m goal projection limit counter) :=
  (hgoal.upto bad hbad bind bind' hbind n m hnm _).bind fun states =>
    reifyRows_upto hbad hnm projection limit states 0

theorem run_goal_ends {goal : Goal} (hgoal : Regular goal) (projection : Term) (limit : Option ℕ) (counter : ℕ) :
    Ends .outOfFuel (fun n => run_goal bind_checked n goal projection limit counter) :=
  .bind (hgoal.grows _) (fun states n m hnm => @reifyRows_upto (· = .outOfFuel) rfl n m hnm projection limit states 0)
    (hgoal.ends _ acyclic_empty) fun n states hrun =>
      reifyRows_ends (hgoal.acyclic n _ states acyclic_empty hrun) projection limit 0

/-- A query with goals runs their conjunction. -/
theorem run_query_eq {JSON_parse : String → Option Term} {next : ℕ} {graph : DirectedGraph} {query : Term}
    {parsed : LogicQuerySpec} {goals : List Goal} {st : QueryVars} (hparsed : to_logic_query_spec JSON_parse query = some parsed)
    (hrun : (clause_goals graph parsed.where).run { vars := OrdMap.empty, next := next } = (goals, st))
    (hgoals : goals.length ≠ 0) (bind : Binder) (fuel : ℕ) : run_query_with bind JSON_parse next fuel graph query =
      run_goal bind fuel (goal_and goals) ((query_projection parsed).run st).1 (rowLimit parsed.limit)
        ((query_projection parsed).run st).2.next := by
  simp only [run_query_with, hparsed, hrun, if_neg hgoals]
  rfl

/-- A query without goals has no rows, every other one runs a goal that ends. -/
theorem run_query_cases (JSON_parse : String → Option Term) (next : ℕ) (graph : DirectedGraph) (query : Term) :
    (∀ bind fuel, run_query_with bind JSON_parse next fuel graph query = .ok []) ∨
      ∃ goal projection limit counter, Regular goal ∧ ∀ bind fuel,
        run_query_with bind JSON_parse next fuel graph query = run_goal bind fuel goal projection limit counter := by
  cases hparsed : to_logic_query_spec JSON_parse query with
  | none => exact .inl fun _ _ => by simp only [run_query_with, hparsed]
  | some parsed =>
    obtain ⟨-, -, hregular⟩ := creates_clause_goals graph parsed.where _ (QueryVars.ok_empty next)
    replace hregular := hregular _ fun _ _ h => h
    cases hrun : (clause_goals graph parsed.where).run { vars := OrdMap.empty, next := next } with
    | mk goals st =>
      have hrun' : clause_goals graph parsed.where { vars := OrdMap.empty, next := next } = (goals, st) := hrun
      rw [hrun'] at hregular
      by_cases hgoals : goals.length = 0
      · exact .inl fun _ _ => by simp only [run_query_with, hparsed, hrun, if_pos hgoals]
      · exact .inr ⟨_, _, _, _, regular_and hregular, run_query_eq hparsed hrun hgoals⟩

/-- With the occurs check the run never stops: no substitution it reaches binds
a variable to a term that contains it once the other bindings are put in. -/
def NeverCyclic (JSON_parse : String → Option Term) (next : ℕ) (graph : DirectedGraph) (query : Term) : Prop :=
  ∀ fuel, run_query_with bind_checked JSON_parse next fuel graph query ≠ .error .cyclic

theorem run_query_upto {bad : Stop → Prop} (hbad : bad .outOfFuel) {bind bind' : Binder}
    (hbind : BinderUpto bad bind bind') {n m : ℕ} (hnm : n ≤ m) (JSON_parse : String → Option Term) (next : ℕ)
    (graph : DirectedGraph) (query : Term) :
    Upto bad (run_query_with bind JSON_parse next n graph query) (run_query_with bind' JSON_parse next m graph query) := by
  rcases run_query_cases JSON_parse next graph query with h | ⟨goal, projection, limit, counter, hgoal, h⟩
  · rw [h, h]
    exact .refl _
  · rw [h, h]
    exact run_goal_upto hbad hbind hnm hgoal projection limit counter

/-- The checked run is a run: some fuel gives the rows of both. -/
theorem checked_run_returns {JSON_parse : String → Option Term} {next : ℕ} {graph : DirectedGraph} {query : Term}
    (h : NeverCyclic JSON_parse next graph query) :
    ∃ fuel rows, run_query_with bind_checked JSON_parse next fuel graph query = .ok rows := by
  have hends : Ends .outOfFuel (fun n => run_query_with bind_checked JSON_parse next n graph query) := by
    rcases run_query_cases JSON_parse next graph query with h | ⟨goal, projection, limit, counter, hgoal, h⟩
    · simp only [h]
      exact .ok _
    · simp only [h]
      exact run_goal_ends hgoal projection limit counter
  obtain ⟨fuel, hfuel⟩ := hends
  cases hrun : run_query_with bind_checked JSON_parse next fuel graph query with
  | ok rows => exact ⟨fuel, rows, hrun⟩
  | error e =>
    cases e with
    | outOfFuel => exact absurd hrun hfuel
    | cyclic => exact absurd hrun (h fuel)

/-- A query whose run never binds a variable to a term that contains it returns
a list of rows. -/
theorem query_returns {JSON_parse : String → Option Term} {next : ℕ} {graph : DirectedGraph} {query : Term}
    (h : NeverCyclic JSON_parse next graph query) :
    ∃ fuel rows, graph_rel_run_query JSON_parse next fuel graph query = .ok rows := by
  obtain ⟨fuel, rows, hrun⟩ := checked_run_returns h
  exact ⟨fuel, rows, (run_query_upto trivial bind_checked_upto_unchecked le_rfl JSON_parse next graph query).ok hrun⟩

/-- One checked run that returns shows that no fuel meets a cycle. -/
theorem neverCyclic_of_ok {JSON_parse : String → Option Term} {next : ℕ} {graph : DirectedGraph} {query : Term}
    {fuel : ℕ} {rows : List Term} (h : run_query_with bind_checked JSON_parse next fuel graph query = .ok rows) :
    NeverCyclic JSON_parse next graph query := by
  intro n hn
  have hgrows := fun k m hkm => @run_query_upto (· = .outOfFuel) rfl _ _ (bind_checked_upto rfl) k m hkm JSON_parse next
    graph query
  rcases Nat.le_total n fuel with hle | hle
  · have := (hgrows n fuel hle).eq_of_ne (by rw [hn]; simp)
    rw [h, hn] at this
    cases this
  · have := (hgrows fuel n hle).ok h
    rw [hn] at this
    cases this

/-- A cell with an edge to a node without attributes. -/
def cellGraph : DirectedGraph where
  nodes := (OrdMap.empty.set "c" [("kind", .str "cell")]).set "p" []
  edges := [("c", "p")]
  nodup := by decide
  ends := by decide

/-- Two clauses over two variables. -/
def cellClauses : List Term := [
  .obj [("op", .str "kind"), ("id", .str "?x"), ("value", .str "cell")],
  .obj [("op", .str "reachable"), ("source", .str "?x"), ("target", .str "?y")]]

/-- The cells and what each of them reaches. -/
def cellQuery : Term := .obj [("where", .arr cellClauses)]

theorem cellQuery_checked : run_query_with bind_checked (fun _ => none) 0 9 cellGraph cellQuery =
    .ok [.obj [("x", .str "c"), ("y", .str "p")]] := by decide +kernel

theorem cellQuery_returns : ∃ fuel rows, graph_rel_run_query (fun _ => none) 0 fuel cellGraph cellQuery = .ok rows :=
  query_returns (neverCyclic_of_ok cellQuery_checked)

/-! ## A query that never returns -/

/-- No node. -/
def emptyGraph : DirectedGraph where
  nodes := OrdMap.empty
  edges := []
  nodup := List.nodup_nil
  ends := by simp

/-- Equates `?x` with `[?x]`. -/
def selfQuery : Term :=
  .obj [("where", .arr [.obj [("op", .str "equal"), ("left", .str "?x"), ("right", .arr [.str "?x"])]])]

/-- The variable `?x`. -/
def selfVar : Term := LogicVar.term { id := 0, name := some "x" }

/-- What the equation binds. -/
def selfSubst : Substitution := bind_var (.ofNat 0) (.arr [selfVar]) OrdMap.empty

theorem selfVar_never_settles (n : ℕ) : ¬ Settles selfSubst n selfVar := by
  induction n with
  | zero => rintro ⟨t, ht⟩; cases ht
  | succ n ih =>
    intro h
    obtain ⟨a, ha, hchildren⟩ := settles_succ.1 h
    have hresolve : resolve_var 2 selfVar selfSubst = .ok (.arr [selfVar]) := by decide +kernel
    obtain rfl := (resolve_var_grows selfVar selfSubst).ok_unique ha hresolve
    exact ih (hchildren selfVar (by simp [children]))

/-- `graph_rel_run_query` on `selfQuery` has no rows to return, whatever the fuel. -/
theorem query_diverges : ¬ ∀ (JSON_parse : String → Option Term) (next : ℕ) (graph : DirectedGraph) (query : Term),
    ∃ fuel rows, graph_rel_run_query JSON_parse next fuel graph query = .ok rows := by
  intro hall
  obtain ⟨fuel, rows, hrun⟩ := hall (fun _ => none) 0 emptyGraph selfQuery
  let goal : Goal := goal_and [goal_equal selfVar (.arr [selfVar])]
  let start : GoalState := { subst := OrdMap.empty, counter := 1 }
  have hplan : graph_rel_run_query (fun _ => none) 0 fuel emptyGraph selfQuery =
      run_goal bind_unchecked fuel goal (.obj [("x", selfVar)]) none 1 := rfl
  rw [hplan] at hrun
  obtain ⟨states, hstates, hrows⟩ := except_bind_eq_ok hrun
  have hregular : Regular goal := regular_and fun _ hmem => List.mem_singleton.1 hmem ▸ regular_rows _
  have hgrows := hregular.grows_unchecked start
  have hanswer : goal bind_unchecked 4 start = .ok [{ subst := selfSubst, counter := 1 }] := by decide +kernel
  obtain rfl := hgrows.ok_unique hstates hanswer
  obtain ⟨row, hrow, -⟩ := except_bind_eq_ok hrows
  -- The row would settle, and with it the variable.
  cases fuel with
  | zero => cases hrow
  | succ fuel =>
    obtain ⟨a, ha, hchildren⟩ := settles_succ.1 ⟨row, hrow⟩
    have hresolve : resolve_var 1 (.obj [("x", selfVar)]) selfSubst = .ok (.obj [("x", selfVar)]) := by decide +kernel
    obtain rfl := (resolve_var_grows _ selfSubst).ok_unique ha hresolve
    refine selfVar_never_settles fuel (hchildren selfVar ?_)
    exact List.mem_map.2 ⟨("x", selfVar), mem_ownEntries.2 rfl, rfl⟩

end LainLang.Tracer
