import LainLang.Tracer.Relations
/-!
# Clauses as data

`clause_goal` names the variables of a clause and makes its goal in one pass. A
plan is what the clause asks, before or after its terms are named; a clause that
makes no goal has no plan. Of a run of a plan we say whether it comes to a label
filter whose second term is an unbound variable, where the filter gives up.
-/
open LainLang.Lib LainLang.Js

namespace LainLang.Tracer

/-- A clause that was recognised. -/
inductive Plan where
  | binary (op : String) (first second : Term)
  | join_through (source middle target : Term)
  | and (plans : List Plan)
  | or (plans : List Plan)

/-! ## The plan of a clause -/

mutual

/-- The plan of a clause. -/
def clause_plan (graph : DirectedGraph) : Term → Option Plan
  | .obj fields =>
    match field fields "op" with
    | some (.atom (.str op)) =>
      if op = "and" then some (.and (nested_plans graph fields))
      else if op = "or" then
        if (nested_plans graph fields).length > 0 then some (.or (nested_plans graph fields)) else none
      else if op = "join_through" then
        some (.join_through (clauseField fields "source") (clauseField fields "middle") (clauseField fields "target"))
      else
        match binary_goal graph op with
        | some (first, second, _) => some (.binary op (clauseField fields first) (clauseField fields second))
        | none => none
    | _ => none
  | _ => none

/-- The plans under `clauses`. -/
def nested_plans (graph : DirectedGraph) : List (String × Term) → List Plan
  | [] => []
  | (key, t) :: fields =>
    if key = "clauses" then
      match t with
      | .arr clauses => clause_plans graph clauses
      | _ => []
    else nested_plans graph fields

/-- The plans of a list of clauses. -/
def clause_plans (graph : DirectedGraph) : List Term → List Plan
  | [] => []
  | clause :: clauses => (clause_plan graph clause).toList ++ clause_plans graph clauses

end

/-- Clauses make their plans on their own. -/
theorem clause_plans_eq (graph : DirectedGraph) (clauses : List Term) :
    clause_plans graph clauses = clauses.filterMap (clause_plan graph) := by
  induction clauses with
  | nil => rfl
  | cons clause clauses ih =>
    rw [clause_plans, ih, List.filterMap_cons]
    cases clause_plan graph clause <;> rfl

mutual

/-- `P` holds of the terms of the plan. -/
def Plan.All (P : Term → Prop) : Plan → Prop
  | .binary _ a b => P a ∧ P b
  | .join_through a b c => P a ∧ P b ∧ P c
  | .and plans => AllPlans P plans
  | .or plans => AllPlans P plans

/-- `Plan.All` of each plan. -/
def AllPlans (P : Term → Prop) : List Plan → Prop
  | [] => True
  | plan :: plans => plan.All P ∧ AllPlans P plans

end

theorem allPlans_iff {P : Term → Prop} {plans : List Plan} : AllPlans P plans ↔ ∀ plan ∈ plans, plan.All P := by
  induction plans with
  | nil => simp [AllPlans]
  | cons plan plans ih => rw [AllPlans, ih, List.forall_mem_cons]

/-! ## Naming its variables -/

mutual

/-- The plan with its variables named. -/
def Plan.name : Plan → Named Plan
  | .binary op a b => do
    let a ← logic_query_term a
    let b ← logic_query_term b
    return .binary op a b
  | .join_through a b c => do
    let a ← logic_query_term a
    let b ← logic_query_term b
    let c ← logic_query_term c
    return .join_through a b c
  | .and plans => return .and (← namePlans plans)
  | .or plans => return .or (← namePlans plans)

/-- The plans, named in their order. -/
def namePlans : List Plan → Named (List Plan)
  | [] => return []
  | plan :: plans => return (← plan.name) :: (← namePlans plans)

end

/-! ## Its goal -/

mutual

/-- The goal of a named plan. -/
def Plan.goal (graph : DirectedGraph) : Plan → Goal
  | .binary op a b =>
    match binary_goal graph op with
    | some (_, _, goal) => goal a b
    | none => goal_or []
  | .join_through a b c => join_through graph a b c
  | .and plans => goal_and (planGoals graph plans)
  | .or plans => goal_or (planGoals graph plans)

/-- Their goals. -/
def planGoals (graph : DirectedGraph) : List Plan → List Goal
  | [] => []
  | plan :: plans => plan.goal graph :: planGoals graph plans

end

theorem planGoals_eq (graph : DirectedGraph) (plans : List Plan) : planGoals graph plans = plans.map (Plan.goal graph) := by
  induction plans with
  | nil => rfl
  | cons plan plans ih => rw [planGoals, ih, List.map_cons]

mutual

theorem clause_goal_plan (graph : DirectedGraph) : ∀ clause : Term, clause_goal graph clause =
    match clause_plan graph clause with
    | some plan => (fun p => some (p.goal graph)) <$> plan.name
    | none => pure none
  | .atom _ => rfl
  | .arr _ => rfl
  | .obj fields => by
    rw [clause_goal, clause_plan]
    cases field fields "op" with
    | none => rfl
    | some t =>
      cases t with
      | arr _ | obj _ => rfl
      | atom a =>
        cases a with
        | str op =>
          dsimp only
          by_cases hand : op = "and"
          · simp [if_pos hand, nested_goals_plans graph fields, Plan.name, Plan.goal]
          · by_cases hor : op = "or"
            · rw [if_neg hand, if_neg hand, if_pos hor, if_pos hor, nested_goals_plans graph fields]
              cases nested_plans graph fields with
              | nil => rfl
              | cons plan plans => simp [Plan.name, Plan.goal, namePlans, planGoals]
            · by_cases hjoin : op = "join_through"
              · simp [if_neg hand, if_neg hor, if_pos hjoin, Plan.name, Plan.goal]
              · rw [if_neg hand, if_neg hand, if_neg hor, if_neg hor, if_neg hjoin, if_neg hjoin]
                cases hgoal : binary_goal graph op with
                | none => rfl
                | some g =>
                  obtain ⟨first, second, goal⟩ := g
                  simp [Plan.name, Plan.goal, hgoal]
        | _ => rfl

theorem nested_goals_plans (graph : DirectedGraph) :
    ∀ fields : List (String × Term), nested_goals graph fields = planGoals graph <$> namePlans (nested_plans graph fields)
  | [] => rfl
  | (key, .arr clauses) :: fields => by
    rw [nested_goals, nested_plans]
    split
    · exact clause_goals_plans graph clauses
    · exact nested_goals_plans graph fields
  | (key, .atom _) :: fields | (key, .obj _) :: fields => by
    simp only [nested_goals, nested_plans]
    split
    · rfl
    · exact nested_goals_plans graph fields

theorem clause_goals_plans (graph : DirectedGraph) :
    ∀ clauses : List Term, clause_goals graph clauses = planGoals graph <$> namePlans (clause_plans graph clauses)
  | [] => rfl
  | clause :: clauses => by
    rw [clause_goals, clause_plans, clause_goal_plan graph clause, clause_goals_plans graph clauses]
    cases clause_plan graph clause with
    | none => simp
    | some plan => simp [namePlans, planGoals]

end

/-! ## Label filters that give up -/

/-- The term resolves to a variable without a binding. -/
def Unbound (s : Substitution) (t : Term) : Prop := ∃ n a v, resolve_var n t s = .ok a ∧ is_logic_var a = some v

section
variable (graph : DirectedGraph) (bind : Binder) (fuel : ℕ)

mutual

/-- The run from the state comes to a label filter whose second term is unbound. -/
def Plan.Asks : Plan → GoalState → Prop
  | .binary op _ b, state => needsText op ∧ Unbound state.subst b
  | .join_through _ _ _, _ => False
  | .and plans, state => AllAsk plans [state]
  | .or plans, state => AnyAsks plans state

/-- The same of a conjunction, from the states that the goals before it led to. -/
def AllAsk : List Plan → List GoalState → Prop
  | [], _ => False
  | plan :: plans, states => (∃ state ∈ states, plan.Asks state) ∨
      ∃ next, collect (fun state => plan.goal graph bind fuel state) states = .ok next ∧ AllAsk plans next

/-- Some plan asks it. -/
def AnyAsks : List Plan → GoalState → Prop
  | [], _ => False
  | plan :: plans, state => plan.Asks state ∨ AnyAsks plans state

end

end

end LainLang.Tracer
