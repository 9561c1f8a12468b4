import LainLang.Tracer.Adequacy
/-!
# Fresh variables

Variables are numbered from one counter: `logic_var` counts it up before a run,
and the run goes on counting in its states, each branch on its own. A state's
counter stays above every variable that the state or a goal run in it knows, so
the variable that `fresh` numbers by it is new there.
-/
open LainLang.Lib LainLang.Js

namespace LainLang.Tracer

/-! ## Goals as they are composed -/

/-- `logic_var` over the number of the next variable. -/
def logic_var (name : Option String) : StateM ℕ LogicVar := do
  let id ← get
  set (id + 1)
  return ⟨id, name⟩

/-- Nothing is bound; the counter is the next variable id. -/
def empty_goal_state (next_logic_var_id : ℕ) : GoalState where
  subst := OrdMap.empty
  counter := next_logic_var_id

/-- `fresh`: the variable has the counter as its id. -/
def fresh (builder : LogicVar → Goal) : Goal := fun bind fuel state =>
  builder ⟨state.counter, none⟩ bind fuel { subst := state.subst, counter := state.counter + 1 }

/-- Whatever goal is built, `fresh` hands its builder the variable `w` and runs the
goal in the state `next`. -/
def Hands (bind : Binder) (fuel : ℕ) (state : GoalState) (w : LogicVar) (next : GoalState) : Prop :=
  ∀ builder, fresh builder bind fuel state = builder w bind fuel next

/-- The variable is numbered by the counter, which is counted up. -/
theorem hands_iff {bind : Binder} {fuel : ℕ} {state : GoalState} {w : LogicVar} {next : GoalState} :
    Hands bind fuel state w next ↔ w = ⟨state.counter, none⟩ ∧ next = ⟨state.subst, state.counter + 1⟩ := by
  constructor
  · intro h
    -- A goal that answers with its state if it was built from that variable.
    have hprobe := h fun v _ _ s => .ok (if v = ⟨state.counter, none⟩ then [s] else [])
    simp only [fresh, if_true] at hprobe
    split at hprobe
    · rename_i hw
      exact ⟨hw, (List.singleton_inj.1 (Except.ok.inj hprobe)).symm⟩
    · exact absurd (Except.ok.inj hprobe) (List.cons_ne_nil _ _)
  · rintro ⟨rfl, rfl⟩ builder
    rfl

/-- A goal by its constructors. The facts on one attribute are those of
`attr_fact`, and `join_through` is two edges. -/
inductive GoalExpr where
  | equal (left right : Term)
  | or (goals : List GoalExpr)
  | and (goals : List GoalExpr)
  | fresh (builder : LogicVar → GoalExpr)
  | node_fact (graph : DirectedGraph) (id_term attrs_term : Term)
  | edge_fact (graph : DirectedGraph) (source_term target_term : Term)
  | attr_fact (graph : DirectedGraph) (attr_name : String) (id_term value_term : Term)
      (predicate : Option (Term → Attributes → Bool))
  | label_test (test : String → String → Bool) (graph : DirectedGraph) (id_term value_term : Term)
  | reachable (graph : DirectedGraph) (source_term target_term : Term)

mutual

/-- The goal that the expression builds. -/
def GoalExpr.goal : GoalExpr → Goal
  | .equal left right => goal_equal left right
  | .or goals => goal_or (goalsOf goals)
  | .and goals => goal_and (goalsOf goals)
  | .fresh builder => Tracer.fresh fun v => (builder v).goal
  | .node_fact graph id_term attrs_term => Tracer.node_fact graph id_term attrs_term
  | .edge_fact graph source_term target_term => Tracer.edge_fact graph source_term target_term
  | .attr_fact graph attr_name id_term value_term predicate =>
    Tracer.attr_fact graph attr_name id_term value_term predicate
  | .label_test test graph id_term value_term => Tracer.label_test test graph id_term value_term
  | .reachable graph source_term target_term => Tracer.reachable graph source_term target_term

/-- The goals of a list. -/
def goalsOf : List GoalExpr → List Goal
  | [] => []
  | g :: gs => g.goal :: goalsOf gs

end

theorem goalsOf_eq (gs : List GoalExpr) : goalsOf gs = gs.map GoalExpr.goal := by
  induction gs with
  | nil => rw [goalsOf, List.map_nil]
  | cons g gs ih => rw [goalsOf, ih, List.map_cons]

/-! ## Variables in terms -/

/-- Every variable in the term satisfies `P`. -/
inductive VarsIn (P : JsNumber → Prop) : Term → Prop where
  | atom (a : Atom) : VarsIn P (.atom a)
  | arr {items : List Term} (all : ∀ x ∈ items, VarsIn P x) : VarsIn P (.arr items)
  | obj {fields : List (String × Term)} (root : ∀ v, is_logic_var (.obj fields) = some v → P v)
      (all : ∀ k x, field fields k = some x → VarsIn P x) : VarsIn P (.obj fields)

section terms
variable {P Q : JsNumber → Prop}

theorem VarsIn.mono (hPQ : ∀ v, P v → Q v) {t : Term} (h : VarsIn P t) : VarsIn Q t := by
  induction h with
  | atom a => exact .atom a
  | arr _ ih => exact .arr ih
  | obj root _ ih => exact .obj (fun v hv => hPQ v (root v hv)) ih

theorem NoVars.varsIn {t : Term} (h : NoVars t) : VarsIn P t := by
  induction h with
  | atom a => exact .atom a
  | arr _ ih => exact .arr ih
  | obj root _ ih => exact .obj (fun v hv => absurd (root.symm.trans hv) nofun) ih

theorem VarsIn.var {t : Term} (h : VarsIn P t) {v : JsNumber} (hv : is_logic_var t = some v) : P v := by
  cases h with
  | atom a => cases hv
  | arr _ => cases hv
  | obj root _ => exact root v hv

theorem VarsIn.field {fields : List (String × Term)} (h : VarsIn P (.obj fields)) (key : String) :
    VarsIn P ((field fields key).getD .undefined) := by
  cases h with
  | obj _ all =>
    cases hf : Tracer.field fields key with
    | none => exact .atom _
    | some t => exact all key t hf

theorem varsIn_term (w : LogicVar) (h : P (.ofNat w.id)) : VarsIn P w.term := by
  refine .obj (fun v hv => ?_) fun k t ht => ?_
  · obtain rfl := Option.some.inj ((is_logic_var_term w).symm.trans hv)
    exact h
  · have hmem := List.mem_cons.1 (field_mem ht)
    rw [List.mem_cons, Option.mem_toList] at hmem
    rcases hmem with heq | heq | hname
    · cases heq
      exact .atom _
    · cases heq
      exact .atom _
    · obtain ⟨name, -, heq⟩ := Option.map_eq_some_iff.1 hname
      cases heq
      exact .atom _

/-- The variables of the children of two terms are variables of the terms. -/
theorem varsIn_childPairs {a b : Term} (ha : VarsIn P a) (hb : VarsIn P b) {pairs : List (Term × Term)}
    (h : childPairs a b = some pairs) : ∀ p ∈ pairs, VarsIn P p.1 ∧ VarsIn P p.2 := by
  unfold childPairs at h
  intro p hp
  split at h
  · split at h
    · cases h
    · cases h
      cases ha with | arr hxs => ?_
      cases hb with | arr hys => ?_
      obtain ⟨hx, hy⟩ := List.of_mem_zip hp
      exact ⟨hxs _ hx, hys _ hy⟩
  · dsimp only at h
    split at h
    · cases h
    split at h
    · cases h
    · cases h
      obtain ⟨key, -, rfl⟩ := List.mem_map.1 hp
      exact ⟨ha.field key, hb.field key⟩
  · split at h
    · cases h
      cases hp
    · cases h
  · cases h

/-! ## Variables in substitutions -/

/-- Every variable that is bound or in a binding satisfies `P`. -/
def SubstIn (P : JsNumber → Prop) (subst : Substitution) : Prop := ∀ v t, subst.get? v = some t → P v ∧ VarsIn P t

theorem SubstIn.mono (hPQ : ∀ v, P v → Q v) {subst : Substitution} (h : SubstIn P subst) : SubstIn Q subst :=
  fun v t hv => ⟨hPQ v (h v t hv).1, (h v t hv).2.mono hPQ⟩

theorem substIn_bind_var {subst : Substitution} (h : SubstIn P subst) {v : JsNumber} (hv : P v) {t : Term}
    (ht : VarsIn P t) : SubstIn P (bind_var v t subst) := by
  intro w u hw
  simp only [bind_var, OrdMap.get?_set] at hw
  split at hw
  · rename_i heq
    cases hw
    exact ⟨heq ▸ hv, ht⟩
  · exact h w u hw

theorem varsIn_resolve_var {subst : Substitution} (hs : SubstIn P subst) {fuel : ℕ} {t a : Term} (ht : VarsIn P t)
    (h : resolve_var fuel t subst = .ok a) : VarsIn P a := by
  induction fuel generalizing t with
  | zero => cases h
  | succ fuel ih =>
    rw [resolve_var] at h
    split at h
    · rename_i bound hbound
      obtain ⟨v, -, hv⟩ := Option.bind_eq_some_iff.1 hbound
      exact ih (hs v bound hv).2 h
    · cases h
      exact ht

theorem substIn_unifyAll {unify : Term → Term → Substitution → Run (Option Substitution)}
    (hunify : ∀ l r s s', VarsIn P l → VarsIn P r → SubstIn P s → unify l r s = .ok (some s') → SubstIn P s')
    {pairs : List (Term × Term)} (hpairs : ∀ p ∈ pairs, VarsIn P p.1 ∧ VarsIn P p.2) {subst subst' : Substitution}
    (hs : SubstIn P subst) (h : unifyAll unify pairs subst = .ok (some subst')) : SubstIn P subst' := by
  induction pairs generalizing subst with
  | nil =>
    cases h
    exact hs
  | cons p pairs ih =>
    rw [List.forall_mem_cons] at hpairs
    obtain ⟨first, hfirst, h⟩ := except_bind_eq_ok h
    cases first with
    | none => cases h
    | some current => exact ih hpairs.2 (hunify _ _ _ _ hpairs.1.1 hpairs.1.2 hs hfirst) h

/-- `unify` binds variables of its arguments, to terms made of these. -/
theorem substIn_unifyWith {bind : Binder} (hbind : Binds bind) {fuel : ℕ} :
    ∀ left right subst subst', VarsIn P left → VarsIn P right → SubstIn P subst →
      unifyWith bind fuel left right subst = .ok (some subst') → SubstIn P subst' := by
  induction fuel with
  | zero =>
    intro _ _ _ _ _ _ _ h
    cases h
  | succ fuel ih =>
    intro left right subst subst' hl hr hs h
    rw [unifyWith] at h
    obtain ⟨a, ha, h⟩ := except_bind_eq_ok h
    obtain ⟨b, hb, h⟩ := except_bind_eq_ok h
    have hina : VarsIn P a := varsIn_resolve_var hs hl ha
    have hinb : VarsIn P b := varsIn_resolve_var hs hr hb
    have hbound : ∀ {v t}, P v → VarsIn P t →
        (do return some (← bind fuel v t subst) : Run (Option Substitution)) = .ok (some subst') → SubstIn P subst' := by
      intro v t hv ht h
      obtain ⟨s', hs', h⟩ := except_bind_eq_ok h
      cases h
      obtain rfl := hbind _ _ _ _ _ hs'
      exact substIn_bind_var hs hv ht
    rw [unifyResolved] at h
    cases hva : is_logic_var a with
    | some v =>
      cases hvb : is_logic_var b with
      | some w =>
        simp only [hva, hvb] at h
        split at h
        · cases h
          exact hs
        · exact hbound (hina.var hva) hinb h
      | none =>
        simp only [hva, hvb] at h
        exact hbound (hina.var hva) hinb h
    | none =>
      cases hvb : is_logic_var b with
      | some w =>
        simp only [hva, hvb] at h
        exact hbound (hinb.var hvb) hina h
      | none =>
        simp only [hva, hvb] at h
        cases hpairs : childPairs a b with
        | none =>
          simp only [hpairs] at h
          cases h
        | some pairs =>
          simp only [hpairs] at h
          exact substIn_unifyAll ih (varsIn_childPairs hina hinb hpairs) hs h

theorem substIn_rows {bind : Binder} (hbind : Binds bind) {fuel : ℕ} {rows : List (List (Term × Term))}
    (hrows : ∀ row ∈ rows, ∀ p ∈ row, VarsIn P p.1 ∧ VarsIn P p.2) {state : GoalState} (hs : SubstIn P state.subst)
    {states : List GoalState} (h : goal_rows rows bind fuel state = .ok states) :
    ∀ s ∈ states, s.counter = state.counter ∧ SubstIn P s.subst := by
  intro s hmem
  obtain ⟨row, hrow, found, hfound, hmem⟩ := (mem_collect h s).1 hmem
  obtain ⟨result, hresult, hfound⟩ := except_bind_eq_ok hfound
  cases result with
  | none =>
    cases hfound
    cases hmem
  | some next =>
    cases hfound
    obtain rfl := List.mem_singleton.1 hmem
    exact ⟨rfl, substIn_unifyAll (substIn_unifyWith hbind) (hrows row hrow) hs hresult⟩

end terms

/-! ## What goals know -/

/-- The variables in the goal's terms satisfy `P`, except those that its own
`fresh` goals make, and its graphs have none. -/
inductive Scoped : (JsNumber → Prop) → GoalExpr → Prop where
  | equal {P : JsNumber → Prop} {left right : Term} (hl : VarsIn P left) (hr : VarsIn P right) : Scoped P (.equal left right)
  | or {P : JsNumber → Prop} {goals : List GoalExpr} (all : ∀ g ∈ goals, Scoped P g) : Scoped P (.or goals)
  | and {P : JsNumber → Prop} {goals : List GoalExpr} (all : ∀ g ∈ goals, Scoped P g) : Scoped P (.and goals)
  | fresh {P : JsNumber → Prop} {builder : LogicVar → GoalExpr}
      (body : ∀ w, Scoped (fun v => P v ∨ v = .ofNat w.id) (builder w)) : Scoped P (.fresh builder)
  | node_fact {P : JsNumber → Prop} {graph : DirectedGraph} {a b : Term} (hgraph : PlainAttributes graph) (ha : VarsIn P a)
      (hb : VarsIn P b) : Scoped P (.node_fact graph a b)
  | edge_fact {P : JsNumber → Prop} {graph : DirectedGraph} {a b : Term} (ha : VarsIn P a) (hb : VarsIn P b) :
      Scoped P (.edge_fact graph a b)
  | attr_fact {P : JsNumber → Prop} {graph : DirectedGraph} {attr_name : String} {a b : Term}
      {predicate : Option (Term → Attributes → Bool)} (hgraph : PlainAttributes graph) (ha : VarsIn P a) (hb : VarsIn P b) :
      Scoped P (.attr_fact graph attr_name a b predicate)
  | label_test {P : JsNumber → Prop} {test : String → String → Bool} {graph : DirectedGraph} {a b : Term} (ha : VarsIn P a)
      (hb : VarsIn P b) : Scoped P (.label_test test graph a b)
  | reachable {P : JsNumber → Prop} {graph : DirectedGraph} {a b : Term} (ha : VarsIn P a) (hb : VarsIn P b) :
      Scoped P (.reachable graph a b)

theorem Scoped.mono {P : JsNumber → Prop} {g : GoalExpr} (h : Scoped P g) :
    ∀ {Q : JsNumber → Prop}, (∀ v, P v → Q v) → Scoped Q g := by
  induction h with
  | equal hl hr => exact fun hPQ => .equal (hl.mono hPQ) (hr.mono hPQ)
  | or _ ih => exact fun hPQ => .or fun g hg => ih g hg hPQ
  | and _ ih => exact fun hPQ => .and fun g hg => ih g hg hPQ
  | fresh _ ih => exact fun hPQ => .fresh fun w => ih w fun v hv => hv.imp_left (hPQ v)
  | node_fact hgraph ha hb => exact fun hPQ => .node_fact hgraph (ha.mono hPQ) (hb.mono hPQ)
  | edge_fact ha hb => exact fun hPQ => .edge_fact (ha.mono hPQ) (hb.mono hPQ)
  | attr_fact hgraph ha hb => exact fun hPQ => .attr_fact hgraph (ha.mono hPQ) (hb.mono hPQ)
  | label_test ha hb => exact fun hPQ => .label_test (ha.mono hPQ) (hb.mono hPQ)
  | reachable ha hb => exact fun hPQ => .reachable (ha.mono hPQ) (hb.mono hPQ)

/-- A variable with a number below `n`. -/
def IdBelow (n : ℕ) (v : JsNumber) : Prop := ∃ i < n, v = .ofNat i

theorem IdBelow.mono {n m : ℕ} (h : n ≤ m) {v : JsNumber} (hv : IdBelow n v) : IdBelow m v := by
  obtain ⟨i, hi, rfl⟩ := hv
  exact ⟨i, by omega, rfl⟩

theorem IdBelow.ne {n : ℕ} {v : JsNumber} (hv : IdBelow n v) : v ≠ .ofNat n := by
  obtain ⟨i, hi, rfl⟩ := hv
  intro h
  have := Decimal.ofNat_injective (JsNumber.finite.inj h)
  omega

/-- The counter is above every variable of the substitution. -/
def GoalState.Counted (state : GoalState) : Prop := SubstIn (IdBelow state.counter) state.subst

/-- A later state counts on. -/
def GoalState.Before (state state' : GoalState) : Prop := state.counter ≤ state'.counter ∧ state'.Counted

theorem before_rows {bind : Binder} (hbind : Binds bind) {fuel : ℕ} {state : GoalState} (hs : state.Counted)
    {rows : List (List (Term × Term))}
    (hrows : ∀ row ∈ rows, ∀ p ∈ row, VarsIn (IdBelow state.counter) p.1 ∧ VarsIn (IdBelow state.counter) p.2)
    {states : List GoalState} (h : goal_rows rows bind fuel state = .ok states) : ∀ s ∈ states, state.Before s := by
  intro s hmem
  obtain ⟨hcounter, hsubst⟩ := substIn_rows hbind hrows hs h s hmem
  refine ⟨hcounter.ge, ?_⟩
  rw [GoalState.Counted, hcounter]
  exact hsubst

/-- The states that a list of goals leads to, when each goal counts on. -/
theorem before_goal_andAll {bind : Binder} {fuel n : ℕ} {goals : List GoalExpr}
    (hgoals : ∀ g ∈ goals, ∀ state states, n ≤ state.counter → state.Counted → g.goal bind fuel state = .ok states →
      ∀ s ∈ states, state.Before s) {states answers : List GoalState} (hs : ∀ s ∈ states, n ≤ s.counter ∧ s.Counted)
    (h : goal_andAll bind fuel (goalsOf goals) states = .ok answers) : ∀ s ∈ answers, n ≤ s.counter ∧ s.Counted := by
  induction goals generalizing states with
  | nil =>
    cases h
    exact hs
  | cons g goals ih =>
    rw [goalsOf, goal_andAll] at h
    rw [List.forall_mem_cons] at hgoals
    obtain ⟨next, hnext, h⟩ := except_bind_eq_ok h
    refine ih hgoals.2 (fun s hmem => ?_) h
    obtain ⟨state, hstate, found, hfound, hmem⟩ := (mem_collect hnext s).1 hmem
    obtain ⟨hle, hcounted⟩ := hs state hstate
    obtain ⟨hcounter, hs'⟩ := hgoals.1 state found hle hcounted hfound s hmem
    exact ⟨hle.trans hcounter, hs'⟩

/-- Running a goal leads from a state whose counter is above what both know to
such states. -/
theorem Scoped.counts_on {bind : Binder} (hbind : Binds bind) {fuel : ℕ} {P : JsNumber → Prop} {g : GoalExpr}
    (hg : Scoped P g) : ∀ state states, (∀ v, P v → IdBelow state.counter v) → state.Counted →
      g.goal bind fuel state = .ok states → ∀ s ∈ states, state.Before s := by
  induction hg with
  | equal hl hr =>
    intro state states hP hs h
    rw [GoalExpr.goal] at h
    exact before_rows hbind hs (by simpa using ⟨hl.mono hP, hr.mono hP⟩) h
  | or _ ih =>
    intro state states hP hs h s hmem
    rw [GoalExpr.goal, goalsOf_eq] at h
    obtain ⟨goal, hgoal, found, hfound, hmem⟩ := (mem_collect h s).1 hmem
    obtain ⟨g, hg, rfl⟩ := List.mem_map.1 hgoal
    exact ih g hg state found hP hs hfound s hmem
  | and _ ih =>
    intro state states hP hs h s hmem
    rw [GoalExpr.goal] at h
    have hfirst : ∀ s ∈ [state], state.counter ≤ s.counter ∧ s.Counted := List.forall_mem_singleton.2 ⟨le_rfl, hs⟩
    refine before_goal_andAll (fun g hg later found hle hlater hfound => ?_) hfirst h s hmem
    exact ih g hg later found (fun v hv => (hP v hv).mono hle) hlater hfound
  | fresh _ ih =>
    intro state states hP hs h s hmem
    rw [GoalExpr.goal] at h
    have hcounted : GoalState.Counted ⟨state.subst, state.counter + 1⟩ := hs.mono fun v hv => hv.mono (Nat.le_succ _)
    -- The body knows one variable more, the one just below the new counter.
    obtain ⟨hle, hs'⟩ := ih ⟨state.counter, none⟩ ⟨state.subst, state.counter + 1⟩ states
      (fun v hv => hv.elim (fun hv => (hP v hv).mono (Nat.le_succ _)) fun hv => ⟨state.counter, Nat.lt_succ_self _, hv⟩)
      hcounted h s hmem
    exact ⟨Nat.le_of_succ_le hle, hs'⟩
  | node_fact hgraph ha hb =>
    intro state states hP hs h
    rw [GoalExpr.goal] at h
    refine before_rows hbind hs (fun row hrow => ?_) h
    obtain ⟨⟨id, attrs⟩, hnode, rfl⟩ := List.mem_map.1 hrow
    have hattrs := (hgraph id attrs ((OrdMap.mem_entries_iff _ _ _).1 hnode)).varsIn (P := IdBelow state.counter)
    simpa using ⟨⟨ha.mono hP, .atom _⟩, hb.mono hP, hattrs⟩
  | edge_fact ha hb =>
    intro state states hP hs h
    rw [GoalExpr.goal] at h
    refine before_rows hbind hs (fun row hrow => ?_) h
    obtain ⟨pair, -, rfl⟩ := List.mem_map.1 hrow
    simpa using ⟨⟨ha.mono hP, .atom _⟩, hb.mono hP, .atom _⟩
  | @attr_fact P graph attr_name a b predicate hgraph ha hb =>
    intro state states hP hs h
    rw [GoalExpr.goal] at h
    -- The value of an attribute is the only term that comes out of the graph.
    refine before_rows hbind hs (fun row hrow => ?_) h
    obtain ⟨⟨id, attrs⟩, hnode, rfl⟩ := List.mem_map.1 hrow
    have hid := (OrdMap.mem_entries_iff _ _ _).1 (List.mem_filter.1 hnode).1
    have hvalue := (hgraph.get_attr hid attr_name).varsIn (P := IdBelow state.counter)
    simpa using ⟨⟨ha.mono hP, .atom _⟩, hb.mono hP, hvalue⟩
  | label_test ha hb =>
    intro state states hP hs h
    rw [GoalExpr.goal] at h
    obtain ⟨text, -, h⟩ := except_bind_eq_ok h
    split at h
    · refine before_rows hbind hs (fun row hrow => ?_) h
      obtain ⟨id, attrs, raw_label, -, -, -, rfl⟩ := mem_labelRows.1 hrow
      simpa using ⟨ha.mono hP, .atom _⟩
    · cases h
      simp
  | reachable ha hb =>
    intro state states hP hs h
    rw [GoalExpr.goal] at h
    obtain ⟨pairs, -, h⟩ := except_bind_eq_ok h
    refine before_rows hbind hs (fun row hrow => ?_) h
    obtain ⟨pair, -, rfl⟩ := List.mem_map.1 hrow
    simpa using ⟨⟨ha.mono hP, .atom _⟩, hb.mono hP, .atom _⟩

/-! ## The states of a run -/

/-- Running a goal from a state enters a goal in it with another state, inside the
goals of a list. -/
inductive Enters (bind : Binder) (fuel : ℕ) : GoalExpr → GoalState → List GoalExpr → GoalExpr → GoalState → Prop where
  | here (g : GoalExpr) (state : GoalState) : Enters bind fuel g state [] g state
  | or {goals : List GoalExpr} {g g' : GoalExpr} {state state' : GoalState} {around : List GoalExpr} (hg : g ∈ goals)
      (h : Enters bind fuel g state around g' state') : Enters bind fuel (.or goals) state (.or goals :: around) g' state'
  | and {before after : List GoalExpr} {g g' : GoalExpr} {state next state' : GoalState} {states : List GoalState}
      {around : List GoalExpr} (hrun : goal_and (goalsOf before) bind fuel state = .ok states) (hnext : next ∈ states)
      (h : Enters bind fuel g next around g' state') :
      Enters bind fuel (.and (before ++ g :: after)) state (.and (before ++ g :: after) :: around) g' state'
  | fresh {builder : LogicVar → GoalExpr} {g' : GoalExpr} {state next state' : GoalState} {w : LogicVar}
      {around : List GoalExpr} (hands : Hands bind fuel state w next)
      (h : Enters bind fuel (builder w) next around g' state') :
      Enters bind fuel (.fresh builder) state (.fresh builder :: around) g' state'

theorem forall_mem_insert {P : GoalExpr → Prop} {first second : GoalExpr} {rest : List GoalExpr}
    (h : ∀ e ∈ first :: rest, P e) (hsecond : P second) : ∀ e ∈ first :: second :: rest, P e := by
  rw [List.forall_mem_cons] at h
  exact List.forall_mem_cons.2 ⟨h.1, List.forall_mem_cons.2 ⟨hsecond, h.2⟩⟩

/-- The counter is above what every goal on the way knows. -/
theorem Enters.counted {bind : Binder} (hbind : Binds bind) {fuel : ℕ} {g g' : GoalExpr} {state state' : GoalState}
    {around : List GoalExpr} (h : Enters bind fuel g state around g' state') :
    ∀ {P : JsNumber → Prop}, Scoped P g → (∀ v, P v → IdBelow state.counter v) → state.Counted →
      state.Before state' ∧ ∀ e ∈ g' :: around, Scoped (IdBelow state'.counter) e := by
  induction h with
  | here g state =>
    intro P hg hP hs
    exact ⟨⟨le_rfl, hs⟩, List.forall_mem_singleton.2 (hg.mono hP)⟩
  | @or goals g g' state state' around hmem _ ih =>
    intro P hg hP hs
    cases hg with | or all => ?_
    obtain ⟨⟨hle, hs'⟩, hscoped⟩ := ih (all g hmem) hP hs
    have hroot : Scoped (IdBelow state'.counter) (.or goals) :=
      .or fun g hg => (all g hg).mono fun v hv => (hP v hv).mono hle
    exact ⟨⟨hle, hs'⟩, forall_mem_insert hscoped hroot⟩
  | @and before after g g' state next state' states around hrun hnext _ ih =>
    intro P hg hP hs
    cases hg with | and all => ?_
    -- The goals before it have counted on, and what was below the counter stays below it.
    have hstep : ∀ b ∈ before, ∀ later found, state.counter ≤ later.counter → later.Counted →
        b.goal bind fuel later = .ok found → ∀ s ∈ found, later.Before s := by
      intro b hb later found hle hlater hfound
      exact (all b (by simp [hb])).counts_on hbind later found (fun v hv => (hP v hv).mono hle) hlater hfound
    obtain ⟨hle, hcounted⟩ :=
      before_goal_andAll hstep (List.forall_mem_singleton.2 ⟨le_rfl, hs⟩) hrun next hnext
    obtain ⟨⟨hle', hs'⟩, hscoped⟩ := ih (all g (by simp)) (fun v hv => (hP v hv).mono hle) hcounted
    have hroot : Scoped (IdBelow state'.counter) (.and (before ++ g :: after)) :=
      .and fun g hg => (all g hg).mono fun v hv => (hP v hv).mono (hle.trans hle')
    exact ⟨⟨hle.trans hle', hs'⟩, forall_mem_insert hscoped hroot⟩
  | @fresh builder g' state next state' w around hands _ ih =>
    intro P hg hP hs
    cases hg with | fresh body => ?_
    obtain ⟨rfl, rfl⟩ := hands_iff.1 hands
    have hcounted : GoalState.Counted ⟨state.subst, state.counter + 1⟩ := hs.mono fun v hv => hv.mono (Nat.le_succ _)
    obtain ⟨⟨hle, hs'⟩, hscoped⟩ := ih (body ⟨state.counter, none⟩)
      (fun v hv => hv.elim (fun hv => (hP v hv).mono (Nat.le_succ _)) fun hv => ⟨state.counter, Nat.lt_succ_self _, hv⟩)
      hcounted
    have hroot : Scoped (IdBelow state'.counter) (.fresh builder) :=
      (Scoped.fresh body).mono fun v hv => (hP v hv).mono (Nat.le_of_succ_le hle)
    exact ⟨⟨Nat.le_of_succ_le hle, hs'⟩, forall_mem_insert hscoped hroot⟩

/-- The variables that `logic_var` makes have numbers from the first one to where
the counter stands. -/
theorem logic_var_below {names : List (Option String)} {next counter : ℕ} {vars : List LogicVar}
    (h : (names.mapM logic_var).run next = (vars, counter)) : next ≤ counter ∧ ∀ w ∈ vars, w.id < counter := by
  induction names generalizing next vars with
  | nil =>
    cases h
    simp
  | cons name names ih =>
    rw [List.mapM_cons] at h
    cases hrest : (names.mapM logic_var).run (next + 1) with
    | mk rest last =>
      have hrun : (⟨next, name⟩ :: rest, last) = (vars, counter) := by
        rw [← h]
        simp only [StateT.run_bind, logic_var]
        exact (congrArg (fun r : List LogicVar × ℕ => (LogicVar.mk next name :: r.1, r.2)) hrest).symm
      cases hrun
      obtain ⟨hle, hall⟩ := ih hrest
      exact ⟨by omega, List.forall_mem_cons.2 ⟨by dsimp only; omega, hall⟩⟩

/-- In every state in which a run enters a goal, and in every answer of that goal,
the counter is above the variables of the substitution and of the goals around.
So the variable that an entered `fresh` hands its builder is none of these. -/
theorem fresh_is_new {bind : Binder} (hbind : Binds bind) {fuel : ℕ} {names : List (Option String)} {vars : List LogicVar}
    {counter : ℕ} (hvars : (names.mapM logic_var).run 0 = (vars, counter)) {g : GoalExpr}
    (hg : Scoped (fun v => ∃ w ∈ vars, v = .ofNat w.id) g) {around : List GoalExpr} {g' : GoalExpr} {state : GoalState}
    (h : Enters bind fuel g (empty_goal_state counter) around g' state) :
    (SubstIn (IdBelow state.counter) state.subst ∧ ∀ e ∈ g' :: around, Scoped (IdBelow state.counter) e) ∧
      (∀ states, g'.goal bind fuel state = .ok states → ∀ s ∈ states, SubstIn (IdBelow s.counter) s.subst) ∧
      ∀ builder, g' = .fresh builder → ∃ w next, Hands bind fuel state w next ∧
        g'.goal bind fuel state = (builder w).goal bind fuel next ∧
        SubstIn (· ≠ .ofNat w.id) state.subst ∧ ∀ e ∈ g' :: around, Scoped (· ≠ .ofNat w.id) e := by
  have hmade : ∀ v, (∃ w ∈ vars, v = .ofNat w.id) → IdBelow counter v := by
    rintro v ⟨w, hw, rfl⟩
    exact ⟨w.id, (logic_var_below hvars).2 w hw, rfl⟩
  have hempty : (empty_goal_state counter).Counted := fun v t hv => by simp [empty_goal_state] at hv
  obtain ⟨⟨-, hs⟩, hscoped⟩ := h.counted hbind hg hmade hempty
  refine ⟨⟨hs, hscoped⟩, fun states hrun s hmem => ?_, ?_⟩
  · exact ((hscoped g' List.mem_cons_self).counts_on hbind state states (fun v hv => hv) hs hrun s hmem).2
  · rintro builder rfl
    have hands : Hands bind fuel state ⟨state.counter, none⟩ ⟨state.subst, state.counter + 1⟩ := hands_iff.2 ⟨rfl, rfl⟩
    have hrun : (GoalExpr.fresh builder).goal bind fuel state =
        (builder ⟨state.counter, none⟩).goal bind fuel ⟨state.subst, state.counter + 1⟩ := by
      rw [GoalExpr.goal]
      exact hands fun v => (builder v).goal
    exact ⟨_, _, hands, hrun, hs.mono fun v hv => hv.ne, fun e he => (hscoped e he).mono fun v hv => hv.ne⟩

/-- A variable made before the run is bound, then a second one is made. -/
def chained : List GoalExpr :=
  [.equal (LogicVar.mk 0 (some "x")).term (.str "a"), .fresh fun y => .equal y.term (LogicVar.mk 0 (some "x")).term]

theorem fresh_is_new_chained : ∃ state w next,
    Enters bind_unchecked 3 (.and chained) (empty_goal_state 1) [.and chained]
        (.fresh fun y => .equal y.term (LogicVar.mk 0 (some "x")).term) state ∧
      state.subst.get? (.ofNat 0) = some (.str "a") ∧ Hands bind_unchecked 3 state w next ∧ w.id = 1 ∧
      SubstIn (· ≠ .ofNat w.id) state.subst := by
  have hscoped : Scoped (fun v => ∃ w ∈ [LogicVar.mk 0 (some "x")], v = .ofNat w.id) (.and chained) := by
    refine .and fun g hg => ?_
    simp only [chained, List.mem_cons, List.not_mem_nil, or_false] at hg
    rcases hg with rfl | rfl
    · exact .equal (varsIn_term _ ⟨_, List.mem_singleton_self _, rfl⟩) (.atom _)
    · exact .fresh fun w => .equal (varsIn_term w (.inr rfl)) (varsIn_term _ (.inl ⟨_, List.mem_singleton_self _, rfl⟩))
  have henters : Enters bind_unchecked 3 (.and chained) (empty_goal_state 1) [.and chained]
      (.fresh fun y => .equal y.term (LogicVar.mk 0 (some "x")).term) ⟨OrdMap.empty.set (.ofNat 0) (.str "a"), 1⟩ :=
    @Enters.and bind_unchecked 3 [.equal (LogicVar.mk 0 (some "x")).term (.str "a")] [] _ _ _ _ _ [_] _ rfl
      (List.mem_singleton_self _) (.here _ _)
  have hvars : ([some "x"].mapM logic_var).run 0 = ([LogicVar.mk 0 (some "x")], 1) := rfl
  obtain ⟨w, next, hands, -, hnew, -⟩ := (fresh_is_new binds_unchecked hvars hscoped henters).2.2 _ rfl
  exact ⟨_, w, next, henters, by simp, hands, by rw [(hands_iff.1 hands).1], hnew⟩

end LainLang.Tracer
