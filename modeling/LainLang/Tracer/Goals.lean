import LainLang.Tracer.Acyclic
import LainLang.Tracer.Graph
/-!
# Goals

A goal maps a search state to the states in which it holds. Each fact of a graph
is a list of rows of equations, one row for each node, edge or pair it ranges
over. Two things are shown of every goal: with the occurs check it ends and
keeps substitutions acyclic (`Regular`), and the valuations that solve one of
its answers are those that solve the state it started from and satisfy what the
goal says (`Means`).
-/
open LainLang.Lib LainLang.Js

namespace LainLang.Tracer

/-- A substitution, and the id of the next variable. -/
structure GoalState where
  subst : Substitution
  counter : ℕ
  deriving DecidableEq

/-- A goal over the binder and the fuel of the kernel it calls. -/
abbrev Goal := Binder → ℕ → GoalState → Run (List GoalState)

/-! ## Combining goals -/

/-- The states of every goal, one after the other. -/
def goal_or (goals : List Goal) : Goal := fun bind fuel state => collect (fun goal => goal bind fuel state) goals

/-- The states that `goal_and` has after each of its goals. -/
def goal_andAll (bind : Binder) (fuel : ℕ) : List Goal → List GoalState → Run (List GoalState)
  | [], states => .ok states
  | goal :: goals, states => do goal_andAll bind fuel goals (← collect (fun candidate => goal bind fuel candidate) states)

/-- Each goal runs from the states of the one before. -/
def goal_and (goals : List Goal) : Goal := fun bind fuel state => goal_andAll bind fuel goals [state]

/-- One state for each row of equations that unify, in order. -/
def goal_rows (rows : List (List (Term × Term))) : Goal := fun bind fuel state =>
  collect (fun row => do
    match ← unifyAll (unifyWith bind fuel) row state.subst with
    | some next => return [{ subst := next, counter := state.counter }]
    | none => return []) rows

/-- Both terms unify. -/
def goal_equal (left right : Term) : Goal := goal_rows [[(left, right)]]

/-! ## Facts of a graph -/

/-- `attrs[attr_name]`. -/
def get_attr (attrs : Attributes) (attr_name : String) : Term := (field attrs attr_name).getD .undefined

/-- A row for each node. -/
def node_fact (graph : DirectedGraph) (id_term attrs_term : Term) : Goal :=
  goal_rows (graph.nodes.entries.map fun node => [(id_term, .str node.1), (attrs_term, .obj node.2)])

/-- A row for each pair of node ids. -/
def pairRows (source_term target_term : Term) (pairs : List EdgeTuple) : List (List (Term × Term)) :=
  pairs.map fun pair => [(source_term, .str pair.1), (target_term, .str pair.2)]

/-- A row for each edge. -/
def edge_fact (graph : DirectedGraph) (source_term target_term : Term) : Goal :=
  goal_rows (pairRows source_term target_term graph.edges)

/-- `attr_fact`: nodes whose attribute passes the predicate. -/
def attr_fact (graph : DirectedGraph) (attr_name : String) (id_term value_term : Term)
    (predicate : Option (Term → Attributes → Bool)) : Goal :=
  goal_rows ((graph.nodes.entries.filter fun node => predicate.all (· (get_attr node.2 attr_name) node.2)).map fun node =>
    [(id_term, .str node.1), (value_term, get_attr node.2 attr_name)])

/-- `v !== undefined`. -/
def isDefined (v : Term) (_attrs : Attributes) : Bool := decide (v ≠ .undefined)

def kind (graph : DirectedGraph) (id_term kind_term : Term) : Goal := attr_fact graph "kind" id_term kind_term none

def «namespace» (graph : DirectedGraph) (id_term namespace_term : Term) : Goal :=
  attr_fact graph "namespace" id_term namespace_term none

def level (graph : DirectedGraph) (id_term level_term : Term) : Goal :=
  attr_fact graph "relationLevel" id_term level_term none

def label (graph : DirectedGraph) (id_term label_term : Term) : Goal := attr_fact graph "label" id_term label_term none

/-- `value`: only where there is one. -/
def value (graph : DirectedGraph) (id_term value_term : Term) : Goal :=
  attr_fact graph "value" id_term value_term (some isDefined)

/-- `content`: only where there is one. -/
def content (graph : DirectedGraph) (id_term content_term : Term) : Goal :=
  attr_fact graph "content" id_term content_term (some isDefined)

/-- A row for each node whose label is a string that passes the test. -/
def labelRows (graph : DirectedGraph) (test : String → Bool) (id_term : Term) : List (List (Term × Term)) :=
  (graph.nodes.entries.filter fun node =>
    match get_attr node.2 "label" with
    | .atom (.str raw_label) => test raw_label
    | _ => false).map fun node => [(id_term, .str node.1)]

theorem mem_labelRows {graph : DirectedGraph} {test : String → Bool} {a : Term} {row : List (Term × Term)} :
    row ∈ labelRows graph test a ↔ ∃ id attrs raw_label, graph.nodes.get? id = some attrs ∧
      get_attr attrs "label" = .str raw_label ∧ test raw_label = true ∧ [(a, .str id)] = row := by
  simp only [labelRows, List.mem_map, List.mem_filter, Prod.exists, OrdMap.mem_entries_iff]
  constructor
  · rintro ⟨id, attrs, ⟨hid, htest⟩, rfl⟩
    split at htest
    · rename_i raw_label hlabel
      exact ⟨id, attrs, raw_label, hid, hlabel, htest, rfl⟩
    · cases htest
  · rintro ⟨id, attrs, raw_label, hid, hlabel, htest, rfl⟩
    refine ⟨id, attrs, ⟨hid, ?_⟩, rfl⟩
    rw [hlabel]
    exact htest

/-- The nodes whose label passes a test against a string. -/
def label_test (test : String → String → Bool) (graph : DirectedGraph) (id_term value_term : Term) : Goal :=
  fun bind fuel state => do
    match ← resolve fuel value_term state.subst with
    | .atom (.str text) => goal_rows (labelRows graph (test · text) id_term) bind fuel state
    | _ => return []

def label_prefix : DirectedGraph → Term → Term → Goal := label_test startsWith

def label_contains : DirectedGraph → Term → Term → Goal := label_test includes

/-- `reachable`, over all pairs. -/
def reachable (graph : DirectedGraph) (source_term target_term : Term) : Goal := fun bind fuel state => do
  let pairs ← enumerate_reachable_pairs fuel graph
  goal_rows (pairRows source_term target_term pairs) bind fuel state

/-- `reachable` under another name. -/
def downstream_of (graph : DirectedGraph) (source_term target_term : Term) : Goal :=
  reachable graph source_term target_term

/-- `upstream_of`: reachable in the reversed graph. -/
def upstream_of (graph : DirectedGraph) (source_term target_term : Term) : Goal :=
  reachable (reverse_graph graph) source_term target_term

/-- Two edges in a row. -/
def join_through (graph : DirectedGraph) (source_term middle_term target_term : Term) : Goal :=
  goal_and [edge_fact graph source_term middle_term, edge_fact graph middle_term target_term]

/-! ## Goals end -/

/-- More fuel and fewer checks only turn bad stops into answers, and with the
occurs check an acyclic state leads to acyclic states. -/
structure Regular (goal : Goal) : Prop where
  upto : ∀ (bad : Stop → Prop), bad .outOfFuel → ∀ bind bind', BinderUpto bad bind bind' → ∀ n m, n ≤ m → ∀ state,
    Upto bad (goal bind n state) (goal bind' m state)
  ends : ∀ state, Acyclic state.subst → Ends .outOfFuel (fun n => goal bind_checked n state)
  acyclic : ∀ n state states, Acyclic state.subst → goal bind_checked n state = .ok states →
    ∀ s ∈ states, Acyclic s.subst

theorem Regular.grows {goal : Goal} (h : Regular goal) (state : GoalState) :
    Grows .outOfFuel (fun n => goal bind_checked n state) :=
  fun n m hnm => h.upto (· = .outOfFuel) rfl _ _ (bind_checked_upto rfl) n m hnm state

theorem Regular.grows_unchecked {goal : Goal} (h : Regular goal) (state : GoalState) :
    Grows .outOfFuel (fun n => goal bind_unchecked n state) :=
  fun n m hnm => h.upto (· = .outOfFuel) rfl _ _ bind_unchecked_upto n m hnm state

theorem regular_rows (rows : List (List (Term × Term))) : Regular (goal_rows rows) where
  upto bad hbad bind bind' hbind n m hnm state := by
    refine .collect rows fun row _ => ?_
    exact (unifyAll_upto (unifyWith_upto hbad hbind hnm) row state.subst).bind fun _ => .refl _
  ends state hs := by
    refine .collect rows (fun row _ => ?_) fun row _ => ?_
    · exact (unifyAll_checked_grows row state.subst).bind fun _ => .const _
    · refine .bind (unifyAll_checked_grows row state.subst) (fun _ => .const _) (unifyAll_ends hs row)
        fun _ result _ => ?_
      cases result with
      | none => exact .ok _
      | some next => exact .ok _
  acyclic n state states hs h s hmem := by
    obtain ⟨row, -, answers, hrow, hs'⟩ := (mem_collect h s).1 hmem
    obtain ⟨result, hresult, hrow⟩ := except_bind_eq_ok hrow
    cases result with
    | none => cases hrow; cases hs'
    | some next =>
      cases hrow
      obtain rfl := List.mem_singleton.1 hs'
      exact unifyAll_checked_acyclic hs hresult

theorem regular_or {goals : List Goal} (h : ∀ goal ∈ goals, Regular goal) : Regular (goal_or goals) where
  upto bad hbad bind bind' hbind n m hnm state :=
    .collect goals fun goal hg => (h goal hg).upto bad hbad bind bind' hbind n m hnm state
  ends state hs := .collect goals (fun goal hg => (h goal hg).grows state) fun goal hg => (h goal hg).ends state hs
  acyclic n state states hs hrun s hmem := by
    obtain ⟨goal, hg, answers, hanswers, hs'⟩ := (mem_collect hrun s).1 hmem
    exact (h goal hg).acyclic n state answers hs hanswers s hs'

section conjunction
variable {goals : List Goal}

theorem goal_andAll_upto (h : ∀ goal ∈ goals, Regular goal) {bad : Stop → Prop} (hbad : bad .outOfFuel)
    {bind bind' : Binder} (hbind : BinderUpto bad bind bind') {n m : ℕ} (hnm : n ≤ m) (states : List GoalState) :
    Upto bad (goal_andAll bind n goals states) (goal_andAll bind' m goals states) := by
  induction goals generalizing states with
  | nil => exact .refl _
  | cons goal goals ih =>
    rw [List.forall_mem_cons] at h
    refine Upto.bind (.collect states fun state _ => ?_) (ih h.2)
    exact h.1.upto bad hbad bind bind' hbind n m hnm state

theorem goal_andAll_acyclic (h : ∀ goal ∈ goals, Regular goal) {n : ℕ} {states answers : List GoalState}
    (hs : ∀ s ∈ states, Acyclic s.subst) (hrun : goal_andAll bind_checked n goals states = .ok answers) :
    ∀ s ∈ answers, Acyclic s.subst := by
  induction goals generalizing states with
  | nil => cases hrun; exact hs
  | cons goal goals ih =>
    rw [List.forall_mem_cons] at h
    obtain ⟨next, hnext, hrun⟩ := except_bind_eq_ok hrun
    refine ih h.2 (fun s hmem => ?_) hrun
    obtain ⟨state, hstate, found, hfound, hs'⟩ := (mem_collect hnext s).1 hmem
    exact h.1.acyclic n state found (hs state hstate) hfound s hs'

theorem goal_andAll_ends (h : ∀ goal ∈ goals, Regular goal) {states : List GoalState}
    (hs : ∀ s ∈ states, Acyclic s.subst) : Ends .outOfFuel (fun n => goal_andAll bind_checked n goals states) := by
  induction goals generalizing states with
  | nil => exact .ok _
  | cons goal goals ih =>
    rw [List.forall_mem_cons] at h
    refine .bind (fun n m hnm => .collect states fun state _ => h.1.grows state n m hnm)
      (fun next n m hnm => @goal_andAll_upto goals h.2 (· = .outOfFuel) rfl _ _ (bind_checked_upto rfl) n m hnm next)
      (.collect states (fun state _ => h.1.grows state) fun state hmem => h.1.ends state (hs state hmem))
      fun n next hnext => ih h.2 fun s hmem => ?_
    obtain ⟨state, hstate, found, hfound, hs'⟩ := (mem_collect hnext s).1 hmem
    exact h.1.acyclic n state found (hs state hstate) hfound s hs'

theorem regular_and (h : ∀ goal ∈ goals, Regular goal) : Regular (goal_and goals) where
  upto _ hbad _ _ hbind _ _ hnm state := goal_andAll_upto h hbad hbind hnm [state]
  ends state hs := goal_andAll_ends h (by simpa using hs)
  acyclic _ state _ hs hrun := goal_andAll_acyclic h (by simpa using hs) hrun

end conjunction

theorem resolve_ends {s : Substitution} (hs : Acyclic s) (t : Term) : Ends .outOfFuel (fun n => resolve n t s) := by
  obtain ⟨n, t', ht'⟩ := hs t
  exact .of_ok ht'

theorem regular_label_test (test : String → String → Bool) (graph : DirectedGraph) (id_term value_term : Term) :
    Regular (label_test test graph id_term value_term) where
  upto bad hbad bind bind' hbind n m hnm state := by
    refine (substitute_upto hbad hnm value_term state.subst).bind fun text => ?_
    split
    · exact (regular_rows _).upto bad hbad bind bind' hbind n m hnm state
    · exact .refl _
  ends state hs := by
    refine .bind (substitute_grows value_term state.subst) (fun text => ?_) (resolve_ends hs value_term) fun _ text _ => ?_
    · split
      · exact (regular_rows _).grows state
      · exact .const _
    · split
      · exact (regular_rows _).ends state hs
      · exact .ok _
  acyclic n state states hs h := by
    obtain ⟨text, -, h⟩ := except_bind_eq_ok h
    split at h
    · exact (regular_rows _).acyclic n state states hs h
    · cases h; simp

theorem regular_reachable (graph : DirectedGraph) (source_term target_term : Term) :
    Regular (reachable graph source_term target_term) where
  upto bad hbad bind bind' hbind n m hnm state :=
    (enumerate_upto hbad hnm graph).bind fun _ => (regular_rows _).upto bad hbad bind bind' hbind n m hnm state
  ends state hs :=
    .bind (fun n m hnm => @enumerate_upto (· = .outOfFuel) n m rfl hnm graph) (fun _ => (regular_rows _).grows state)
      (enumerate_ends graph) fun _ _ _ => (regular_rows _).ends state hs
  acyclic n state states hs h := by
    obtain ⟨pairs, -, h⟩ := except_bind_eq_ok h
    exact (regular_rows _).acyclic n state states hs h

theorem regular_join_through (graph : DirectedGraph) (source_term middle_term target_term : Term) :
    Regular (join_through graph source_term middle_term target_term) :=
  regular_and (by simpa using ⟨regular_rows _, regular_rows _⟩)

/-! ## What goals mean -/

/-- The valuation solves some answer exactly if it solves the state and `P`
holds. -/
def Means (σ : Valuation) (goal : Goal) (P : Prop) : Prop :=
  ∀ bind, Binds bind → ∀ fuel state states, goal bind fuel state = .ok states →
    ((∃ s ∈ states, Solves σ s.subst) ↔ Solves σ state.subst ∧ P)

section means
variable {σ : Valuation}

theorem Means.congr {goal : Goal} {P Q : Prop} (h : Means σ goal P) (hPQ : P ↔ Q) : Means σ goal Q := by
  intro bind hbind fuel state states hrun
  rw [h bind hbind fuel state states hrun, hPQ]

/-- The answers that the states of a list lead to. -/
theorem Means.collect {goal : Goal} {P : Prop} (h : Means σ goal P) {bind : Binder} (hbind : Binds bind)
    {fuel : ℕ} {states answers : List GoalState} (hrun : collect (fun state => goal bind fuel state) states = .ok answers) :
    (∃ s ∈ answers, Solves σ s.subst) ↔ (∃ s ∈ states, Solves σ s.subst) ∧ P := by
  simp only [mem_collect hrun]
  constructor
  · rintro ⟨s, ⟨state, hstate, found, hfound, hs⟩, hσ⟩
    obtain ⟨hsolve, hP⟩ := (h bind hbind fuel state found hfound).1 ⟨s, hs, hσ⟩
    exact ⟨⟨state, hstate, hsolve⟩, hP⟩
  · rintro ⟨⟨state, hstate, hsolve⟩, hP⟩
    obtain ⟨found, hfound⟩ := collect_ok hrun state hstate
    obtain ⟨s, hs, hσ⟩ := (h bind hbind fuel state found hfound).2 ⟨hsolve, hP⟩
    exact ⟨s, ⟨state, hstate, found, hfound, hs⟩, hσ⟩

theorem means_rows (rows : List (List (Term × Term))) :
    Means σ (goal_rows rows) (∃ row ∈ rows, ∀ p ∈ row, Same (eval σ p.1) (eval σ p.2)) := by
  intro bind hbind fuel state states hrun
  have hanswers := fun row result (h : unifyAll (unifyWith bind fuel) row state.subst = .ok result) =>
    unifyAll_answers (fun l r s result => unifyWith_answers hbind σ) row state.subst h
  simp only [mem_collect hrun]
  constructor
  · rintro ⟨s, ⟨row, hrow, found, hfound, hs⟩, hσ⟩
    obtain ⟨result, hresult, hfound⟩ := except_bind_eq_ok hfound
    cases result with
    | none => cases hfound; cases hs
    | some next =>
      cases hfound
      obtain rfl := List.mem_singleton.1 hs
      have hiff := hanswers row _ hresult
      rw [Answers] at hiff
      exact ⟨(hiff.1 hσ).1, row, hrow, (hiff.1 hσ).2⟩
  · rintro ⟨hsolve, row, hrow, hall⟩
    obtain ⟨found, hfound⟩ := collect_ok hrun row hrow
    obtain ⟨result, hresult, hfound'⟩ := except_bind_eq_ok hfound
    have hiff := hanswers row _ hresult
    cases result with
    | none => exact absurd hall (hiff hsolve)
    | some next =>
      rw [Answers] at hiff
      cases hfound'
      exact ⟨_, ⟨row, hrow, _, hfound, List.mem_singleton_self _⟩, hiff.2 ⟨hsolve, hall⟩⟩

theorem means_or {goals : List Goal} {Ps : List Prop} (h : List.Forall₂ (Means σ) goals Ps) :
    Means σ (goal_or goals) (∃ P ∈ Ps, P) := by
  intro bind hbind fuel state states hrun
  simp only [mem_collect hrun]
  constructor
  · rintro ⟨s, ⟨goal, hgoal, found, hfound, hs⟩, hσ⟩
    obtain ⟨P, hP, hmeans⟩ := forall₂_mem_left h hgoal
    obtain ⟨hsolve, hPσ⟩ := (hmeans bind hbind fuel state found hfound).1 ⟨s, hs, hσ⟩
    exact ⟨hsolve, P, hP, hPσ⟩
  · rintro ⟨hsolve, P, hP, hPσ⟩
    obtain ⟨goal, hgoal, hmeans⟩ := forall₂_mem_right h hP
    obtain ⟨found, hfound⟩ := collect_ok hrun goal hgoal
    obtain ⟨s, hs, hσ⟩ := (hmeans bind hbind fuel state found hfound).2 ⟨hsolve, hPσ⟩
    exact ⟨s, ⟨goal, hgoal, found, hfound, hs⟩, hσ⟩

theorem means_and {goals : List Goal} {Ps : List Prop} (h : List.Forall₂ (Means σ) goals Ps) :
    Means σ (goal_and goals) (∀ P ∈ Ps, P) := by
  intro bind hbind fuel state states hrun
  have hall : ∀ before after, goal_andAll bind fuel goals before = .ok after →
      ((∃ s ∈ after, Solves σ s.subst) ↔ (∃ s ∈ before, Solves σ s.subst) ∧ ∀ P ∈ Ps, P) := by
    clear hrun
    induction h with
    | nil => intro before after hrun; cases hrun; simp
    | @cons goal P goals Ps hmeans _ ih =>
      intro before after hrun
      obtain ⟨next, hnext, hrun⟩ := except_bind_eq_ok hrun
      rw [ih next after hrun, hmeans.collect hbind hnext, List.forall_mem_cons, and_assoc]
  simpa using hall _ _ hrun

end means

end LainLang.Tracer
