import Mathlib.Data.Set.Sups
import LainLang.Tracer.Plans
import LainLang.Tracer.Trees
/-!
# Alternatives

A plan offers alternatives, sets of worlds, and a run of it takes those that its
state allows: each answer has the solutions of the state that are in one
alternative, and unless a label filter gives up each alternative with a solution
leads to an answer. A conjunction intersects the alternatives of its plans, in
whatever order.
-/
open LainLang.Lib LainLang.Js
open scoped SetFamily

namespace LainLang.Tracer

/-! ## What a plan offers -/

/-- How the two terms of an operator can be satisfied: by being equal, or by
being two terms of the graph. -/
inductive Choice where
  | same
  | pair (x y : Term)

section choices
variable (graph : DirectedGraph)

/-- A node and the value of its attribute. -/
def attrChoices (attr_name : String) (predicate : Option (Term → Attributes → Bool)) : Set Choice :=
  {c | ∃ id attrs, graph.nodes.get? id = some attrs ∧ predicate.all (· (get_attr attrs attr_name) attrs) = true ∧
    c = .pair (.str id) (get_attr attrs attr_name)}

/-- A node with a label, and a text that passes the test. -/
def labelChoices (test : String → String → Bool) : Set Choice :=
  {c | ∃ id attrs raw_label text, graph.nodes.get? id = some attrs ∧ get_attr attrs "label" = .str raw_label ∧
    test raw_label text = true ∧ c = .pair (.str id) (.str text)}

/-- The pairs of a list. -/
def pairChoices (pairs : List EdgeTuple) : Set Choice := {c | ∃ p ∈ pairs, c = .pair (.str p.1) (.str p.2)}

/-- The pairs that the search finds, with fuel enough. -/
def reachableChoices : Set Choice :=
  {c | ∃ fuel pairs, enumerate_reachable_pairs fuel graph = .ok pairs ∧ c ∈ pairChoices pairs}

/-- What a clause of the op may choose from. -/
def choices : String → Set Choice
  | "equal" => {.same}
  | "node" => {c | ∃ id attrs, graph.nodes.get? id = some attrs ∧ c = .pair (.str id) (.obj attrs)}
  | "edge" => pairChoices graph.edges
  | "kind" => attrChoices graph "kind" none
  | "namespace" => attrChoices graph "namespace" none
  | "level" => attrChoices graph "relationLevel" none
  | "label" => attrChoices graph "label" none
  | "value" => attrChoices graph "value" (some isDefined)
  | "content" => attrChoices graph "content" (some isDefined)
  | "label_prefix" => labelChoices graph startsWith
  | "label_contains" => labelChoices graph includes
  | "reachable" => reachableChoices graph
  | "downstream_of" => reachableChoices graph
  | "upstream_of" => reachableChoices (reverse_graph graph)
  | _ => ∅

end choices

/-- The worlds in which the choice satisfies two terms; `query` reads the terms
of a plan, `data` those of the graph. -/
def Choice.worlds {X : Type} (query data : X → Term → ValueTree) (a b : Term) : Choice → Set X
  | .same => {w | query w a = query w b}
  | .pair x y => {w | query w a = data w x ∧ query w b = data w y}

section alternatives
variable {X : Type} (graph : DirectedGraph) (query data : X → Term → ValueTree)

/-- The choices as sets of valuations. -/
def binaryAlternatives (op : String) (a b : Term) : Set (Set X) := Choice.worlds query data a b '' choices graph op

mutual

/-- The alternatives of a plan: one for each way to satisfy it. -/
def Plan.alternatives : Plan → Set (Set X)
  | .binary op a b => binaryAlternatives graph query data op a b
  | .join_through a b c => binaryAlternatives graph query data "edge" a b ⊼ binaryAlternatives graph query data "edge" b c
  | .and plans => allAlternatives plans
  | .or plans => anyAlternatives plans

/-- One alternative of each plan. -/
def allAlternatives : List Plan → Set (Set X)
  | [] => {Set.univ}
  | plan :: plans => plan.alternatives ⊼ allAlternatives plans

/-- An alternative of some plan. -/
def anyAlternatives : List Plan → Set (Set X)
  | [] => ∅
  | plan :: plans => plan.alternatives ∪ anyAlternatives plans

end

/-- The order of a conjunction does not matter to its alternatives. -/
theorem allAlternatives_perm {plans plans' : List Plan} (h : plans.Perm plans') :
    allAlternatives graph query data plans = allAlternatives graph query data plans' := by
  induction h with
  | nil => rfl
  | cons plan _ ih => rw [allAlternatives, allAlternatives, ih]
  | swap plan plan' plans =>
    simp only [allAlternatives]
    exact Set.infs_left_comm _ _ _
  | trans _ _ ih ih' => exact ih.trans ih'

end alternatives

/-! ## What a run takes of it -/

/-- The valuations a state still allows. -/
def solutions (s : GoalState) : Set TreeValuation := {σ | (trees σ).Solves s.subst}

theorem solutions_nonempty (s : GoalState) : (solutions s).Nonempty :=
  ⟨_, solves_treeSolution s.subst fun _ _ => none⟩

/-- Each answer has the solutions of the state that are in one alternative. -/
def Taken (A : Set (Set TreeValuation)) (S : Set TreeValuation) (answers : List GoalState) : Prop :=
  ∀ s ∈ answers, ∃ α ∈ A, solutions s = S ∩ α

/-- Each alternative with a solution of the state has an answer. -/
def Covered (A : Set (Set TreeValuation)) (S : Set TreeValuation) (answers : List GoalState) : Prop :=
  ∀ α ∈ A, (S ∩ α).Nonempty → ∃ s ∈ answers, solutions s = S ∩ α

section rows
variable {bind : Binder} (hbind : Binds bind) {fuel : ℕ} {state : GoalState} {states : List GoalState}
include hbind

/-- The valuations that make a row true. -/
def rowWorlds (row : List (Term × Term)) : Set TreeValuation := {σ | ∀ p ∈ row, tree σ p.1 = tree σ p.2}

omit hbind in
theorem solves_iff_of_answers {row : List (Term × Term)} {next : Substitution}
    (h : ∀ σ : TreeValuation, (trees σ).Answers state.subst (∀ p ∈ row, (trees σ).Equal p.1 p.2) (some next)) :
    solutions { subst := next, counter := state.counter } = solutions state ∩ rowWorlds row := Set.ext h

theorem rows_exact {rows : List (List (Term × Term))} (hrun : goal_rows rows bind fuel state = .ok states) :
    Taken (rowWorlds '' {row | row ∈ rows}) (solutions state) states ∧
      Covered (rowWorlds '' {row | row ∈ rows}) (solutions state) states := by
  have hanswers := fun (σ : TreeValuation) row result (h : unifyAll (unifyWith bind fuel) row state.subst = .ok result) =>
    @Reading.unifyAll _ (trees σ) _ (fun l r s result => Reading.unifyWith hbind) row state.subst _ h
  constructor
  · -- An answer comes from a row that unified.
    intro s hs
    obtain ⟨row, hrow, found, hfound, hs⟩ := (mem_collect hrun s).1 hs
    obtain ⟨result, hresult, hfound⟩ := except_bind_eq_ok hfound
    cases result with
    | none => cases hfound; cases hs
    | some next =>
      cases hfound
      obtain rfl := List.mem_singleton.1 hs
      exact ⟨_, ⟨row, hrow, rfl⟩, solves_iff_of_answers fun σ => hanswers σ row _ hresult⟩
  · -- A row with a solution unifies.
    rintro _ ⟨row, hrow, rfl⟩ ⟨σ, hσ, hworld⟩
    obtain ⟨found, hfound⟩ := collect_ok hrun row hrow
    obtain ⟨result, hresult, hfound'⟩ := except_bind_eq_ok hfound
    cases result with
    | none => exact absurd hworld (hanswers σ row _ hresult hσ)
    | some next =>
      cases hfound'
      exact ⟨_, (mem_collect hrun _).2 ⟨row, hrow, _, hfound, List.mem_singleton_self _⟩,
        solves_iff_of_answers fun σ => hanswers σ row _ hresult⟩

/-- The equations of a choice. -/
def Choice.row (a b : Term) : Choice → List (Term × Term)
  | .same => [(a, b)]
  | .pair x y => [(a, x), (b, y)]

omit hbind in
theorem rowWorlds_row (a b : Term) (c : Choice) : rowWorlds (c.row a b) = c.worlds tree tree a b := by
  cases c <;> simp [rowWorlds, Choice.row, Choice.worlds]

/-- One row for each choice. -/
theorem choices_exact {C : Set Choice} {rows : List (List (Term × Term))} {a b : Term}
    (hrows : ∀ row, row ∈ rows ↔ ∃ c ∈ C, c.row a b = row) (hrun : goal_rows rows bind fuel state = .ok states) :
    Taken (Choice.worlds tree tree a b '' C) (solutions state) states ∧
      Covered (Choice.worlds tree tree a b '' C) (solutions state) states := by
  have hsame : rowWorlds '' {row | row ∈ rows} = Choice.worlds tree tree a b '' C := by
    have hset : {row | row ∈ rows} = Choice.row a b '' C := Set.ext hrows
    rw [hset, Set.image_image]
    exact Set.image_congr fun c _ => rowWorlds_row a b c
  rw [← hsame]
  exact rows_exact hbind hrun

theorem pairRows_exact {pairs : List EdgeTuple} {a b : Term}
    (hrun : goal_rows (pairRows a b pairs) bind fuel state = .ok states) :
    Taken (Choice.worlds tree tree a b '' pairChoices pairs) (solutions state) states ∧
      Covered (Choice.worlds tree tree a b '' pairChoices pairs) (solutions state) states := by
  refine choices_exact hbind (fun row => ?_) hrun
  simp only [pairRows, List.mem_map, pairChoices, Set.mem_ofPred_eq]
  constructor
  · rintro ⟨p, hp, rfl⟩
    exact ⟨_, ⟨p, hp, rfl⟩, rfl⟩
  · rintro ⟨_, ⟨p, hp, rfl⟩, rfl⟩
    exact ⟨p, hp, rfl⟩

theorem reachable_exact {graph : DirectedGraph} {a b : Term} (hrun : reachable graph a b bind fuel state = .ok states) :
    Taken (Choice.worlds tree tree a b '' reachableChoices graph) (solutions state) states ∧
      Covered (Choice.worlds tree tree a b '' reachableChoices graph) (solutions state) states := by
  obtain ⟨pairs, hpairs, hrun⟩ := except_bind_eq_ok hrun
  -- The search lists the same pairs with any fuel it ends with.
  have hgrows : Grows .outOfFuel (fun n => enumerate_reachable_pairs n graph) := fun n m hnm =>
    @enumerate_upto (· = .outOfFuel) n m rfl hnm graph
  have hsame : reachableChoices graph = pairChoices pairs := by
    ext c
    constructor
    · rintro ⟨n, pairs', hpairs', hc⟩
      exact hgrows.ok_unique hpairs hpairs' ▸ hc
    · exact fun hc => ⟨fuel, pairs, hpairs, hc⟩
  rw [hsame]
  exact pairRows_exact hbind hrun

theorem node_fact_exact {graph : DirectedGraph} {a b : Term} (hrun : node_fact graph a b bind fuel state = .ok states) :
    Taken (binaryAlternatives graph tree tree "node" a b) (solutions state) states ∧
      Covered (binaryAlternatives graph tree tree "node" a b) (solutions state) states := by
  refine choices_exact hbind (fun row => ?_) hrun
  simp only [List.mem_map, Prod.exists, OrdMap.mem_entries_iff, choices, Set.mem_ofPred_eq]
  constructor
  · rintro ⟨id, attrs, hid, rfl⟩
    exact ⟨_, ⟨id, attrs, hid, rfl⟩, rfl⟩
  · rintro ⟨_, ⟨id, attrs, hid, rfl⟩, rfl⟩
    exact ⟨id, attrs, hid, rfl⟩

theorem attr_fact_exact {graph : DirectedGraph} {attr_name : String} {predicate : Option (Term → Attributes → Bool)} {a b : Term}
    (hrun : attr_fact graph attr_name a b predicate bind fuel state = .ok states) :
    Taken (Choice.worlds tree tree a b '' attrChoices graph attr_name predicate) (solutions state) states ∧
      Covered (Choice.worlds tree tree a b '' attrChoices graph attr_name predicate) (solutions state) states := by
  refine choices_exact hbind (fun row => ?_) hrun
  simp only [List.mem_map, List.mem_filter, Prod.exists, OrdMap.mem_entries_iff, attrChoices, Set.mem_ofPred_eq]
  constructor
  · rintro ⟨id, attrs, ⟨hid, hpredicate⟩, rfl⟩
    exact ⟨_, ⟨id, attrs, hid, hpredicate, rfl⟩, rfl⟩
  · rintro ⟨_, ⟨id, attrs, hid, hpredicate, rfl⟩, rfl⟩
    exact ⟨id, attrs, ⟨hid, hpredicate⟩, rfl⟩

omit hbind in
/-- What a term with the tree of a string resolves to, if not to a variable. -/
theorem substitute_str {n : ℕ} {s : Substitution} {t value : Term} {text : String} (h : substitute n t s = .ok value)
    (hbound : ¬ Unbound s t) {σ : TreeValuation} (hσ : (trees σ).Solves s) (htext : tree σ t = tree σ (.str text)) :
    value = .str text := by
  cases n with
  | zero => cases h
  | succ n =>
    rw [substitute] at h
    obtain ⟨a, ha, h⟩ := except_bind_eq_ok h
    have hroot : is_logic_var a = none := by
      by_contra hne
      obtain ⟨v, hv⟩ := Option.ne_none_iff_exists'.1 hne
      exact hbound ⟨n, a, v, ha, hv⟩
    have hsame : tree σ a = tree σ (.str text) := (Reading.resolve_var hσ ha).symm.trans htext
    have houtline := ((tree_eq_iff hroot rfl).1 hsame).1
    cases a with
    | atom x =>
      cases houtline
      cases h
      rfl
    | _ => cases houtline

/-- Unless its second term is an unbound variable, a label filter takes what is
offered. -/
theorem label_test_exact {graph : DirectedGraph} {test : String → String → Bool} {a b : Term}
    (hrun : label_test test graph a b bind fuel state = .ok states) :
    Taken (Choice.worlds tree tree a b '' labelChoices graph test) (solutions state) states ∧
      (¬ Unbound state.subst b → Covered (Choice.worlds tree tree a b '' labelChoices graph test) (solutions state) states) := by
  obtain ⟨value, hvalue, hrun⟩ := except_bind_eq_ok hrun
  have hread : ∀ σ ∈ solutions state, NoVars value → tree σ b = tree σ value := fun σ hσ => substitute_tree hσ hvalue
  split at hrun
  · -- The value is a string: one row for each label that passes.
    rename_i text
    have hexact := rows_exact hbind hrun
    have hworld : ∀ id, solutions state ∩ rowWorlds [(a, .str id)] =
        solutions state ∩ Choice.worlds tree tree a b (.pair (.str id) (.str text)) := by
      intro id
      ext σ
      simp only [Set.mem_inter_iff, rowWorlds, Choice.worlds, Set.mem_ofPred_eq, List.mem_singleton, forall_eq]
      exact and_congr_right fun hσ => (and_iff_left (hread σ hσ (.atom _))).symm
    refine ⟨fun s hs => ?_, fun _ => ?_⟩
    · obtain ⟨_, ⟨row, hrow, rfl⟩, hsame⟩ := hexact.1 s hs
      obtain ⟨id, attrs, raw_label, hid, hlabel, htest, rfl⟩ := mem_labelRows.1 hrow
      exact ⟨_, ⟨_, ⟨id, attrs, raw_label, text, hid, hlabel, htest, rfl⟩, rfl⟩, hsame.trans (hworld id)⟩
    · rintro _ ⟨_, ⟨id, attrs, raw_label, text', hid, hlabel, htest, rfl⟩, rfl⟩ ⟨σ, hσ, hworldσ⟩
      have htext : tree σ (.str text) = tree σ (.str text') := (hread σ hσ (.atom _)).symm.trans hworldσ.2
      obtain rfl : text = text' := by
        have := ((tree_eq_iff rfl rfl).1 htext).1
        simpa [outline, Term.str] using this
      rw [← hworld id]
      refine hexact.2 _ ⟨_, mem_labelRows.2 ⟨id, attrs, raw_label, hid, hlabel, htest, rfl⟩, rfl⟩ ⟨σ, ?_⟩
      rw [hworld id]
      exact ⟨hσ, hworldσ⟩
  · -- Any other value: no rows, and nothing offered has a solution here.
    rename_i hnot
    cases hrun
    refine ⟨fun s hs => absurd hs (by simp), fun hbound => ?_⟩
    rintro _ ⟨_, ⟨id, attrs, raw_label, text, hid, hlabel, htest, rfl⟩, rfl⟩ ⟨σ, hσ, hworldσ⟩
    exact absurd (substitute_str hvalue hbound hσ hworldσ.2) (hnot text)

end rows

/-! ## One goal after the other -/

/-- `Taken` from the states of a list. -/
def TakenFrom (A : Set (Set TreeValuation)) (before after : List GoalState) : Prop :=
  ∀ s' ∈ after, ∃ s ∈ before, ∃ α ∈ A, solutions s' = solutions s ∩ α

/-- Every combination that can be satisfied is among the states after. -/
def CoveredFrom (A : Set (Set TreeValuation)) (before after : List GoalState) : Prop :=
  ∀ s ∈ before, ∀ α ∈ A, (solutions s ∩ α).Nonempty → ∃ s' ∈ after, solutions s' = solutions s ∩ α

section sequence
variable {A B : Set (Set TreeValuation)} {before next after : List GoalState}

theorem TakenFrom.trans (h : TakenFrom A before next) (h' : TakenFrom B next after) : TakenFrom (A ⊼ B) before after := by
  intro s'' hs''
  obtain ⟨s', hs', β, hβ, hsame'⟩ := h' s'' hs''
  obtain ⟨s, hs, α, hα, hsame⟩ := h s' hs'
  refine ⟨s, hs, α ∩ β, Set.inf_mem_infs hα hβ, ?_⟩
  rw [hsame', hsame, Set.inter_assoc]

theorem CoveredFrom.trans (h : CoveredFrom A before next) (h' : CoveredFrom B next after) :
    CoveredFrom (A ⊼ B) before after := by
  rintro s hs _ ⟨α, hα, β, hβ, rfl⟩ hnonempty
  have hassoc : solutions s ∩ (α ⊓ β) = solutions s ∩ α ∩ β := (Set.inter_assoc _ _ _).symm
  rw [hassoc] at hnonempty ⊢
  obtain ⟨s', hs', hsame⟩ := h s hs α hα (hnonempty.mono Set.inter_subset_left)
  rw [← hsame] at hnonempty ⊢
  exact h' s' hs' β hβ hnonempty

theorem takenFrom_nil (states : List GoalState) : TakenFrom {Set.univ} states states :=
  fun s hs => ⟨s, hs, Set.univ, rfl, (Set.inter_univ _).symm⟩

theorem coveredFrom_nil (states : List GoalState) : CoveredFrom {Set.univ} states states := by
  rintro s hs _ rfl -
  exact ⟨s, hs, (Set.inter_univ _).symm⟩

variable {goal : GoalState → Run (List GoalState)} (hrun : collect goal before = .ok after)
include hrun

theorem collect_taken (h : ∀ s ∈ before, ∀ found, goal s = .ok found → Taken A (solutions s) found) :
    TakenFrom A before after := by
  intro s' hs'
  obtain ⟨s, hs, found, hfound, hs'⟩ := (mem_collect hrun s').1 hs'
  obtain ⟨α, hα, hsame⟩ := h s hs found hfound s' hs'
  exact ⟨s, hs, α, hα, hsame⟩

theorem collect_covered (h : ∀ s ∈ before, ∀ found, goal s = .ok found → Covered A (solutions s) found) :
    CoveredFrom A before after := by
  intro s hs α hα hnonempty
  obtain ⟨found, hfound⟩ := collect_ok hrun s hs
  obtain ⟨s', hs', hsame⟩ := h s hs found hfound α hα hnonempty
  exact ⟨s', (mem_collect hrun s').2 ⟨s, hs, found, hfound, hs'⟩, hsame⟩

end sequence

/-! ## Runs of plans -/

theorem choices_of_none {graph : DirectedGraph} {op : String} (h : binary_goal graph op = none) : choices graph op = ∅ := by
  unfold choices
  split <;> first | rfl | cases h

section plans
variable {graph : DirectedGraph} {bind : Binder} (hbind : Binds bind) {fuel : ℕ}
include hbind

theorem binary_exact {op : String} {a b : Term} {state : GoalState} {states : List GoalState}
    (hrun : (Plan.binary op a b).goal graph bind fuel state = .ok states) :
    Taken (binaryAlternatives graph tree tree op a b) (solutions state) states ∧
      (¬ (needsText op ∧ Unbound state.subst b) →
        Covered (binaryAlternatives graph tree tree op a b) (solutions state) states) := by
  rw [Plan.goal] at hrun
  cases hgoal : binary_goal graph op with
  | none =>
    rw [hgoal] at hrun
    cases hrun
    refine ⟨fun s hs => absurd hs (by simp), fun _ α hα => ?_⟩
    rw [binaryAlternatives, choices_of_none hgoal, Set.image_empty] at hα
    exact hα.elim
  | some g =>
    obtain ⟨first, second, goal⟩ := g
    simp only [hgoal] at hrun
    unfold binary_goal at hgoal
    split at hgoal <;> cases hgoal
    case h_1 =>
      have hexact := @choices_exact bind hbind fuel state states {.same} [[(a, b)]] a b (by simp [Choice.row, eq_comm]) hrun
      exact ⟨hexact.1, fun _ => hexact.2⟩
    case h_2 => exact ⟨(node_fact_exact hbind hrun).1, fun _ => (node_fact_exact hbind hrun).2⟩
    case h_3 => exact ⟨(pairRows_exact hbind hrun).1, fun _ => (pairRows_exact hbind hrun).2⟩
    case h_4 | h_5 | h_6 | h_7 | h_8 | h_9 => exact ⟨(attr_fact_exact hbind hrun).1, fun _ => (attr_fact_exact hbind hrun).2⟩
    case h_10 =>
      exact ⟨(label_test_exact hbind hrun).1, fun h => (label_test_exact hbind hrun).2 fun hb => h ⟨.inl rfl, hb⟩⟩
    case h_11 =>
      exact ⟨(label_test_exact hbind hrun).1, fun h => (label_test_exact hbind hrun).2 fun hb => h ⟨.inr rfl, hb⟩⟩
    case h_12 | h_13 | h_14 => exact ⟨(reachable_exact hbind hrun).1, fun _ => (reachable_exact hbind hrun).2⟩

/-- Two edge facts, one after the other. -/
theorem join_through_exact {a b c : Term} {state : GoalState} {states : List GoalState}
    (hrun : join_through graph a b c bind fuel state = .ok states) :
    Taken ((Plan.join_through a b c).alternatives graph tree tree) (solutions state) states ∧
      Covered ((Plan.join_through a b c).alternatives graph tree tree) (solutions state) states := by
  obtain ⟨next, hfirst, hrun⟩ := except_bind_eq_ok hrun
  obtain ⟨after, hsecond, hrun⟩ := except_bind_eq_ok hrun
  cases hrun
  have htaken := (collect_taken hfirst fun s _ found hfound => (pairRows_exact hbind hfound).1).trans
    (collect_taken hsecond fun s _ found hfound => (pairRows_exact hbind hfound).1)
  have hcovered := (collect_covered hfirst fun s _ found hfound => (pairRows_exact hbind hfound).2).trans
    (collect_covered hsecond fun s _ found hfound => (pairRows_exact hbind hfound).2)
  refine ⟨fun s' hs' => ?_, fun α hα => hcovered state (List.mem_singleton_self _) α hα⟩
  obtain ⟨s, hs, hrest⟩ := htaken s' hs'
  rwa [List.mem_singleton.1 hs] at hrest

end plans

mutual

/-- A run of a plan takes what it offers, all of it unless a label filter gives up. -/
theorem plan_exact {graph : DirectedGraph} {bind : Binder} (hbind : Binds bind) {fuel : ℕ} :
    ∀ (plan : Plan) {state : GoalState} {states : List GoalState}, plan.goal graph bind fuel state = .ok states → Taken (plan.alternatives graph tree tree) (solutions state) states ∧
      (¬ plan.Asks graph bind fuel state → Covered (plan.alternatives graph tree tree) (solutions state) states)
  | .binary op a b, _, _, hrun => binary_exact hbind hrun
  | .join_through a b c, _, _, hrun => ⟨(join_through_exact hbind hrun).1, fun _ => (join_through_exact hbind hrun).2⟩
  | .and plans, state, states, hrun => by
    obtain ⟨htaken, hcovered⟩ := all_exact hbind plans hrun
    refine ⟨fun s' hs' => ?_, fun hasks => hcovered hasks state (List.mem_singleton_self _)⟩
    obtain ⟨s, hs, hrest⟩ := htaken s' hs'
    rwa [List.mem_singleton.1 hs] at hrest
  | .or plans, _, _, hrun => any_exact hbind plans hrun

theorem all_exact {graph : DirectedGraph} {bind : Binder} (hbind : Binds bind) {fuel : ℕ} :
    ∀ (plans : List Plan) {before after : List GoalState}, goal_andAll bind fuel (planGoals graph plans) before = .ok after →
      TakenFrom (allAlternatives graph tree tree plans) before after ∧
        (¬ AllAsk graph bind fuel plans before → CoveredFrom (allAlternatives graph tree tree plans) before after)
  | [], before, _, hrun => by
    cases hrun
    exact ⟨takenFrom_nil before, fun _ => coveredFrom_nil before⟩
  | plan :: plans, before, after, hrun => by
    obtain ⟨next, hnext, hrun⟩ := except_bind_eq_ok hrun
    obtain ⟨htaken, hcovered⟩ := all_exact hbind plans hrun
    refine ⟨(collect_taken hnext fun s _ found hfound => (plan_exact hbind plan hfound).1).trans htaken, fun hasks => ?_⟩
    rw [AllAsk, not_or, not_exists] at hasks
    have hfirst : CoveredFrom (plan.alternatives graph tree tree) before next :=
      collect_covered hnext fun s hs found hfound => (plan_exact hbind plan hfound).2 fun h => hasks.1 s ⟨hs, h⟩
    exact hfirst.trans (hcovered fun h => hasks.2 ⟨next, hnext, h⟩)

theorem any_exact {graph : DirectedGraph} {bind : Binder} (hbind : Binds bind) {fuel : ℕ} :
    ∀ (plans : List Plan) {state : GoalState} {states : List GoalState},
    collect (fun goal => goal bind fuel state) (planGoals graph plans) = .ok states →
      Taken (anyAlternatives graph tree tree plans) (solutions state) states ∧
        (¬ AnyAsks graph bind fuel plans state → Covered (anyAlternatives graph tree tree plans) (solutions state) states)
  | [], _, _, hrun => by
    cases hrun
    exact ⟨fun s hs => absurd hs (by simp), fun _ α hα => hα.elim⟩
  | plan :: plans, state, states, hrun => by
    obtain ⟨first, rest, hfirst, hrest, rfl⟩ := collect_cons hrun
    obtain ⟨htaken, hcovered⟩ := plan_exact hbind plan hfirst
    obtain ⟨htaken', hcovered'⟩ := any_exact hbind plans hrest
    refine ⟨fun s hs => ?_, fun hasks α hα hnonempty => ?_⟩
    · rcases List.mem_append.1 hs with hs | hs
      · obtain ⟨α, hα, hsame⟩ := htaken s hs
        exact ⟨α, .inl hα, hsame⟩
      · obtain ⟨α, hα, hsame⟩ := htaken' s hs
        exact ⟨α, .inr hα, hsame⟩
    · rw [AnyAsks, not_or] at hasks
      rcases hα with hα | hα
      · obtain ⟨s, hs, hsame⟩ := hcovered hasks.1 α hα hnonempty
        exact ⟨s, List.mem_append_left _ hs, hsame⟩
      · obtain ⟨s, hs, hsame⟩ := hcovered' hasks.2 α hα hnonempty
        exact ⟨s, List.mem_append_right _ hs, hsame⟩

end

end LainLang.Tracer
