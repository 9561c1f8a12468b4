import LainLang.Datalog.Negation
/-!
# Live evaluation

`run_program` evaluates the program whenever it runs and merges the result into
the derived cell, which never loses a fact. Without `NegFact` what was derived
before is derived again, so the cell holds the facts of the last evaluation;
with `NegFact` it holds those of all of them.
-/
open LainLang.Lib

namespace LainLang.Datalog

/-- The facts a cell holds. -/
structure FactSet where
  facts : List Fact

/-- `make_fact_set(facts)`. -/
def make_fact_set (facts : List Fact) : FactSet := { facts := facts }

section
variable (P : Pmatcher)

/-- Some fact unifies with the target. -/
def facts_contains (facts : List Fact) (target : Fact) : Bool :=
  facts.any fun f =>
    match P.unify f.terms target.terms with
    | .fail => false
    | .dict _ => true
    | .undefined => true

/-- The facts of the first, then those of the second it does not contain. -/
def merge_fact_sets (a b : FactSet) : FactSet :=
  make_fact_set (a.facts ++ b.facts.filter fun f => !facts_contains P a.facts f)

/-- A cell's content after an update; the first one is taken as it is. -/
def update_cell (content : Option FactSet) (increment : FactSet) : Option FactSet :=
  match content with
  | none => some increment
  | some old => some (merge_fact_sets P old increment)

end

/-- The cells by their ids, and the derived one. -/
structure Network where
  cells : ℕ → Option FactSet
  output : Option FactSet

/-- No cell has a value yet. -/
def Network.initial : Network := { cells := fun _ => none, output := none }

/-- The facts of a cell; none when it holds nothing. -/
def contentFacts (content : Option FactSet) : List Fact :=
  match content with
  | none => []
  | some set => set.facts

/-- The facts in the EDB cells. -/
def Network.edb (edb_cells : List ℕ) (s : Network) : List Fact := edb_cells.flatMap fun c => contentFacts (s.cells c)

/-- A cell gets an increment, or the scheduler runs the propagator. -/
inductive Event where
  | update (cell : ℕ) (increment : FactSet)
  | execute

/-- What the events lead to, with the results of the evaluations on the way. -/
inductive Runs (P : Pmatcher) (engines : MiniDatalog) (prog : LogicProgram) (edb_cells : List ℕ) :
    List Event → Network → List (List Fact) → Prop where
  | init : Runs P engines prog edb_cells [] .initial []
  | update {events s batches} (cell : ℕ) (increment : FactSet) : Runs P engines prog edb_cells events s batches →
      Runs P engines prog edb_cells (events ++ [.update cell increment])
        { s with cells := fun c => if c = cell then update_cell P (s.cells c) increment else s.cells c } batches
  | execute {events s batches} {fuel : ℕ} {derived : List Fact} : Runs P engines prog edb_cells events s batches →
      evaluate_program P engines fuel prog (s.edb edb_cells) = some derived →
      Runs P engines prog edb_cells (events ++ [.execute])
        { s with output := update_cell P s.output (make_fact_set derived) } (batches ++ [derived])

/-! ## Merging -/

/-- Unification of facts succeeds exactly on equal facts. -/
def Pmatcher.UnifiesEqual (P : Pmatcher) : Prop := ∀ f g : Fact, P.unify f.terms g.terms ≠ .fail ↔ f = g

theorem Pmatcher.FirstOrder.unifiesEqual {P : Pmatcher} (hP : P.FirstOrder) : P.UnifiesEqual := by
  intro f g
  have hanswer := hP.unify_internal_atoms f.terms g.terms P.empty_dict
  unfold Pmatcher.unify
  cases hu : P.unify_internal_atoms f.terms g.terms P.empty_dict with
  | undefined => rw [hu] at hanswer; exact hanswer.elim
  | fail =>
    rw [hu] at hanswer
    have hne := hanswer _ (hP.solves_empty fun _ => "")
    simp only [Fact.eval_terms] at hne
    simpa using hne
  | dict d =>
    rw [hu] at hanswer
    have heq := ((hanswer _).1 (hP.solves_eval d fun _ => "")).2
    simp only [Fact.eval_terms] at heq
    simpa using heq

theorem facts_contains_of_unifies {P : Pmatcher} (hP : P.UnifiesEqual) {facts : List Fact} {target : Fact} :
    facts_contains P facts target = true ↔ target ∈ facts := by
  simp only [facts_contains, List.any_eq_true]
  constructor
  · rintro ⟨f, hf, h⟩
    have hne : P.unify f.terms target.terms ≠ .fail := fun hfail => by simp [hfail] at h
    rwa [← (hP f target).1 hne]
  · intro h
    refine ⟨target, h, ?_⟩
    have hne := (hP target target).2 rfl
    cases hu : P.unify target.terms target.terms with
    | fail => exact absurd hu hne
    | _ => rfl

section
variable {P : Pmatcher} (hP : P.FirstOrder)
include hP

theorem facts_contains_iff {facts : List Fact} {target : Fact} : facts_contains P facts target = true ↔ target ∈ facts :=
  facts_contains_of_unifies hP.unifiesEqual

theorem mem_update_cell {content : Option FactSet} {increment : FactSet} {f : Fact} :
    f ∈ contentFacts (update_cell P content increment) ↔ f ∈ contentFacts content ∨ f ∈ increment.facts := by
  cases content with
  | none => simp [update_cell, contentFacts]
  | some old =>
    have hnew : (!facts_contains P old.facts f) = true ↔ f ∉ old.facts := by
      rw [Bool.not_eq_true', ← Bool.not_eq_true, facts_contains_iff hP]
    simp only [update_cell, contentFacts, merge_fact_sets, make_fact_set, List.mem_append, List.mem_filter, hnew]
    tauto

end

/-! ## Evaluation is monotone without `NegFact` -/

/-- The least list, up to order and repetition, that contains the facts given
and what the rules derive from it. -/
def LeastClosed (P : Pmatcher) (rules : List ExtendedRule) (edb facts : List Fact) : Prop :=
  edb ⊆ facts ∧ (∀ r ∈ rules, derive P r facts ⊆ facts) ∧
    ∀ db, edb ⊆ db → (∀ r ∈ rules, derive P r db ⊆ db) → facts ⊆ db

/-- MiniDatalog's engines compute the least fixpoint of the rules they run. -/
def MiniDatalog.Correct (engines : MiniDatalog) (P : Pmatcher) : Prop :=
  ∀ rules edb, has_extended_atoms rules = false →
    LeastClosed P rules edb (engines.semi_naive_datalog rules edb) ∧ LeastClosed P rules edb (engines.naive_datalog rules edb)

/-- No rule uses `NegFact`. -/
def NegFree (prog : LogicProgram) : Prop := ∀ r ∈ prog.rules, bodyNegated r.body = []

theorem Passes.mono {P : Pmatcher} {facts facts' : List Fact} (hsub : facts ⊆ facts') {d d' : P.Dict} {a : BodyAtom}
    (ha : ∀ template, a ≠ .neg_fact template) (h : Passes P facts d d' a) : Passes P facts' d d' a := by
  cases a with
  | neg_fact template => exact absurd rfl (ha template)
  | atom a =>
    by_cases heq : is_eq a = true
    · simpa only [Passes, if_pos heq] using h
    · by_cases hneq : is_neq a = true
      · simpa only [Passes, if_neg heq, if_pos hneq] using h
      · simp only [Passes, if_neg heq, if_neg hneq] at h ⊢
        obtain ⟨fact, hfact, hdict⟩ := h
        exact ⟨fact, hsub hfact, hdict⟩
  | _ => exact h

theorem derive_mono (P : Pmatcher) {r : ExtendedRule} (hr : bodyNegated r.body = []) {facts facts' : List Fact}
    (hsub : facts ⊆ facts') : derive P r facts ⊆ derive P r facts' := by
  have hpath : ∀ (path : List BodyAtom), (∀ a ∈ path, a.Flat) → (∀ a ∈ path, ∀ template, a ≠ .neg_fact template) →
      ∀ d f, f ∈ resolve_extended P r.head path facts d → f ∈ resolve_extended P r.head path facts' d := by
    intro path
    induction path with
    | nil =>
      intro _ _ d f h
      rw [mem_resolve_nil] at h ⊢
      exact h
    | cons a path ih =>
      intro hflat hneg d f h
      rw [List.forall_mem_cons] at hflat hneg
      rw [mem_resolve_flat hflat.1] at h ⊢
      obtain ⟨d', hpass, hf⟩ := h
      exact ⟨d', hpass.mono hsub hneg.1, ih hflat.2 hneg.2 d' f hf⟩
  intro f hf
  rw [derive, mem_resolve_paths] at hf ⊢
  obtain ⟨path, hmem, hf⟩ := hf
  refine ⟨path, hmem, hpath path (bodyPaths_flat hmem) (fun a ha template hneg => ?_) _ f hf⟩
  have := negated_of_path hmem (hneg ▸ ha)
  rw [hr] at this
  cases this

theorem LeastClosed.mono {P : Pmatcher} {rules : List ExtendedRule} {edb edb' facts facts' : List Fact}
    (h : LeastClosed P rules edb facts) (h' : LeastClosed P rules edb' facts') (hsub : edb ⊆ edb') : facts ⊆ facts' :=
  h.2.2 facts' (List.Subset.trans hsub h'.1) h'.2.1

theorem naive_leastClosed {P : Pmatcher} {rules : List ExtendedRule} (hneg : ∀ r ∈ rules, bodyNegated r.body = []) {fuel : ℕ}
    {edb facts : List Fact} (h : evaluate_extended_naive P rules fuel edb = some facts) : LeastClosed P rules edb facts := by
  rw [evaluate_extended_naive_eq] at h
  obtain ⟨hsub, hclosed⟩ := saturate_closed h
  refine ⟨hsub, hclosed, fun db hedb hdb => ?_⟩
  have hkept : Kept (derive P) rules [] (· ∈ db) := fun r hr part _ hpart f hf => hdb r hr (derive_mono P (hneg r hr) hpart hf)
  exact saturate_sound hkept (List.nil_subset _) hedb h

theorem evaluate_leastClosed {P : Pmatcher} {engines : MiniDatalog} (hE : engines.Correct P) {prog : LogicProgram}
    (hneg : NegFree prog) {fuel : ℕ} {edb facts : List Fact} (h : evaluate_program P engines fuel prog edb = some facts) :
    LeastClosed P prog.rules edb facts := by
  unfold evaluate_program at h
  by_cases hsemi : prog.strategy = .semi_naive ∧ has_extended_atoms prog.rules = false
  · rw [if_pos hsemi] at h
    cases h
    exact (hE prog.rules edb hsemi.2).1
  · rw [if_neg hsemi] at h
    by_cases hnaive : prog.strategy = .naive ∧ has_extended_atoms prog.rules = false
    · rw [if_pos hnaive] at h
      cases h
      exact (hE prog.rules edb hnaive.2).2
    · rw [if_neg hnaive] at h
      exact naive_leastClosed hneg h

/-- Whatever the strategy, the facts are the least model of safe positive rules. -/
theorem evaluate_program_model {P : Pmatcher} (hP : P.FirstOrder) {engines : MiniDatalog} (hE : engines.Correct P)
    {prog : LogicProgram} (hsafe : ∀ r ∈ prog.rules, r.Safe) (hneg : NegFree prog) {fuel : ℕ} {edb facts : List Fact}
    (h : evaluate_program P engines fuel prog edb = some facts) (f : Fact) :
    f ∈ facts ↔ f ∈ least_model ∅ prog.rules {f | f ∈ edb} := by
  obtain ⟨naiveFuel, naive, hnaive⟩ := evaluate_ends hP prog.rules edb
  have hclosed := evaluate_leastClosed hE hneg h
  have hnaiveClosed := naive_leastClosed hneg hnaive
  rw [← evaluate_positive hP hsafe hneg hnaive]
  exact ⟨fun hf => hclosed.mono hnaiveClosed (List.Subset.refl _) hf,
    fun hf => hnaiveClosed.mono hclosed (List.Subset.refl _) hf⟩

theorem evaluate_unique {P : Pmatcher} {engines : MiniDatalog} {prog : LogicProgram} {fuel fuel' : ℕ}
    {edb facts facts' : List Fact} (h : evaluate_program P engines fuel prog edb = some facts)
    (h' : evaluate_program P engines fuel' prog edb = some facts') : facts = facts' := by
  unfold evaluate_program at h h'
  split at h
  · rename_i hsemi
    rw [if_pos hsemi] at h'
    exact Option.some.inj (h.symm.trans h')
  · rename_i hsemi
    rw [if_neg hsemi] at h'
    split at h
    · rename_i hnaive
      rw [if_pos hnaive] at h'
      exact Option.some.inj (h.symm.trans h')
    · rename_i hnaive
      rw [if_neg hnaive] at h'
      rw [evaluate_extended_naive_eq] at h h'
      exact saturate_unique h h'

/-! ## Runs -/

section
variable {P : Pmatcher} (hP : P.FirstOrder) {engines : MiniDatalog} {prog : LogicProgram} {edb_cells : List ℕ}
include hP

theorem evaluate_program_ends (engines : MiniDatalog) (prog : LogicProgram) (edb : List Fact) :
    ∃ fuel facts, evaluate_program P engines fuel prog edb = some facts := by
  obtain ⟨fuel, facts, h⟩ := evaluate_ends hP prog.rules edb
  unfold evaluate_program
  by_cases hsemi : prog.strategy = .semi_naive ∧ has_extended_atoms prog.rules = false
  · exact ⟨0, _, if_pos hsemi⟩
  · by_cases hnaive : prog.strategy = .naive ∧ has_extended_atoms prog.rules = false
    · exact ⟨0, _, by rw [if_neg hsemi, if_pos hnaive]⟩
    · exact ⟨fuel, facts, by rw [if_neg hsemi, if_neg hnaive, h]⟩

theorem runs_exists (engines : MiniDatalog) (prog : LogicProgram) (edb_cells : List ℕ) (events : List Event) :
    ∃ s batches, Runs P engines prog edb_cells events s batches := by
  induction events using List.reverseRecOn with
  | nil => exact ⟨_, _, .init⟩
  | append_singleton events event ih =>
    obtain ⟨s, batches, h⟩ := ih
    cases event with
    | update cell increment => exact ⟨_, _, .update cell increment h⟩
    | execute =>
      obtain ⟨fuel, derived, hderived⟩ := evaluate_program_ends hP engines prog (s.edb edb_cells)
      exact ⟨_, _, .execute h hderived⟩

theorem edb_grows (s : Network) (cell : ℕ) (increment : FactSet) : s.edb edb_cells ⊆
    Network.edb edb_cells { s with cells := fun c => if c = cell then update_cell P (s.cells c) increment else s.cells c } := by
  intro f hf
  obtain ⟨c, hc, hf⟩ := List.mem_flatMap.1 hf
  refine List.mem_flatMap.2 ⟨c, hc, ?_⟩
  by_cases hcell : c = cell
  · simp only [if_pos hcell]
    exact (mem_update_cell hP).2 (.inl hf)
  · simpa only [if_neg hcell] using hf

/-- The derived cell holds the facts of every evaluation, and each evaluation
was one of facts that the EDB cells still hold. -/
theorem runs_derived {events : List Event} {s : Network} {batches : List (List Fact)}
    (h : Runs P engines prog edb_cells events s batches) :
    (∀ f, f ∈ contentFacts s.output ↔ ∃ batch ∈ batches, f ∈ batch) ∧
      ∀ batch ∈ batches, ∃ edb fuel, edb ⊆ s.edb edb_cells ∧ evaluate_program P engines fuel prog edb = some batch := by
  induction h with
  | init => simp [Network.initial, contentFacts]
  | @update events s batches cell increment _ ih =>
    refine ⟨ih.1, fun batch hbatch => ?_⟩
    obtain ⟨edb, fuel, hsub, heval⟩ := ih.2 batch hbatch
    exact ⟨edb, fuel, List.Subset.trans hsub (edb_grows hP s cell increment), heval⟩
  | @execute events s batches fuel derived _ heval ih =>
    refine ⟨fun f => ?_, fun batch hbatch => ?_⟩
    · rw [mem_update_cell hP, ih.1 f]
      simp only [List.mem_append, List.mem_singleton, or_and_right, exists_or, exists_eq_left]
      rfl
    · rcases List.mem_append.1 hbatch with hbatch | hbatch
      · exact ih.2 batch hbatch
      · rw [List.mem_singleton.1 hbatch]
        exact ⟨_, fuel, List.Subset.refl _, heval⟩

/-- After an execution the derived cell holds the facts of all evaluations so
far, that of the facts accumulated among them, and without `NegFact` no others
than those of this one. -/
theorem live_agrees_with_batch (hE : engines.Correct P) (events : List Event) :
    (∃ s batches, Runs P engines prog edb_cells (events ++ [.execute]) s batches) ∧
      ∀ s batches, Runs P engines prog edb_cells (events ++ [.execute]) s batches →
        (∀ f, f ∈ contentFacts s.output ↔ ∃ batch ∈ batches, f ∈ batch) ∧
        ∃ batch ∈ batches, (∃ fuel, evaluate_program P engines fuel prog (s.edb edb_cells) = some batch) ∧
          (∀ fuel facts, evaluate_program P engines fuel prog (s.edb edb_cells) = some facts → facts = batch) ∧
          (NegFree prog → ∀ f, f ∈ contentFacts s.output ↔ f ∈ batch) := by
  refine ⟨runs_exists hP engines prog edb_cells _, fun s batches h => ?_⟩
  obtain ⟨hunion, hbatches⟩ := runs_derived hP h
  refine ⟨hunion, ?_⟩
  generalize hevents : events ++ [Event.execute] = all at h
  cases h with
  | init => simp at hevents
  | update cell increment _ =>
    have := List.append_inj_right' hevents rfl
    cases this
  | @execute events' s' batches' fuel derived hrun heval =>
    refine ⟨derived, by simp, ⟨fuel, heval⟩, fun fuel' facts hfacts => evaluate_unique hfacts heval, fun hneg f => ?_⟩
    rw [hunion f]
    constructor
    · rintro ⟨batch, hbatch, hf⟩
      obtain ⟨edb, fuel', hsub, hbatch⟩ := hbatches batch hbatch
      exact (evaluate_leastClosed hE hneg hbatch).mono (evaluate_leastClosed hE hneg heval) hsub hf
    · exact fun hf => ⟨derived, by simp, hf⟩

end

/-! ## The engines without extensions -/

mutual

theorem negated_of_not_extended : ∀ a : BodyAtom, body_atom_requires_extended a = false → a.negated = []
  | .atom _, _ => rfl
  | .pred _ _, h => by cases h
  | .neg_fact _, h => by cases h
  | .or branches, h => branchesNegated_of_not_extended branches h
  | .and conjuncts, h => bodyNegated_of_not_extended conjuncts h

theorem bodyNegated_of_not_extended : ∀ body : List BodyAtom, body_requires_extended body = false → bodyNegated body = []
  | [], _ => rfl
  | a :: as, h => by
    rw [body_requires_extended, Bool.or_eq_false_iff] at h
    rw [bodyNegated, negated_of_not_extended a h.1, bodyNegated_of_not_extended as h.2, List.nil_append]

theorem branchesNegated_of_not_extended : ∀ branches : List (List BodyAtom), branches_require_extended branches = false →
    branchesNegated branches = []
  | [], _ => rfl
  | b :: bs, h => by
    rw [branches_require_extended, Bool.or_eq_false_iff] at h
    rw [branchesNegated, bodyNegated_of_not_extended b h.1, branchesNegated_of_not_extended bs h.2, List.nil_append]

end

/-- Naive evaluation does what is asked of the engines. -/
theorem naiveEngines_correct : naiveEngines.Correct firstOrder := by
  intro rules edb hextended
  have hneg : ∀ r ∈ rules, bodyNegated r.body = [] := fun r hr => by
    apply bodyNegated_of_not_extended
    simpa using List.any_eq_false.1 hextended r hr
  obtain ⟨fuel, h⟩ : ∃ fuel, evaluate_extended_naive firstOrder rules fuel edb = some (naiveEngines.naive_datalog rules edb) :=
    ⟨_, (evaluate_ends firstOrder_firstOrder rules edb).choose_spec.choose_spec⟩
  exact ⟨naive_leastClosed hneg h, naive_leastClosed hneg h⟩

/-- Two updates of two cells, with an execution after each. -/
def growingEvents : List Event := [
  .update 0 (make_fact_set [["reads", "p", "a"], ["writes", "p", "b"]]), .execute,
  .update 1 (make_fact_set [["reads", "q", "b"], ["writes", "q", "a"]])]

theorem live_agrees_with_batch_growing : ∃ s batches,
    Runs firstOrder naiveEngines (topology_reachability_program .semi_naive) [0, 1] (growingEvents ++ [.execute]) s batches ∧
      ∃ batch ∈ batches,
        (∃ fuel, evaluate_program firstOrder naiveEngines fuel (topology_reachability_program .semi_naive) (s.edb [0, 1]) =
          some batch) ∧
        ∀ f, f ∈ contentFacts s.output ↔ f ∈ batch := by
  obtain ⟨⟨s, batches, hrun⟩, hall⟩ := @live_agrees_with_batch firstOrder firstOrder_firstOrder naiveEngines
    (topology_reachability_program .semi_naive) [0, 1] naiveEngines_correct growingEvents
  obtain ⟨-, batch, hbatch, heval, -, hsame⟩ := hall s batches hrun
  exact ⟨s, batches, hrun, batch, hbatch, heval, hsame (reachability_positive .semi_naive)⟩

/-! ## A fact that is derived too early -/

/-- `reachable(a, b)` arrives before `reachable(b, a)`. -/
def earlyEvents : List Event := [
  .update 0 (make_fact_set [["reachable", "a", "b"]]), .execute, .update 0 (make_fact_set [["reachable", "b", "a"]])]

/-- A program with `NegFact`: facts that come later do not take back what it derived. -/
def earlyProgram : LogicProgram := topology_triad_one_way_surface_program "a" "b" "c" .semi_naive

theorem early_first (engines : MiniDatalog) : evaluate_program firstOrder engines 9 earlyProgram [["reachable", "a", "b"]] =
    some [["reachable", "a", "b"], ["surface_one_way", "a", "b"]] := by
  rw [earlyProgram, evaluate_oneWay]
  decide +kernel

theorem early_second (engines : MiniDatalog) :
    evaluate_program firstOrder engines 9 earlyProgram [["reachable", "a", "b"], ["reachable", "b", "a"]] =
      some [["reachable", "a", "b"], ["reachable", "b", "a"]] := by
  rw [earlyProgram, evaluate_oneWay]
  decide +kernel

/-- The derived cell keeps `surface_one_way(a, b)`, which the batch evaluation
does not derive. -/
theorem live_disagrees_with_batch : ¬ ∀ (P : Pmatcher), P.FirstOrder → ∀ engines : MiniDatalog, engines.Correct P →
    ∀ prog edb_cells events s batches, Runs P engines prog edb_cells (events ++ [.execute]) s batches →
      ∀ fuel facts, evaluate_program P engines fuel prog (s.edb edb_cells) = some facts →
        ∀ f, f ∈ contentFacts s.output ↔ f ∈ facts := by
  intro h
  have hfirst := Runs.update 0 (make_fact_set [["reachable", "a", "b"]])
    (.init : Runs firstOrder naiveEngines earlyProgram [0] [] .initial [])
  have hsecond := Runs.update 0 (make_fact_set [["reachable", "b", "a"]]) (.execute hfirst (early_first naiveEngines))
  have hedb := early_second naiveEngines
  have hrun := Runs.execute hsecond hedb
  have hsame := h firstOrder firstOrder_firstOrder naiveEngines naiveEngines_correct earlyProgram [0] earlyEvents _ _ hrun 9 _ hedb
  have hkept := (hsame ["surface_one_way", "a", "b"]).1 (by decide +kernel)
  exact absurd hkept (by decide)

end LainLang.Datalog
