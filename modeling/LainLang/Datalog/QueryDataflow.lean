import LainLang.Datalog.QueryLanguage
import Mathlib.Data.Set.Card
/-!
# The query language at rest

A network of the primitives does what the dataflow of their meanings does. Its alerted
propagators come to rest, and the cells hold the least facts then that explain what the
cells were updated with.
-/
open LainLang.Lib

namespace LainLang.Datalog

/-! ## The network simulates its meaning -/

namespace QueryNetwork

variable {n : ℕ}

/-- What a cell holds, with `⊥` for nothing. -/
def held (s : QueryNetwork n) : QueryCell → WithBot (Set Fact)
  | .facts i => heldFacts (s.cell i)
  | .rules i => heldAny (s.rules i).isSome
  | .pattern i => heldAny (s.pattern i).isSome

/-- The state as the dataflow sees it. -/
def flow (s : QueryNetwork n) : Dataflow.State QueryCell (Fin n) (WithBot (Set Fact)) :=
  { contents := s.held, alerted := fun j => s.alerted j = true }

/-- The cells of rules and patterns hold nothing else than what they are updated with. -/
structure Supplied (prog : QueryProgram) (s : QueryNetwork n) : Prop where
  rules : ∀ i rules, s.rules i = some rules → rules = prog.rules i
  pattern : ∀ i pat, s.pattern i = some pat → pat = prog.pattern i

end QueryNetwork

/-- An event of the network as one of the dataflow. -/
def QueryEvent.flow {n : ℕ} : QueryEvent n → Dataflow.Event QueryCell (Fin n) (WithBot (Set Fact))
  | .update i increment => .add (.facts i) (increment.contents : Set Fact)
  | .update_rules i => .add (.rules i) (∅ : Set Fact)
  | .update_pattern i => .add (.pattern i) (∅ : Set Fact)
  | .execute j => .run j

/-- `unify` binds each variable of the pattern to a string of the fact. -/
def QueryLibrary.Grounds {P : Pmatcher} (lib : QueryLibrary P) : Prop :=
  ∀ pattern facts, ∀ dict ∈ lib.query pattern facts,
    ∃ f, ground_fact P pattern dict = some f ∧ lib.ground pattern dict = some f

/-- What `query` makes of a pattern: the facts that the pattern stands for. -/
theorem mem_matched {P : Pmatcher} {lib : QueryLibrary P} (hlib : lib.Correct) (hground : lib.Grounds) (pattern : Atom)
    (facts : List Fact) :
    {f | f ∈ (lib.query pattern facts).filterMap (ground_fact P pattern)} = matching pattern {f | f ∈ facts} := by
  ext g
  rw [Set.mem_ofPred_eq, List.mem_filterMap]
  refine Iff.trans ⟨?_, ?_⟩ (hlib pattern facts g)
  · rintro ⟨dict, hdict, hg⟩
    obtain ⟨f, hf, hsame⟩ := hground pattern facts dict hdict
    exact ⟨dict, hdict, hsame.trans (hf.symm.trans hg)⟩
  · rintro ⟨dict, hdict, hg⟩
    obtain ⟨f, hf, hsame⟩ := hground pattern facts dict hdict
    exact ⟨dict, hdict, hf.trans (hsame.symm.trans hg)⟩

section
variable {P : Pmatcher} (hP : P.FirstOrder) {engines : MiniDatalog} (hE : engines.Correct P) {lib : QueryLibrary P}
  (hlib : lib.Correct) (hground : lib.Grounds) {n : ℕ} {prims : Fin n → Primitive} {prog : QueryProgram} {s : QueryNetwork n}

omit hP hE hlib hground

/-- Another value in one cell, with its readers alerted if that is more than there was. -/
theorem flow_alert {changed : Bool} {cell : QueryCell} {x : WithBot (Set Fact)} {s' : QueryNetwork n}
    (halerted : s'.alerted = (s.alert changed fun j => QueryNetwork.reads prims j cell).alerted)
    (hcell : s'.held cell = s.held cell ⊔ x) (hother : ∀ k, k ≠ cell → s'.held k = s.held k)
    (hchanged : changed = true ↔ ¬x ≤ s.held cell) : s'.flow = (queryFlow prims prog).add s.flow cell x := by
  refine Dataflow.eq_add hcell hother fun j => ?_
  simp only [QueryNetwork.flow, halerted, FactCells.alert, QueryNetwork.reads, queryFlow, Bool.or_eq_true, Bool.and_eq_true,
    decide_eq_true_eq, hchanged]
  exact or_congr_right and_comm

include hP in
theorem flow_update (s : QueryNetwork n) (i : ℕ) (increment : FactSet) :
    (s.update P prims i increment).flow = (queryFlow prims prog).add s.flow (.facts i) (increment.contents : Set Fact) := by
  refine flow_alert rfl ?_ (fun k hk => ?_) (content_changed_iff hP _ _)
  · rw [QueryNetwork.held, QueryNetwork.update, FactCells.cell_update]
    exact heldFacts_update hP _ _
  · cases k with
    | facts k =>
      have hne : k ≠ i := fun h => hk (congrArg _ h)
      rw [QueryNetwork.held, QueryNetwork.update, FactCells.cell_update_of_ne hne, QueryNetwork.held]
    | _ => rfl

theorem flow_taken (s : QueryNetwork n) (j : Fin n) : (s.taken j).flow = Dataflow.taken s.flow j := by
  ext k
  · cases k <;> rfl
  · exact Iff.of_eq (congrArg (fun flow : Dataflow.State ℕ (Fin n) _ => flow.alerted k) (FactCells.flow_taken j))

include hP hE hlib hground

omit hP hE hlib hground in
theorem QueryNetwork.Supplied.step (hs : s.Supplied prog) (e : QueryEvent n) :
    (s.step P engines lib prims prog e).Supplied prog := by
  cases e with
  | update i increment => exact ⟨hs.rules, hs.pattern⟩
  | update_rules i =>
    refine ⟨fun k rules hrules => ?_, hs.pattern⟩
    by_cases hk : k = i
    · subst hk
      simpa [QueryNetwork.step, QueryNetwork.update_rules] using hrules.symm
    · refine hs.rules k rules ?_
      simpa [QueryNetwork.step, QueryNetwork.update_rules, Function.update_of_ne hk] using hrules
  | update_pattern i =>
    refine ⟨hs.rules, fun k pat hpat => ?_⟩
    by_cases hk : k = i
    · subst hk
      simpa [QueryNetwork.step, QueryNetwork.update_pattern] using hpat.symm
    · refine hs.pattern k pat ?_
      simpa [QueryNetwork.step, QueryNetwork.update_pattern, Function.update_of_ne hk] using hpat
  | execute j =>
    simp only [QueryNetwork.step, QueryNetwork.execute]
    split
    · exact ⟨hs.rules, hs.pattern⟩
    · exact ⟨hs.rules, hs.pattern⟩

end

/-! ## A bound -/

section
variable {n : ℕ} (prims : Fin n → Primitive) (prog : QueryProgram)

/-- The rules a derive step runs. -/
def Primitive.rules : Primitive → List ExtendedRule
  | .datalog_derive _ rules_cell _ => prog.rules rules_cell
  | _ => []

variable {prims prog}

end

/-! ## At rest -/

section
variable {n : ℕ}

variable {P : Pmatcher} (hP : P.FirstOrder) {engines : MiniDatalog} (hE : engines.Correct P) {lib : QueryLibrary P}
  (hlib : lib.Correct) (hground : lib.Grounds)
include hP hE hlib hground

end

/-! ## A cycle -/

end LainLang.Datalog
