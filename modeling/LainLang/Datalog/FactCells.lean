import LainLang.Datalog.FactSets
import LainLang.Lib.Dataflow
import Mathlib.Order.ConditionallyCompleteLattice.Basic
/-!
# Cells of facts and their propagators

An update alerts the propagators that read a cell if it changed the cell, and the
scheduler runs alerted propagators one by one, in any order. Seen as sets of facts the
cells are those of a dataflow: an update adds to a cell, and it changes the cell exactly
if it adds something.
-/
open LainLang.Lib

namespace LainLang.Datalog

/-- Whether a cell alerts its neighbours after an update. -/
def content_changed (P : Pmatcher) (before after : Option FactSet) : Bool :=
  match before, after with
  | none, none => false
  | some a, some b => !fact_sets_equal P a b
  | none, some _ => true
  | some _, none => true

/-- The contents of the cells, and the propagators the scheduler has yet to run. -/
structure FactCells (Cell Stage : Type) where
  cell : Cell → Option FactSet
  alerted : Stage → Bool

namespace FactCells

variable {Cell Stage : Type}

/-- Each propagator is alerted when it is constructed. -/
def start : FactCells Cell Stage := { cell := fun _ => none, alerted := fun _ => true }

/-- The scheduler takes a propagator off its queue. -/
def taken [DecidableEq Stage] (s : FactCells Cell Stage) (stage : Stage) : FactCells Cell Stage :=
  { s with alerted := fun other => s.alerted other && decide (other ≠ stage) }

/-- Alerts the propagators that read a cell, if it changed. -/
def alert (s : FactCells Cell Stage) (changed : Bool) (reads : Stage → Bool) : FactCells Cell Stage :=
  { s with alerted := fun stage => s.alerted stage || changed && reads stage }

/-- A cell is updated, and those who read it are alerted if that changed it. -/
def update [DecidableEq Cell] (P : Pmatcher) (reads : Stage → Cell → Bool) (s : FactCells Cell Stage) (i : Cell)
    (increment : FactSet) : FactCells Cell Stage :=
  { s with cell := Function.update s.cell i (update_cell P (s.cell i) increment) }.alert
    (content_changed P (s.cell i) (update_cell P (s.cell i) increment)) fun stage => reads stage i

end FactCells

/-! ## Who is alerted -/

namespace FactCells

variable {Cell Stage : Type} {s : FactCells Cell Stage} {stage other : Stage}

theorem taken_quiet [DecidableEq Stage] : (s.taken stage).alerted other = false ↔ s.alerted other = false ∨ other = stage := by
  simp only [taken, ne_eq, Bool.and_eq_false_iff, decide_eq_false_iff_not, not_not]

theorem alert_quiet {changed : Bool} {reads : Stage → Bool} : (s.alert changed reads).alerted stage = false ↔
    s.alerted stage = false ∧ (changed = false ∨ reads stage = false) := by
  simp only [alert, Bool.or_eq_false_iff, Bool.and_eq_false_iff]

section
variable [DecidableEq Cell] {P : Pmatcher} {reads : Stage → Cell → Bool} {i : Cell} {increment : FactSet}

theorem cell_update : (s.update P reads i increment).cell i = update_cell P (s.cell i) increment := Function.update_self ..

theorem cell_update_of_ne {k : Cell} (h : k ≠ i) : (s.update P reads i increment).cell k = s.cell k :=
  Function.update_of_ne h ..

/-- Those who do not read a cell are not alerted by its update. -/
theorem update_quiet (h : s.alerted stage = false) (hread : reads stage i = false) :
    (s.update P reads i increment).alerted stage = false := alert_quiet.2 ⟨h, .inr hread⟩

end

end FactCells

theorem update_ne_none (P : Pmatcher) (content : Option FactSet) (increment : FactSet) :
    update_cell P content increment ≠ none := by
  cases content <;> exact Option.some_ne_none _

/-- A cell that alerts nobody is as it was. -/
theorem update_unchanged {P : Pmatcher} {content : Option FactSet} {increment : FactSet}
    (h : content_changed P content (update_cell P content increment) = false) : update_cell P content increment = content := by
  cases content with
  | none => cases h
  | some old =>
    have hequal : fact_sets_equal P old (merge_fact_sets P old increment) = true := by
      simpa [content_changed, update_cell] using h
    rw [fact_sets_equal, Bool.and_eq_true, decide_eq_true_eq] at hequal
    -- The lengths are the same, so the merge added nothing.
    have hgrown : old.facts <+: (merge_fact_sets P old increment).facts := merge_prefix old increment
    have hsame : (merge_fact_sets P old increment).facts = old.facts := (hgrown.eq_of_length hequal.1).symm
    exact congrArg (fun facts => some (FactSet.mk facts)) hsame

/-! ## The cells as a dataflow -/

/-- The facts in a cell, and `⊥` where there is nothing. -/
def heldFacts : Option FactSet → WithBot (Set Fact)
  | none => ⊥
  | some set => (set.contents : Set Fact)

theorem unbotD_heldFacts (content : Option FactSet) : (heldFacts content).unbotD ∅ = {f | f ∈ contentFacts content} := by
  cases content with
  | none => exact (Set.eq_empty_of_forall_notMem fun f hf => absurd hf List.not_mem_nil).symm
  | some set => rfl

theorem heldFacts_eq_coe {content : Option FactSet} {S : Set Fact} :
    heldFacts content = S ↔ ∃ set, content = some set ∧ set.contents = S := by
  cases content with
  | none => simp [heldFacts]
  | some set => simp [heldFacts]

theorem unbotD_mono : Monotone fun x : WithBot (Set Fact) => x.unbotD ∅ := by
  intro x y hxy
  induction x with
  | bot => exact Set.empty_subset _
  | coe S =>
    obtain ⟨T, rfl, hST⟩ := WithBot.coe_le_iff.1 hxy
    exact hST

theorem heldFacts_update {P : Pmatcher} (hP : P.FirstOrder) (content : Option FactSet) (increment : FactSet) :
    heldFacts (update_cell P content increment) = heldFacts content ⊔ (increment.contents : Set Fact) := by
  cases content with
  | none => exact (bot_sup_eq _).symm
  | some old => exact congrArg _ (merge_contents hP.unifiesEqual old increment)

/-- A cell alerts those who read it exactly if it has got a fact, or is new. -/
theorem content_changed_iff {P : Pmatcher} (hP : P.FirstOrder) (content : Option FactSet) (increment : FactSet) :
    content_changed P content (update_cell P content increment) = true ↔
      ¬((increment.contents : Set Fact) : WithBot (Set Fact)) ≤ heldFacts content := by
  cases content with
  | none => simp [content_changed, update_cell, heldFacts]
  | some old =>
    have hle : ((increment.contents : Set Fact) : WithBot (Set Fact)) ≤ heldFacts (some old) ↔
        increment.contents ⊆ old.contents := WithBot.coe_le_coe
    rw [hle, ← Bool.not_eq_false, not_iff_not]
    constructor
    · intro h f hf
      have hmerged : merge_fact_sets P old increment = old := Option.some.inj (update_unchanged h)
      rw [← hmerged, merge_contents hP.unifiesEqual]
      exact .inr hf
    · intro hsub
      have hnew : increment.facts.filter (fun f => !facts_contains P old.facts f) = [] := by
        refine List.eq_nil_iff_forall_not_mem.2 fun f hf => ?_
        obtain ⟨hmem, hold⟩ := (mem_new_facts hP.unifiesEqual).1 hf
        exact hold (hsub hmem)
      have hmerge : merge_fact_sets P old increment = old := by
        rw [merge_fact_sets, hnew, List.append_nil]
        rfl
      have hequal : fact_sets_equal P old old = true :=
        (fact_sets_equal_iff hP.unifiesEqual).2 ⟨rfl, List.Subset.refl _⟩
      simp [content_changed, update_cell, hmerge, hequal]

namespace FactCells

variable {Cell Stage : Type} {s : FactCells Cell Stage}

/-- The state as the dataflow sees it. -/
def flow (s : FactCells Cell Stage) : Dataflow.State Cell Stage (WithBot (Set Fact)) :=
  { contents := fun i => heldFacts (s.cell i), alerted := fun stage => s.alerted stage = true }

theorem flow_start : (start : FactCells Cell Stage).flow = Dataflow.start := by
  ext k
  · rfl
  · simp [flow, start, Dataflow.start]

theorem flow_taken [DecidableEq Stage] (stage : Stage) : (s.taken stage).flow = Dataflow.taken s.flow stage := by
  ext k
  · rfl
  · simp [flow, taken, Dataflow.taken]

theorem flow_update [DecidableEq Cell] {P : Pmatcher} (hP : P.FirstOrder) {reads : Stage → Cell → Bool}
    {F : Dataflow Cell Stage (WithBot (Set Fact))} (hreads : ∀ j i, reads j i = true ↔ F.reads j i) (i : Cell)
    (increment : FactSet) :
    (s.update P reads i increment).flow = F.add s.flow i (increment.contents : Set Fact) := by
  refine Dataflow.eq_add ?_ (fun k hk => ?_) fun j => ?_
  · exact (congrArg heldFacts cell_update).trans (heldFacts_update hP _ _)
  · exact congrArg heldFacts (cell_update_of_ne hk)
  · simp only [flow, update, alert, Bool.or_eq_true, Bool.and_eq_true, hreads, content_changed_iff hP]
    exact or_congr_right and_comm

end FactCells

end LainLang.Datalog
