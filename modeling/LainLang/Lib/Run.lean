import Mathlib.Data.List.Infix
/-!
# Runs of a step function

`run step s ls` is the state after the labels `ls`. A property of a run is a
property of every state its prefixes reach, `Throughout`; a condition on a run
is a condition on every step, `Stepwise`, read in the state before the step.
-/

namespace LainLang.Lib

variable {S L : Type}

/-- The state after a list of steps. -/
def run (step : S → L → S) (s : S) (ls : List L) : S := ls.foldl step s

@[simp] theorem run_nil (step : S → L → S) (s : S) : run step s [] = s := rfl

@[simp] theorem run_append (step : S → L → S) (s : S) (ls ls' : List L) :
    run step s (ls ++ ls') = run step (run step s ls) ls' := List.foldl_append

@[simp] theorem run_cons (step : S → L → S) (s : S) (l : L) (ls : List L) :
    run step s (l :: ls) = run step (step s l) ls := rfl

/-- `P` holds in every state the run reaches, the first and the last included. -/
def Throughout (step : S → L → S) (s : S) (ls : List L) (P : S → Prop) : Prop :=
  ∀ pre, pre <+: ls → P (run step s pre)

/-- Every step of the run meets `C` in the state it starts from. -/
def Stepwise (step : S → L → S) (s : S) (ls : List L) (C : S → L → Prop) : Prop :=
  ∀ pre l, pre ++ [l] <+: ls → C (run step s pre) l

variable {step : S → L → S} {s : S} {ls : List L}

theorem stepwise_nil (C : S → L → Prop) : Stepwise step s [] C := fun pre l hpre => by
  have := hpre.length_le
  simp at this

theorem stepwise_cons {C : S → L → Prop} {l : L} :
    Stepwise step s (l :: ls) C ↔ C s l ∧ Stepwise step (step s l) ls C := by
  constructor
  · intro h
    exact ⟨h [] l (by simp), fun pre k hpre => h (l :: pre) k (List.cons_prefix_cons.2 ⟨rfl, hpre⟩)⟩
  · rintro ⟨h0, h⟩ pre k hpre
    cases pre with
    | nil => obtain ⟨rfl, -⟩ := List.cons_prefix_cons.1 hpre; exact h0
    | cons l' pre => obtain ⟨rfl, htail⟩ := List.cons_prefix_cons.1 hpre; exact h pre k htail

theorem Throughout.last {P : S → Prop} (h : Throughout step s ls P) : P (run step s ls) := h ls List.prefix_rfl

theorem Throughout.mono {P Q : S → Prop} (h : Throughout step s ls P) (hpq : ∀ s, P s → Q s) :
    Throughout step s ls Q := fun pre hpre => hpq _ (h pre hpre)

theorem Stepwise.mono {C D : S → L → Prop} (h : Stepwise step s ls C) (hcd : ∀ s l, C s l → D s l) :
    Stepwise step s ls D := fun pre l hpre => hcd _ _ (h pre l hpre)

/-- A property that every step meeting `C` keeps holds throughout a run whose
steps all meet `C`. -/
theorem Throughout.of_step {I : S → Prop} {C : S → L → Prop} (h0 : I s)
    (hstep : ∀ s l, I s → C s l → I (step s l)) (h : Stepwise step s ls C) : Throughout step s ls I := by
  intro pre
  induction pre using List.reverseRecOn with
  | nil => intro _; exact h0
  | append_singleton pre l ih =>
    intro hpre
    rw [run_append]
    exact hstep _ _ (ih ((List.prefix_append pre [l]).trans hpre)) (h pre l hpre)

/-- An invariant kept by every step. -/
theorem Throughout.of_invariant {I : S → Prop} (h0 : I s) (hstep : ∀ s l, I s → I (step s l)) :
    Throughout step s ls I :=
  .of_step (C := fun _ _ => True) h0 (fun s l hI _ => hstep s l hI) (fun _ _ _ => trivial)

/-- What holds of the state before a step and is enough for `D` there. -/
theorem Throughout.stepwise {I : S → Prop} {C D : S → L → Prop} (hI : Throughout step s ls I)
    (hC : Stepwise step s ls C) (h : ∀ s l, I s → C s l → D s l) : Stepwise step s ls D :=
  fun pre l hpre => h _ _ (hI pre ((List.prefix_append pre [l]).trans hpre)) (hC pre l hpre)

/-- A property that a step keeps exactly when the step meets `C`. -/
theorem throughout_iff_stepwise {I : S → Prop} {C : S → L → Prop} (h0 : I s)
    (hstep : ∀ s l, I s → (I (step s l) ↔ C s l)) : Throughout step s ls I ↔ Stepwise step s ls C := by
  constructor
  · intro h pre l hpre
    have hI := h pre ((List.prefix_append pre [l]).trans hpre)
    have hI' := h (pre ++ [l]) hpre
    rw [run_append] at hI'
    exact (hstep _ l hI).1 hI'
  · exact Throughout.of_step h0 fun s l hI hC => (hstep s l hI).2 hC

/-- A property that, beside an invariant, tells the steps that keep the invariant
from the others. -/
theorem throughout_iff_of_invariant {I P : S → Prop} {C : S → L → Prop} (h0 : I s) (hholds : ∀ s, I s → P s)
    (hkeep : ∀ s l, I s → C s l → I (step s l)) (hbreak : ∀ s l, I s → P (step s l) → C s l) :
    Throughout step s ls P ↔ Stepwise step s ls C := by
  constructor
  · intro h
    -- While `P` holds every step meets `C`, so the invariant is still there.
    have hI : Throughout step s ls I := by
      intro pre
      induction pre using List.reverseRecOn with
      | nil => intro _; exact h0
      | append_singleton pre l ih =>
        intro hpre
        have hbefore := ih ((List.prefix_append pre [l]).trans hpre)
        have hafter := h (pre ++ [l]) hpre
        rw [run_append] at hafter ⊢
        exact hkeep _ _ hbefore (hbreak _ _ hbefore hafter)
    intro pre l hpre
    have hafter := h (pre ++ [l]) hpre
    rw [run_append] at hafter
    exact hbreak _ l (hI pre ((List.prefix_append pre [l]).trans hpre)) hafter
  · exact fun h => (Throughout.of_step h0 hkeep h).mono hholds

end LainLang.Lib
