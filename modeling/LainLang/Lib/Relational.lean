import LainLang.Lib.Effect
/-!
# Two runs

Computations started in related states end alike: with one value or one error, in
related states. The rules follow the way a computation is put together.
-/

namespace LainLang.Lib

variable {ε σ α β : Type} {P Q R : σ → σ → Prop}

/-- Two computations ended the same, in related states. -/
inductive Alike (R : σ → σ → Prop) : EStateM.Result ε σ α → EStateM.Result ε σ α → Prop where
  | ok {a : α} {s t : σ} (h : R s t) : Alike R (.ok a s) (.ok a t)
  | error {e : ε} {s t : σ} (h : R s t) : Alike R (.error e s) (.error e t)

theorem Alike.stateAfter {r r' : EStateM.Result ε σ α} (h : Alike R r r') : R (stateAfter r) (stateAfter r') := by
  cases h with
  | ok h => exact h
  | error h => exact h

/-- From `P` states the two computations end alike, in `Q` states. -/
def Relates (P Q : σ → σ → Prop) (x y : EStateM ε σ α) : Prop := ∀ s t, P s t → Alike Q (x s) (y t)

theorem Relates.pure (a : α) : Relates P P (pure a : EStateM ε σ α) (pure a) := fun _ _ h => .ok h

theorem Relates.throw (e : ε) : Relates P P (throw e : EStateM ε σ α) (throw e) := fun _ _ h => .error h

theorem Relates.of_le {x y : EStateM ε σ α} (h : Relates Q R x y) (hP : ∀ s t, P s t → Q s t) : Relates P R x y :=
  fun s t hst => h s t (hP s t hst)

/-- An error of the first halves ends both computations. -/
theorem Relates.bind {x y : EStateM ε σ α} {f g : α → EStateM ε σ β} (hx : Relates P Q x y)
    (hf : ∀ a, Relates Q R (f a) (g a)) (hQ : ∀ s t, Q s t → R s t) : Relates P R (x >>= f) (y >>= g) := by
  intro s t hst
  have halike := hx s t hst
  rw [bind_apply, bind_apply]
  generalize x s = r at halike
  generalize y t = r' at halike
  cases halike with
  | ok h => exact hf _ _ _ h
  | error h => exact .error (hQ _ _ h)

end LainLang.Lib
