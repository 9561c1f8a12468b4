import LainLang.Lib.Effect
/-!
# Computations on a part of the state

A computation shows another one through a projection of its state when it ends the
same, with the same effects on what the projection shows. The rules follow the way a
computation is put together; a precondition says what the first one relies on in the
rest of its state.
-/

namespace LainLang.Lib

variable {ε ε' σ τ α β : Type} {f : σ → τ} {P Q R : σ → Prop}

/-- How a computation ended, with what is seen of its state. -/
def seen (f : σ → τ) : EStateM.Result ε σ α → EStateM.Result ε τ α
  | .ok a s => .ok a (f s)
  | .error e s => .error e (f s)

/-- From `P` states `x` ends as `y` does on what is seen of them, and where it
returns, in a `Q` state. -/
structure Shows (f : σ → τ) (P Q : σ → Prop) (x : EStateM ε σ α) (y : EStateM ε τ α) : Prop where
  seen : ∀ s, P s → seen f (x s) = y (f s)
  ok : ∀ s a s', P s → x s = .ok a s' → Q s'

theorem Shows.pure (a : α) : Shows f P P (pure a : EStateM ε σ α) (pure a) where
  seen _ _ := rfl
  ok s b s' hP h := by
    cases h
    exact hP

theorem Shows.throw (e : ε) : Shows f P Q (throw e : EStateM ε σ α) (throw e) where
  seen _ _ := rfl
  ok s b s' hP h := by cases h

theorem Shows.bind {x : EStateM ε σ α} {y : EStateM ε τ α} {k : α → EStateM ε σ β} {l : α → EStateM ε τ β}
    (hx : Shows f P Q x y) (hk : ∀ a, Shows f Q R (k a) (l a)) : Shows f P R (x >>= k) (y >>= l) where
  seen s hP := by
    have hseen := hx.seen s hP
    rw [bind_apply, bind_apply]
    cases h : x s with
    | ok a s' =>
      rw [h] at hseen
      rw [← hseen]
      exact (hk a).seen s' (hx.ok s a s' hP h)
    | error e s' =>
      rw [h] at hseen
      rw [← hseen]
      rfl
  ok s b s'' hP h := by
    rw [bind_apply] at h
    cases hxs : x s with
    | ok a s' =>
      rw [hxs] at h
      exact (hk a).ok s' b s'' (hx.ok s a s' hP hxs) h
    | error e s' =>
      rw [hxs] at h
      cases h

theorem Shows.forget {x : EStateM ε σ α} {y : EStateM ε τ α} (h : Shows f P Q x y) : Shows f P (fun _ => True) x y :=
  ⟨h.seen, fun _ _ _ _ _ => trivial⟩

/-- A computation that relies on nothing. -/
theorem Shows.anywhere {x : EStateM ε σ α} {y : EStateM ε τ α} (h : Shows f (fun _ => True) Q x y) : Shows f P Q x y :=
  ⟨fun s _ => h.seen s trivial, fun s a s' _ => h.ok s a s' trivial⟩

/-- A look at the part of the state that is seen. -/
theorem Shows.look (g : τ → α) : Shows f P P (get >>= fun s => Pure.pure (g (f s)) : EStateM ε σ α) (get >>= fun t => Pure.pure (g t)) where
  seen _ _ := rfl
  ok s a s' hP h := by
    cases h
    exact hP

/-- An error told in other words. -/
def retold (g : ε → ε') (x : EStateM ε σ α) : EStateM ε' σ α := fun s =>
  match x s with
  | .ok a s' => .ok a s'
  | .error e s' => .error (g e) s'

end LainLang.Lib
