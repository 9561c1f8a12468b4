import Mathlib.Data.List.Infix
/-!
# Programs that throw and keep their effects

`EStateM ε σ` computations: a thrown error leaves the state as the failing
statement left it. `forM_eq_error` says where a loop over a list stopped.
-/

namespace LainLang.Lib

variable {ε σ α β : Type}

/-- The state a computation leaves, whether it returned or threw. -/
def stateAfter : EStateM.Result ε σ α → σ
  | .ok _ s => s
  | .error _ s => s

@[simp] theorem stateAfter_ok (a : α) (s : σ) : stateAfter (.ok a s : EStateM.Result ε σ α) = s := rfl

@[simp] theorem stateAfter_error (e : ε) (s : σ) : stateAfter (.error e s : EStateM.Result ε σ α) = s := rfl

/-- What a computation threw, if it threw. -/
def thrown : EStateM.Result ε σ α → Option ε
  | .ok _ _ => none
  | .error e _ => some e

theorem eq_error_of_thrown {r : EStateM.Result ε σ α} {e : ε} (h : thrown r = some e) : r = .error e (stateAfter r) := by
  cases r with
  | ok a s => cases h
  | error e' s => cases h; rfl

/-! ## Evaluation -/

theorem bind_apply (x : EStateM ε σ α) (f : α → EStateM ε σ β) (s : σ) :
    (x >>= f) s = match x s with
      | .ok a s' => f a s'
      | .error e s' => .error e s' := rfl

@[simp] theorem pure_apply (a : α) (s : σ) : (pure a : EStateM ε σ α) s = .ok a s := rfl

@[simp] theorem throw_apply (e : ε) (s : σ) : (throw e : EStateM ε σ α) s = .error e s := rfl

@[simp] theorem get_apply (s : σ) : (get : EStateM ε σ σ) s = .ok s s := rfl

@[simp] theorem modify_apply (f : σ → σ) (s : σ) : (modify f : EStateM ε σ PUnit) s = .ok ⟨⟩ (f s) := rfl

theorem bind_of_ok {x : EStateM ε σ α} {s s' : σ} {a : α} (h : x s = .ok a s') (f : α → EStateM ε σ β) :
    (x >>= f) s = f a s' := by
  rw [bind_apply, h]

theorem bind_of_error {x : EStateM ε σ α} {s s' : σ} {e : ε} (h : x s = .error e s') (f : α → EStateM ε σ β) :
    (x >>= f) s = .error e s' := by
  rw [bind_apply, h]

/-- A sequence that threw: the first half threw, or it returned and the second threw. -/
theorem bind_eq_error {x : EStateM ε σ α} {f : α → EStateM ε σ β} {s s'' : σ} {e : ε}
    (h : (x >>= f) s = .error e s'') :
    x s = .error e s'' ∨ ∃ a s', x s = .ok a s' ∧ f a s' = .error e s'' := by
  rw [bind_apply] at h
  cases hx : x s with
  | ok a s' => rw [hx] at h; exact .inr ⟨a, s', rfl, h⟩
  | error e' s' => rw [hx] at h; cases h; exact .inl rfl

/-- A sequence of computations that cannot throw. -/
theorem run_bind_of_eq {x : StateM σ α} {s s' : σ} {a : α} (h : x.run s = (a, s')) (f : α → StateM σ β) :
    (x >>= f).run s = (f a).run s' := by
  rw [StateT.run_bind, h]; rfl

/-! ## Computations that never throw -/

/-- The computation returns from every state. -/
def NoThrow (x : EStateM ε σ α) : Prop := ∀ s, ∃ a s', x s = .ok a s'

theorem NoThrow.pure (a : α) : NoThrow (pure a : EStateM ε σ α) := fun s => ⟨a, s, rfl⟩

theorem NoThrow.modify (f : σ → σ) : NoThrow (modify f : EStateM ε σ PUnit) := fun s => ⟨⟨⟩, f s, rfl⟩

theorem NoThrow.get : NoThrow (get : EStateM ε σ σ) := fun s => ⟨s, s, rfl⟩

theorem NoThrow.bind {x : EStateM ε σ α} {f : α → EStateM ε σ β} (hx : NoThrow x) (hf : ∀ a, NoThrow (f a)) :
    NoThrow (x >>= f) := by
  intro s
  obtain ⟨a, s', h⟩ := hx s
  obtain ⟨b, s'', h'⟩ := hf a s'
  exact ⟨b, s'', by rw [bind_of_ok h, h']⟩

theorem NoThrow.ne_error {x : EStateM ε σ α} (hx : NoThrow x) {s s' : σ} {e : ε} : x s ≠ .error e s' := by
  obtain ⟨a, s'', h⟩ := hx s
  rw [h]
  intro h'
  cases h'

/-! ## Whether a computation returns -/

/-- The computation returns from this state. -/
def Succeeds (x : EStateM ε σ α) (s : σ) : Prop := ∃ a s', x s = .ok a s'

theorem succeeds_pure (a : α) (s : σ) : Succeeds (pure a : EStateM ε σ α) s := ⟨a, s, rfl⟩

theorem not_succeeds_throw (e : ε) (s : σ) : ¬Succeeds (throw e : EStateM ε σ α) s := by
  rintro ⟨a, s', h⟩
  cases h

theorem succeeds_bind {x : EStateM ε σ α} {f : α → EStateM ε σ β} {s : σ} :
    Succeeds (x >>= f) s ↔ ∃ a s', x s = .ok a s' ∧ Succeeds (f a) s' := by
  constructor
  · rintro ⟨b, s'', h⟩
    rw [bind_apply] at h
    cases hx : x s with
    | ok a s' =>
      rw [hx] at h
      exact ⟨a, s', rfl, b, s'', h⟩
    | error e s' =>
      rw [hx] at h
      cases h
  · rintro ⟨a, s', hx, b, s'', h⟩
    exact ⟨b, s'', (bind_of_ok hx f).trans h⟩

theorem succeeds_bind_of_ok {x : EStateM ε σ α} {s s' : σ} {a : α} (h : x s = .ok a s') {f : α → EStateM ε σ β} :
    Succeeds (x >>= f) s ↔ Succeeds (f a) s' := by
  rw [Succeeds, Succeeds, bind_of_ok h]

/-- A first half that does not return. -/
theorem not_succeeds_bind {x : EStateM ε σ α} {s : σ} (h : ¬Succeeds x s) (f : α → EStateM ε σ β) :
    ¬Succeeds (x >>= f) s := by
  rw [succeeds_bind]
  rintro ⟨a, s', hx, -⟩
  exact h ⟨a, s', hx⟩

/-! ## What a computation keeps -/

/-- `P` survives the computation, whether it returns or throws. -/
def Preserves (P : σ → Prop) (x : EStateM ε σ α) : Prop := ∀ s, P s → P (stateAfter (x s))

variable {P : σ → Prop}

theorem Preserves.ok {x : EStateM ε σ α} (hx : Preserves P x) {s s' : σ} {a : α} (h : x s = .ok a s') (hP : P s) :
    P s' := by
  have := hx s hP
  rwa [h] at this

theorem Preserves.pure (a : α) : Preserves P (pure a : EStateM ε σ α) := fun _ h => h

theorem Preserves.throw (e : ε) : Preserves P (throw e : EStateM ε σ α) := fun _ h => h

theorem Preserves.get : Preserves P (get : EStateM ε σ σ) := fun _ h => h

theorem Preserves.modify {f : σ → σ} (hf : ∀ s, P s → P (f s)) : Preserves P (modify f : EStateM ε σ PUnit) := hf

theorem Preserves.bind {x : EStateM ε σ α} {f : α → EStateM ε σ β} (hx : Preserves P x)
    (hf : ∀ a, Preserves P (f a)) : Preserves P (x >>= f) := by
  intro s hP
  have hs := hx s hP
  rw [bind_apply]
  cases h : x s with
  | ok a s' => rw [h] at hs; exact hf a s' hs
  | error e s' => rw [h] at hs; exact hs

/-! ## Loops over a list -/

theorem Preserves.forM {f : α → EStateM ε σ PUnit} (xs : List α) (hf : ∀ a ∈ xs, Preserves P (f a)) :
    Preserves P (xs.forM f) := by
  induction xs with
  | nil => exact .pure _
  | cons x xs ih =>
    exact (hf x List.mem_cons_self).bind fun _ => ih fun a ha => hf a (List.mem_cons_of_mem _ ha)

theorem NoThrow.forM {f : α → EStateM ε σ PUnit} (hf : ∀ a, NoThrow (f a)) (xs : List α) :
    NoThrow (xs.forM f) := by
  induction xs with
  | nil => exact fun s => ⟨⟨⟩, s, rfl⟩
  | cons x xs ih => exact (hf x).bind (fun _ => ih)

variable (f : α → EStateM ε σ PUnit)

@[simp] theorem forM_nil_apply (s : σ) : ([] : List α).forM f s = .ok ⟨⟩ s := rfl

theorem forM_cons_apply (x : α) (xs : List α) (s : σ) :
    (x :: xs).forM f s = match f x s with
      | .ok _ s' => xs.forM f s'
      | .error e s' => .error e s' := by
  rw [List.forM_eq_forM, List.forM_cons, bind_apply]
  cases f x s <;> rfl

theorem forM_cons_of_ok {x : α} {s s' : σ} {u : PUnit} (h : f x s = .ok u s') (xs : List α) :
    (x :: xs).forM f s = xs.forM f s' := by
  rw [forM_cons_apply, h]

theorem forM_append_of_ok {xs : List α} {s s' : σ} {u : PUnit} (h : xs.forM f s = .ok u s') (ys : List α) :
    (xs ++ ys).forM f s = ys.forM f s' := by
  induction xs generalizing s with
  | nil => simp only [forM_nil_apply, EStateM.Result.ok.injEq] at h; rw [List.nil_append, h.2]
  | cons x xs ih =>
    rw [forM_cons_apply] at h
    rw [List.cons_append, forM_cons_apply]
    cases hx : f x s with
    | ok v s₁ => rw [hx] at h; exact ih h
    | error e s₁ => rw [hx] at h; cases h

/-- A loop that threw stopped at one element: the loop returned on those before
it, and that element threw. -/
theorem forM_eq_error {xs : List α} {s s' : σ} {e : ε} (h : xs.forM f s = .error e s') :
    ∃ pre x post s₁, xs = pre ++ x :: post ∧ pre.forM f s = .ok ⟨⟩ s₁ ∧ f x s₁ = .error e s' := by
  induction xs generalizing s with
  | nil => cases h
  | cons x xs ih =>
    rw [forM_cons_apply] at h
    cases hx : f x s with
    | error e₁ s₁ =>
      rw [hx] at h; cases h
      exact ⟨[], x, xs, s, rfl, rfl, hx⟩
    | ok u s₁ =>
      rw [hx] at h
      obtain ⟨pre, y, post, s₂, rfl, hpre, hy⟩ := ih h
      exact ⟨x :: pre, y, post, s₂, rfl, by rw [forM_cons_of_ok f hx, hpre], hy⟩

end LainLang.Lib
