import Mathlib.Data.List.Forall2
/-!
# Loops with fuel

A loop that may not end takes fuel and stops with an error `b` when it runs
out. More fuel only turns that error into a result (`Grows`), so a loop that
stops otherwise for some fuel (`Ends`) has one result, and `Returns` says what it
is. `Upto bad` compares a computation with one that goes on where the first stops
with a bad error.
-/

namespace LainLang.Lib

variable {ε α β : Type} {bad : ε → Prop} {b : ε}

theorem except_bind_ok (a : α) (f : α → Except ε β) : (Except.ok a >>= f) = f a := rfl

theorem except_bind_error (e : ε) (f : α → Except ε β) : ((Except.error e : Except ε α) >>= f) = .error e := rfl

theorem except_bind_eq_ok {x : Except ε α} {f : α → Except ε β} {c : β} (h : (x >>= f) = .ok c) :
    ∃ a, x = .ok a ∧ f a = .ok c := by
  cases x with
  | ok a => exact ⟨a, rfl, h⟩
  | error e => cases h

/-! ## Up to an error -/

/-- `x` stopped with a bad error, or it is `y`. -/
def Upto (bad : ε → Prop) (x y : Except ε α) : Prop := (∃ e, x = .error e ∧ bad e) ∨ x = y

theorem Upto.refl (x : Except ε α) : Upto bad x x := .inr rfl

theorem Upto.of_bad {e : ε} (h : bad e) (y : Except ε α) : Upto bad (.error e) y := .inl ⟨e, rfl, h⟩

theorem Upto.ok {a : α} {x y : Except ε α} (h : Upto bad x y) (hx : x = .ok a) : y = .ok a := by
  rcases h with ⟨e, rfl, -⟩ | rfl
  · cases hx
  · exact hx

theorem Upto.eq_of_ne {x y : Except ε α} (h : Upto (· = b) x y) (hne : x ≠ .error b) : y = x := by
  rcases h with ⟨e, rfl, rfl⟩ | rfl
  · exact absurd rfl hne
  · rfl

theorem Upto.bind {x y : Except ε α} {f g : α → Except ε β} (hx : Upto bad x y) (hf : ∀ a, Upto bad (f a) (g a)) :
    Upto bad (x >>= f) (y >>= g) := by
  rcases hx with ⟨e, rfl, he⟩ | rfl
  · exact .inl ⟨e, rfl, he⟩
  · cases x with
    | ok a => exact hf a
    | error e => exact .refl _

/-! ## Loops over a list -/

/-- Runs a computation on each item of a list. -/
def mapAll (f : α → Except ε β) : List α → Except ε (List β)
  | [] => .ok []
  | x :: xs => do
    let y ← f x
    let ys ← mapAll f xs
    return y :: ys

/-- Runs a computation on each item of a list and joins the lists it returns. -/
def collect (f : α → Except ε (List β)) (xs : List α) : Except ε (List β) := do
  let yss ← mapAll f xs
  return yss.flatten

theorem Upto.mapAll {f g : α → Except ε β} (xs : List α) (h : ∀ x ∈ xs, Upto bad (f x) (g x)) :
    Upto bad (mapAll f xs) (mapAll g xs) := by
  induction xs with
  | nil => exact .refl _
  | cons x xs ih =>
    exact (h x List.mem_cons_self).bind fun ys =>
      (ih fun y hy => h y (List.mem_cons_of_mem _ hy)).bind fun zs => .refl _

theorem Upto.collect {f g : α → Except ε (List β)} (xs : List α) (h : ∀ x ∈ xs, Upto bad (f x) (g x)) :
    Upto bad (collect f xs) (collect g xs) := (Upto.mapAll xs h).bind fun _ => .refl _

theorem mapAll_ok {f : α → Except ε β} {xs : List α} {ys : List β} (h : mapAll f xs = .ok ys) :
    List.Forall₂ (fun x y => f x = .ok y) xs ys := by
  induction xs generalizing ys with
  | nil => cases h; exact .nil
  | cons x xs ih =>
    obtain ⟨y, hx, h⟩ := except_bind_eq_ok h
    obtain ⟨ys', hxs, h⟩ := except_bind_eq_ok h
    cases h
    exact .cons hx (ih hxs)

theorem mapAll_of_forall {f : α → Except ε β} {xs : List α} (h : ∀ x ∈ xs, ∃ y, f x = .ok y) :
    ∃ ys, mapAll f xs = .ok ys := by
  induction xs with
  | nil => exact ⟨[], rfl⟩
  | cons x xs ih =>
    obtain ⟨y, hy⟩ := h x List.mem_cons_self
    obtain ⟨ys, hys⟩ := ih fun z hz => h z (List.mem_cons_of_mem _ hz)
    exact ⟨y :: ys, by rw [mapAll, hy, hys]; rfl⟩

theorem forall₂_mem_left {R : α → β → Prop} {xs : List α} {ys : List β} (h : List.Forall₂ R xs ys) {x : α}
    (hx : x ∈ xs) : ∃ y ∈ ys, R x y := by
  induction h with
  | nil => cases hx
  | @cons x' y xs ys hxy _ ih =>
    rcases List.mem_cons.1 hx with rfl | hx
    · exact ⟨y, List.mem_cons_self, hxy⟩
    · obtain ⟨z, hz, hR⟩ := ih hx
      exact ⟨z, List.mem_cons_of_mem _ hz, hR⟩

theorem forall₂_mem_right {R : α → β → Prop} {xs : List α} {ys : List β} (h : List.Forall₂ R xs ys) {y : β}
    (hy : y ∈ ys) : ∃ x ∈ xs, R x y := forall₂_mem_left h.flip hy

theorem forall₂_getElem? {R : α → β → Prop} {xs : List α} {ys : List β} (h : List.Forall₂ R xs ys) {i : ℕ} {x : α}
    {y : β} (hx : xs[i]? = some x) (hy : ys[i]? = some y) : R x y := by
  induction h generalizing i with
  | nil => simp at hx
  | cons hxy _ ih =>
    cases i with
    | zero =>
      simp only [List.getElem?_cons_zero, Option.some.injEq] at hx hy
      exact hx ▸ hy ▸ hxy
    | succ i => exact ih hx hy

theorem mapAll_mem {f : α → Except ε β} {xs : List α} {ys : List β} (h : mapAll f xs = .ok ys) {x : α} (hx : x ∈ xs) :
    ∃ y ∈ ys, f x = .ok y := forall₂_mem_left (mapAll_ok h) hx

theorem mapAll_mem_result {f : α → Except ε β} {xs : List α} {ys : List β} (h : mapAll f xs = .ok ys) {y : β}
    (hy : y ∈ ys) : ∃ x ∈ xs, f x = .ok y := forall₂_mem_right (mapAll_ok h) hy

theorem mem_collect {f : α → Except ε (List β)} {xs : List α} {zs : List β} (h : collect f xs = .ok zs) (z : β) :
    z ∈ zs ↔ ∃ x ∈ xs, ∃ ys, f x = .ok ys ∧ z ∈ ys := by
  obtain ⟨yss, hm, h⟩ := except_bind_eq_ok h
  cases h
  rw [List.mem_flatten]
  constructor
  · rintro ⟨ys, hys, hz⟩
    obtain ⟨x, hx, hf⟩ := mapAll_mem_result hm hys
    exact ⟨x, hx, ys, hf, hz⟩
  · rintro ⟨x, hx, ys, hf, hz⟩
    obtain ⟨ys', hys', hf'⟩ := mapAll_mem hm hx
    rw [hf] at hf'
    cases hf'
    exact ⟨ys, hys', hz⟩

theorem collect_ok {f : α → Except ε (List β)} {xs : List α} {zs : List β} (h : collect f xs = .ok zs) :
    ∀ x ∈ xs, ∃ ys, f x = .ok ys := by
  obtain ⟨yss, hm, -⟩ := except_bind_eq_ok h
  intro x hx
  obtain ⟨ys, -, hf⟩ := mapAll_mem hm hx
  exact ⟨ys, hf⟩

theorem collect_cons {f : α → Except ε (List β)} {x : α} {xs : List α} {zs : List β} (h : collect f (x :: xs) = .ok zs) :
    ∃ ys ws, f x = .ok ys ∧ collect f xs = .ok ws ∧ zs = ys ++ ws := by
  obtain ⟨yss, hall, h⟩ := except_bind_eq_ok h
  obtain ⟨ys, hys, hall⟩ := except_bind_eq_ok hall
  obtain ⟨wss, hwss, hall⟩ := except_bind_eq_ok hall
  cases hall
  cases h
  exact ⟨ys, wss.flatten, hys, by rw [collect, hwss]; rfl, rfl⟩

theorem collect_map {γ : Type} (f : β → Except ε (List γ)) (g : α → β) (xs : List α) :
    collect f (xs.map g) = collect (fun x => f (g x)) xs := by
  have hall : mapAll f (xs.map g) = mapAll (fun x => f (g x)) xs := by
    induction xs with
    | nil => rfl
    | cons x xs ih => rw [List.map_cons, mapAll, mapAll, ih]
  rw [collect, collect, hall]

/-- Computations that all return join what they return. -/
theorem collect_eq {f : α → Except ε (List β)} (g : α → List β) {xs : List α} (h : ∀ x ∈ xs, f x = .ok (g x)) :
    collect f xs = .ok (xs.flatMap g) := by
  have hmap : mapAll f xs = .ok (xs.map g) := by
    induction xs with
    | nil => rfl
    | cons x xs ih =>
      rw [List.forall_mem_cons] at h
      rw [mapAll, h.1, except_bind_ok, ih h.2]
      rfl
  rw [collect, hmap]
  rfl

/-! ## More fuel -/

/-- More fuel changes nothing but the error `b` of having too little. -/
def Grows (b : ε) (x : ℕ → Except ε α) : Prop := ∀ n m, n ≤ m → Upto (· = b) (x n) (x m)

/-- For some fuel the computation does not stop with `b`. -/
def Ends (b : ε) (x : ℕ → Except ε α) : Prop := ∃ n, x n ≠ .error b

theorem Grows.ok_unique {x : ℕ → Except ε α} (h : Grows b x) {n m : ℕ} {a a' : α} (hn : x n = .ok a)
    (hm : x m = .ok a') : a = a' := by
  rcases Nat.le_total n m with hle | hle
  · exact Except.ok.inj (((h n m hle).ok hn).symm.trans hm)
  · exact Except.ok.inj (hn.symm.trans ((h m n hle).ok hm))

theorem Grows.const (x : Except ε α) : Grows b (fun _ => x) := fun _ _ _ => .refl _

theorem Grows.bind {x : ℕ → Except ε α} {f : ℕ → α → Except ε β} (hx : Grows b x)
    (hf : ∀ a, Grows b (fun n => f n a)) : Grows b (fun n => x n >>= f n) :=
  fun n m hnm => (hx n m hnm).bind fun a => hf a n m hnm

theorem Grows.mapAll {f : ℕ → α → Except ε β} (xs : List α) (h : ∀ x ∈ xs, Grows b (fun n => f n x)) :
    Grows b (fun n => mapAll (f n) xs) := fun n m hnm => .mapAll xs fun x hx => h x hx n m hnm

theorem Ends.const {x : Except ε α} (h : x ≠ .error b) : Ends b (fun _ => x) := ⟨0, h⟩

theorem Ends.ok (a : α) : Ends b (fun _ => (.ok a : Except ε α)) := .const (by simp)

theorem Ends.of_ok {x : ℕ → Except ε α} {n : ℕ} {a : α} (h : x n = .ok a) : Ends b x := ⟨n, by rw [h]; simp⟩

theorem Ends.bind {x : ℕ → Except ε α} {f : ℕ → α → Except ε β} (hx : Grows b x)
    (hf : ∀ a, Grows b (fun n => f n a)) (he : Ends b x) (hef : ∀ n a, x n = .ok a → Ends b (fun n => f n a)) :
    Ends b (fun n => x n >>= f n) := by
  obtain ⟨n, hn⟩ := he
  cases hxn : x n with
  | error e =>
    rw [hxn] at hn
    refine ⟨n, ?_⟩
    dsimp only
    rw [hxn, except_bind_error]
    simpa using hn
  | ok a =>
    obtain ⟨m, hm⟩ := hef n a hxn
    refine ⟨max n m, ?_⟩
    have hx' := (hx n _ (Nat.le_max_left n m)).ok hxn
    have hf' := (hf a m _ (Nat.le_max_right n m)).eq_of_ne hm
    dsimp only at hf' ⊢
    rw [hx', except_bind_ok, hf']
    exact hm

theorem Ends.mapAll {f : ℕ → α → Except ε β} (xs : List α) (hg : ∀ x ∈ xs, Grows b (fun n => f n x))
    (h : ∀ x ∈ xs, Ends b (fun n => f n x)) : Ends b (fun n => mapAll (f n) xs) := by
  induction xs with
  | nil => exact .ok _
  | cons x xs ih =>
    have hg' : ∀ y ∈ xs, Grows b (fun n => f n y) := fun y hy => hg y (List.mem_cons_of_mem _ hy)
    refine .bind (hg x List.mem_cons_self) (fun ys => (Grows.mapAll xs hg').bind fun _ => .const _)
      (h x List.mem_cons_self) fun _ ys _ => ?_
    exact .bind (.mapAll xs hg') (fun _ => .const _) (ih hg' fun y hy => h y (List.mem_cons_of_mem _ hy))
      fun _ zs _ => .ok _

theorem Ends.collect {f : ℕ → α → Except ε (List β)} (xs : List α) (hg : ∀ x ∈ xs, Grows b (fun n => f n x))
    (h : ∀ x ∈ xs, Ends b (fun n => f n x)) : Ends b (fun n => collect (f n) xs) :=
  .bind (.mapAll xs hg) (fun _ => .const _) (.mapAll xs hg h) fun _ _ _ => .ok _

/-- A recursion that spends one fuel on its first step. -/
theorem Ends.succ {x : ℕ → Except ε α} (h : Ends b (fun n => x (n + 1))) : Ends b x := by
  obtain ⟨n, hn⟩ := h
  exact ⟨n + 1, hn⟩

/-- For some fuel the computation returns, and `P` holds of whatever it returns. -/
def Returns (run : ℕ → Except ε α) (P : α → Prop) : Prop :=
  (∃ fuel a, run fuel = .ok a) ∧ ∀ fuel a, run fuel = .ok a → P a

/-- One result is enough. -/
theorem Returns.of_ok {run : ℕ → Except ε α} (hgrows : Grows b run) {P : α → Prop} {n : ℕ} {a : α}
    (h : run n = .ok a) (ha : P a) : Returns run P :=
  ⟨⟨n, a, h⟩, fun _ _ h' => hgrows.ok_unique h h' ▸ ha⟩

theorem Returns.mono {run : ℕ → Except ε α} {P Q : α → Prop} (h : Returns run P) (hPQ : ∀ a, P a → Q a) :
    Returns run Q := ⟨h.1, fun fuel a ha => hPQ a (h.2 fuel a ha)⟩

theorem Returns.bind {run : ℕ → Except ε α} {f : ℕ → α → Except ε β} (hrun : Grows b run)
    (hf : ∀ a, Grows b (fun n => f n a)) {P : α → Prop} {Q : β → Prop} (h : Returns run P)
    (hnext : ∀ a, P a → Returns (fun n => f n a) Q) : Returns (fun n => run n >>= f n) Q := by
  constructor
  · obtain ⟨n, a, ha⟩ := h.1
    obtain ⟨m, c, hc⟩ := (hnext a (h.2 n a ha)).1
    refine ⟨max n m, c, ?_⟩
    have ha' := (hrun n _ (Nat.le_max_left n m)).ok ha
    have hc' := (hf a m _ (Nat.le_max_right n m)).ok hc
    dsimp only at hc' ⊢
    rw [ha', except_bind_ok, hc']
  · intro n c hc
    obtain ⟨a, ha, hc⟩ := except_bind_eq_ok hc
    exact (hnext a (h.2 n a ha)).2 n c hc

theorem Returns.ok {P : α → Prop} {a : α} (h : P a) : Returns (fun _ => (Except.ok a : Except ε α)) P :=
  ⟨⟨0, a, rfl⟩, fun _ _ ha => Except.ok.inj ha ▸ h⟩

end LainLang.Lib
