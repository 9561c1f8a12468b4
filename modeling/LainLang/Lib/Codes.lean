import Mathlib.Data.List.Forall2
/-!
# Texts told from what follows

A value is told apart by its text when no other value has a text that agrees with
it, whatever stop symbols stand behind them. Lists of such values, separated and
closed by symbols, are told apart as well.
-/

namespace LainLang.Lib

variable {σ α : Type}

/-- Nothing follows, or a stop symbol does. -/
def Stops (stop : σ → Prop) (rest : List σ) : Prop := ∀ c ∈ rest.head?, stop c

/-- Texts of `x` and `y` agree, with rests behind them, only if the values and the
rests do. -/
def ToldApart (stop : σ → Prop) (code : α → List σ) (same : α → α → Prop) (x y : α) : Prop :=
  ∀ r s, Stops stop r → Stops stop s → code x ++ r = code y ++ s → same x y ∧ r = s

theorem Stops.cons {stop : σ → Prop} {c : σ} (h : stop c) (rest : List σ) : Stops stop (c :: rest) := by
  intro d hd
  obtain rfl := Option.some.inj hd
  exact h

theorem Stops.nil {stop : σ → Prop} : Stops stop [] := fun _ h => absurd h (by simp)

theorem Stops.append {stop : σ → Prop} {r k : List σ} (hr : Stops stop r) (hk : Stops stop k) : Stops stop (r ++ k) := by
  cases r with
  | nil => exact hk
  | cons c r => exact .cons (hr c rfl) (r ++ k)

theorem Stops.of_append {stop : σ → Prop} {r k : List σ} (h : Stops stop (r ++ k)) : Stops stop r := by
  cases r with
  | nil => exact .nil
  | cons c r => exact .cons (h c rfl) r

/-- Two texts without stop symbols, cut where the stop symbols begin. -/
theorem append_inj_of_stops {stop : σ → Prop} {a b r s : List σ} (ha : ∀ c ∈ a, ¬stop c) (hb : ∀ c ∈ b, ¬stop c)
    (hr : Stops stop r) (hs : Stops stop s) (h : a ++ r = b ++ s) : a = b ∧ r = s := by
  induction a generalizing b with
  | nil =>
    cases b with
    | nil => exact ⟨rfl, h⟩
    | cons d b =>
      subst h
      exact absurd (hr d rfl) (hb d List.mem_cons_self)
  | cons c a ih =>
    cases b with
    | nil =>
      rw [List.nil_append] at h
      subst h
      exact absurd (hs c rfl) (ha c List.mem_cons_self)
    | cons d b =>
      simp only [List.cons_append, List.cons.injEq] at h
      obtain ⟨rfl, htail⟩ := h
      obtain ⟨rfl, hrest⟩ :=
        ih (fun e he => ha e (List.mem_cons_of_mem _ he)) (fun e he => hb e (List.mem_cons_of_mem _ he)) htail
      exact ⟨rfl, hrest⟩

/-- The text of a value is not empty and starts with another symbol than `close`. -/
def Opens (code : α → List σ) (close : σ) (x : α) : Prop := ∃ c ∈ (code x).head?, c ≠ close

theorem Opens.append_ne {code : α → List σ} {close : σ} {x : α} (h : Opens code close x) (r s : List σ) :
    code x ++ r ≠ close :: s := by
  obtain ⟨c, hc, hne⟩ := h
  cases hx : code x with
  | nil => simp [hx] at hc
  | cons d l =>
    rw [hx] at hc
    obtain rfl := Option.some.inj hc
    intro heq
    exact hne (List.cons.inj heq).1

/-- Texts one after another, with a symbol that closes them. -/
theorem flatMap_inj {code : α → List σ} {same : α → α → Prop} {close : σ} {xs ys : List α}
    (hxs : ∀ x ∈ xs, Opens code close x) (hys : ∀ y ∈ ys, Opens code close y)
    (h : ∀ x ∈ xs, ∀ y ∈ ys, ToldApart (fun _ => True) code same x y) {r s : List σ}
    (heq : xs.flatMap code ++ close :: r = ys.flatMap code ++ close :: s) : List.Forall₂ same xs ys ∧ r = s := by
  induction xs generalizing ys with
  | nil =>
    cases ys with
    | nil => exact ⟨.nil, (List.cons.inj heq).2⟩
    | cons y ys =>
      rw [List.flatMap_cons, List.append_assoc] at heq
      exact absurd heq.symm ((hys y List.mem_cons_self).append_ne _ _)
  | cons x xs ih =>
    rw [List.flatMap_cons, List.append_assoc] at heq
    cases ys with
    | nil => exact absurd heq ((hxs x List.mem_cons_self).append_ne _ _)
    | cons y ys =>
      rw [List.flatMap_cons, List.append_assoc] at heq
      obtain ⟨hxy, htail⟩ := h x List.mem_cons_self y List.mem_cons_self _ _ (fun _ _ => trivial) (fun _ _ => trivial) heq
      obtain ⟨hrest, hrs⟩ := ih (fun a ha => hxs a (List.mem_cons_of_mem _ ha))
        (fun a ha => hys a (List.mem_cons_of_mem _ ha))
        (fun a ha b hb => h a (List.mem_cons_of_mem _ ha) b (List.mem_cons_of_mem _ hb)) htail
      exact ⟨.cons hxy hrest, hrs⟩

/-! ## Separated lists -/

/-- What stands behind the first text of a separated list. -/
def behind (sep close : σ) (l : List (List σ)) (r : List σ) : List σ :=
  if l = [] then close :: r else sep :: ([sep].intercalate l ++ close :: r)

theorem intercalate_cons_append (sep close : σ) (a : List σ) (l : List (List σ)) (r : List σ) :
    [sep].intercalate (a :: l) ++ close :: r = a ++ behind sep close l r := by
  cases l with
  | nil => simp [behind]
  | cons b l => simp [behind, List.intercalate_cons_cons]

theorem stops_behind {stop : σ → Prop} {sep close : σ} (hsep : stop sep) (hclose : stop close) (l : List (List σ))
    (r : List σ) : Stops stop (behind sep close l r) := by
  unfold behind
  split
  · exact .cons hclose r
  · exact .cons hsep _

/-- Separated texts with a symbol that closes them. -/
theorem intercalate_inj {stop : σ → Prop} {code : α → List σ} {same : α → α → Prop} {sep close : σ} {xs ys : List α}
    (hsep : stop sep) (hclose : stop close) (hne : sep ≠ close)
    (hxs : ∀ x ∈ xs, Opens code close x) (hys : ∀ y ∈ ys, Opens code close y)
    (h : ∀ x ∈ xs, ∀ y ∈ ys, ToldApart stop code same x y) {r s : List σ}
    (heq : [sep].intercalate (xs.map code) ++ close :: r = [sep].intercalate (ys.map code) ++ close :: s) :
    List.Forall₂ same xs ys ∧ r = s := by
  induction xs generalizing ys with
  | nil =>
    cases ys with
    | nil => exact ⟨.nil, (List.cons.inj heq).2⟩
    | cons y ys =>
      rw [List.map_cons, intercalate_cons_append] at heq
      exact absurd heq.symm ((hys y List.mem_cons_self).append_ne _ _)
  | cons x xs ih =>
    rw [List.map_cons, intercalate_cons_append] at heq
    cases ys with
    | nil => exact absurd heq ((hxs x List.mem_cons_self).append_ne _ _)
    | cons y ys =>
      rw [List.map_cons, intercalate_cons_append] at heq
      obtain ⟨hxy, htail⟩ := h x List.mem_cons_self y List.mem_cons_self _ _ (stops_behind hsep hclose _ _)
        (stops_behind hsep hclose _ _) heq
      -- The separator says whether the lists go on.
      have hih := @ih ys (fun a ha => hxs a (List.mem_cons_of_mem _ ha)) (fun a ha => hys a (List.mem_cons_of_mem _ ha))
        (fun a ha b hb => h a (List.mem_cons_of_mem _ ha) b (List.mem_cons_of_mem _ hb))
      unfold behind at htail
      simp only [List.map_eq_nil_iff] at htail
      split at htail <;> split at htail
      · rename_i hx hy
        subst hx hy
        exact ⟨.cons hxy .nil, (List.cons.inj htail).2⟩
      · exact absurd (List.cons.inj htail).1.symm hne
      · exact absurd (List.cons.inj htail).1 hne
      · obtain ⟨hrest, hrs⟩ := hih (List.cons.inj htail).2
        exact ⟨.cons hxy hrest, hrs⟩

end LainLang.Lib
