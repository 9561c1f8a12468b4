import Mathlib.Order.FixedPoints
import Mathlib.Order.CompletePartialOrder
import Mathlib.Data.Finset.Card
import Mathlib.Data.Set.Lattice
/-!
# Saturating a list

`saturate` lets each rule in turn add what it derives from the items found so
far and goes round until a round adds nothing. Over a finite universe it ends
(`saturate_ends`), and where the rules read the items found as monotone
operators read a set, its items are the least set that contains the first ones
and is closed under the operators (`saturate_eq_lfp`).
-/

namespace LainLang.Lib

variable {α ρ : Type} [DecidableEq α]

/-- Whether the item is new, and the list with it. -/
def addNew (db : List α) (x : α) : Bool × List α := if x ∈ db then (false, db) else (true, db ++ [x])

/-- Adds each item and remembers whether one was new. -/
def addAll : List α → Bool × List α → Bool × List α
  | [], state => state
  | x :: xs, (changed, db) => addAll xs (changed || (addNew db x).1, (addNew db x).2)

/-- One round of the rules. -/
def sweep (fire : ρ → List α → List α) : List ρ → Bool × List α → Bool × List α
  | [], state => state
  | r :: rules, state => sweep fire rules (addAll (fire r state.2) state)

/-- Fires the rules until they add nothing; `none` where the fuel ran out before. -/
def saturate (fire : ρ → List α → List α) (rules : List ρ) : ℕ → List α → Option (List α)
  | 0, _ => none
  | fuel + 1, db =>
    match sweep fire rules (false, db) with
    | (true, db') => saturate fire rules fuel db'
    | (false, db') => some db'

/-! ## One item, one list, one round -/

@[simp] theorem mem_addNew {db : List α} {x y : α} : y ∈ (addNew db x).2 ↔ y ∈ db ∨ y = x := by
  unfold addNew
  split
  · rename_i h
    constructor
    · exact .inl
    · rintro (hy | rfl)
      · exact hy
      · exact h
  · simp

@[simp] theorem addNew_old {db : List α} {x : α} (h : x ∈ db) : addNew db x = (false, db) := if_pos h

@[simp] theorem addNew_new {db : List α} {x : α} (h : x ∉ db) : addNew db x = (true, db ++ [x]) := if_neg h

theorem mem_addAll {xs : List α} {state : Bool × List α} {y : α} :
    y ∈ (addAll xs state).2 ↔ y ∈ state.2 ∨ y ∈ xs := by
  induction xs generalizing state with
  | nil => simp [addAll]
  | cons x xs ih => rw [addAll, ih, mem_addNew, List.mem_cons, or_assoc]

omit [DecidableEq α] in
/-- A loop that adds to a list what each item of another one contributes. -/
theorem mem_foldl_iff {β : Type} {add : List α → β → List α} {adds : β → Prop} {y : α}
    (h : ∀ acc b, y ∈ add acc b ↔ y ∈ acc ∨ adds b) {bs : List β} {acc : List α} :
    y ∈ bs.foldl add acc ↔ y ∈ acc ∨ ∃ b ∈ bs, adds b := by
  induction bs generalizing acc with
  | nil => simp
  | cons b bs ih => simp [ih, h, or_assoc]

/-- The flag stays down if and only if nothing was new, and then nothing changes. -/
theorem addAll_unchanged {xs : List α} {state : Bool × List α} :
    (addAll xs state).1 = false ↔ state.1 = false ∧ ∀ x ∈ xs, x ∈ state.2 := by
  induction xs generalizing state with
  | nil => simp [addAll]
  | cons x xs ih =>
    rw [addAll, ih, List.forall_mem_cons]
    by_cases hx : x ∈ state.2
    · simp [hx]
    · simp [hx]

theorem addAll_eq {xs : List α} {state : Bool × List α} (h : (addAll xs state).1 = false) :
    addAll xs state = state := by
  induction xs generalizing state with
  | nil => rfl
  | cons x xs ih =>
    obtain ⟨-, hold⟩ := addAll_unchanged.1 h
    rw [addAll, addNew_old (hold x List.mem_cons_self), Bool.or_false] at h ⊢
    exact ih h

section sweep
variable (fire : ρ → List α → List α) (rules : List ρ)

theorem sweep_grows (state : Bool × List α) : state.2 ⊆ (sweep fire rules state).2 := by
  induction rules generalizing state with
  | nil => exact List.Subset.refl _
  | cons r rules ih => exact fun x hx => ih _ (mem_addAll.2 (.inl hx))

variable {fire rules}

/-- A round that changes nothing shows that the items are closed under every rule. -/
theorem sweep_unchanged {state : Bool × List α} (h : (sweep fire rules state).1 = false) :
    sweep fire rules state = state ∧ ∀ r ∈ rules, ∀ x ∈ fire r state.2, x ∈ state.2 := by
  induction rules generalizing state with
  | nil => exact ⟨rfl, by simp⟩
  | cons r rules ih =>
    rw [sweep] at h ⊢
    obtain ⟨heq, hclosed⟩ := ih h
    rw [heq] at h ⊢
    have hsame := addAll_eq h
    rw [hsame] at h hclosed ⊢
    refine ⟨rfl, List.forall_mem_cons.2 ⟨?_, hclosed⟩⟩
    exact (addAll_unchanged.1 (hsame.symm ▸ h)).2

theorem sweep_changed {state : Bool × List α} (h : (sweep fire rules state).1 = true) (h0 : state.1 = false) :
    ∃ x ∈ (sweep fire rules state).2, x ∉ state.2 := by
  induction rules generalizing state with
  | nil => simp [sweep, h0] at h
  | cons r rules ih =>
    rw [sweep] at h ⊢
    cases hadd : (addAll (fire r state.2) state).1 with
    | false =>
      obtain ⟨x, hx, hnew⟩ := ih h hadd
      rw [addAll_eq hadd] at hnew
      exact ⟨x, hx, hnew⟩
    | true =>
      have hnone : ¬ ∀ x ∈ fire r state.2, x ∈ state.2 := fun hall => by
        rw [addAll_unchanged.2 ⟨h0, hall⟩] at hadd
        cases hadd
      simp only [not_forall] at hnone
      obtain ⟨x, hx, hnew⟩ := hnone
      exact ⟨x, sweep_grows _ _ _ (mem_addAll.2 (.inr hx)), hnew⟩

/-- What the rules keep on every list that contains the first items. -/
def Kept (fire : ρ → List α → List α) (rules : List ρ) (first : List α) (P : α → Prop) : Prop :=
  ∀ r ∈ rules, ∀ db, first ⊆ db → (∀ x ∈ db, P x) → ∀ x ∈ fire r db, P x

theorem sweep_sound {P : α → Prop} {first : List α} (hrule : Kept fire rules first P) {state : Bool × List α}
    (hfirst : first ⊆ state.2) (h : ∀ x ∈ state.2, P x) : ∀ x ∈ (sweep fire rules state).2, P x := by
  induction rules generalizing state with
  | nil => exact h
  | cons r rules ih =>
    obtain ⟨hr, hrules⟩ := List.forall_mem_cons.1 hrule
    refine ih hrules (fun x hx => mem_addAll.2 (.inl (hfirst hx))) fun x hx => ?_
    rcases mem_addAll.1 hx with hx | hx
    · exact h x hx
    · exact hr state.2 hfirst h x hx

end sweep

/-! ## The rounds -/

section saturate
variable {fire : ρ → List α → List α} {rules : List ρ} {n : ℕ} {edb db : List α}

/-- A run is a round that changes nothing, or one that changes something and a run. -/
theorem saturate_succ (h : saturate fire rules (n + 1) edb = some db) :
    (sweep fire rules (false, edb)).1 = false ∧ db = edb ∨ saturate fire rules n (sweep fire rules (false, edb)).2 = some db := by
  rw [saturate] at h
  cases hsweep : sweep fire rules (false, edb) with
  | mk changed db' =>
    rw [hsweep] at h
    cases changed with
    | true => exact .inr h
    | false =>
      cases h
      have heq := (sweep_unchanged (by rw [hsweep])).1.symm.trans hsweep
      exact .inl ⟨rfl, (congrArg Prod.snd heq).symm⟩

theorem saturate_unique {m : ℕ} {db' : List α} (h : saturate fire rules n edb = some db)
    (h' : saturate fire rules m edb = some db') : db = db' := by
  induction n generalizing edb m with
  | zero => cases h
  | succ n ih =>
    cases m with
    | zero => cases h'
    | succ m =>
      rw [saturate] at h h'
      cases hsweep : sweep fire rules (false, edb) with
      | mk changed next =>
        rw [hsweep] at h h'
        cases changed with
        | true => exact ih h h'
        | false => exact Option.some.inj (h.symm.trans h')

/-- The result contains the first items and is closed under the rules. -/
theorem saturate_closed (h : saturate fire rules n edb = some db) :
    edb ⊆ db ∧ ∀ r ∈ rules, ∀ x ∈ fire r db, x ∈ db := by
  induction n generalizing edb with
  | zero => cases h
  | succ n ih =>
    rcases saturate_succ h with ⟨hsweep, rfl⟩ | h
    · exact ⟨List.Subset.refl _, (sweep_unchanged hsweep).2⟩
    · obtain ⟨hsub, hclosed⟩ := ih h
      exact ⟨List.Subset.trans (sweep_grows fire rules (false, edb)) hsub, hclosed⟩

theorem saturate_sound {P : α → Prop} {first : List α} (hrule : Kept fire rules first P) (hfirst : first ⊆ edb)
    (hedb : ∀ x ∈ edb, P x) (h : saturate fire rules n edb = some db) : ∀ x ∈ db, P x := by
  induction n generalizing edb with
  | zero => cases h
  | succ n ih =>
    rcases saturate_succ h with ⟨-, rfl⟩ | h
    · exact hedb
    · exact ih (List.Subset.trans hfirst (sweep_grows fire rules (false, edb))) (sweep_sound hrule hfirst hedb) h

/-- Each round that changes something finds one more item of the universe. -/
theorem saturate_ends (U : Finset α) (hU : Kept fire rules [] (· ∈ U)) (hedb : ∀ x ∈ edb, x ∈ U) :
    ∃ n db, saturate fire rules n edb = some db := by
  induction hk : (U.filter (· ∉ edb)).card using Nat.strongRecOn generalizing edb with
  | ind k ih =>
    have hgrows := sweep_grows fire rules (false, edb)
    have hnext : ∀ x ∈ (sweep fire rules (false, edb)).2, x ∈ U := sweep_sound hU (List.nil_subset _) hedb
    have hchanged := @sweep_changed _ _ _ fire rules (false, edb)
    cases hsweep : sweep fire rules (false, edb) with
    | mk changed db' =>
      rw [hsweep] at hgrows hnext hchanged
      cases changed with
      | false => exact ⟨1, db', by rw [saturate, hsweep]⟩
      | true =>
        obtain ⟨x, hx, hnew⟩ := hchanged rfl rfl
        have hsub : U.filter (· ∉ db') ⊆ U.filter (· ∉ edb) := fun y hy => by
          obtain ⟨hyU, hy⟩ := Finset.mem_filter.1 hy
          exact Finset.mem_filter.2 ⟨hyU, fun hold => hy (hgrows hold)⟩
        have hfewer : (U.filter (· ∉ db')).card < k := by
          rw [← hk]
          apply Finset.card_lt_card
          rw [Finset.ssubset_iff_of_subset hsub]
          exact ⟨x, Finset.mem_filter.2 ⟨hnext x hx, hnew⟩, by simp [hx]⟩
        obtain ⟨n, db, h⟩ := ih _ hfewer hnext rfl
        exact ⟨n + 1, db, by rw [saturate, hsweep]; exact h⟩

end saturate

/-! ## The least closed set -/

/-- What the first items and the rules' operators give, as one operator. -/
def closure (edb : Set α) (R : ρ → Set α →o Set α) (rules : Set ρ) : Set α →o Set α where
  toFun X := edb ∪ ⋃ r ∈ rules, R r X
  monotone' _ _ h := Set.union_subset_union_right _ (Set.biUnion_mono subset_rfl fun r _ => (R r).monotone h)

omit [DecidableEq α] in
theorem closure_le {edb X : Set α} {R : ρ → Set α →o Set α} {rules : Set ρ} :
    closure edb R rules X ≤ X ↔ edb ⊆ X ∧ ∀ r ∈ rules, R r X ⊆ X := by
  change edb ∪ ⋃ r ∈ rules, R r X ⊆ X ↔ _
  simp

omit [DecidableEq α] in
/-- Rules can be run in two stages if the first stage's find nothing more in the
result of the second. -/
theorem lfp_closure_union {edb : Set α} {R : ρ → Set α →o Set α} {A B : Set ρ}
    (hA : ∀ r ∈ A, R r (closure (closure edb R A).lfp R B).lfp ⊆ R r (closure edb R A).lfp) :
    (closure edb R (A ∪ B)).lfp = (closure (closure edb R A).lfp R B).lfp := by
  have hclosed : ∀ (first : Set α) (C : Set ρ), first ⊆ (closure first R C).lfp ∧
      ∀ r ∈ C, R r (closure first R C).lfp ⊆ (closure first R C).lfp :=
    fun first C => closure_le.1 (closure first R C).map_lfp.le
  obtain ⟨hedb, hfirst⟩ := hclosed edb A
  obtain ⟨hstage, hsecond⟩ := hclosed (closure edb R A).lfp B
  obtain ⟨hall, hrules⟩ := hclosed edb (A ∪ B)
  apply Set.Subset.antisymm
  · refine (closure edb R (A ∪ B)).lfp_le (closure_le.2 ⟨hedb.trans hstage, fun r hr => ?_⟩)
    rcases hr with hr | hr
    · exact (hA r hr).trans ((hfirst r hr).trans hstage)
    · exact hsecond r hr
  · have hle : (closure edb R A).lfp ⊆ (closure edb R (A ∪ B)).lfp :=
      (closure edb R A).lfp_le (closure_le.2 ⟨hall, fun r hr => hrules r (.inl hr)⟩)
    exact (closure (closure edb R A).lfp R B).lfp_le (closure_le.2 ⟨hle, fun r hr => hrules r (.inr hr)⟩)

/-- Where every rule derives from the items found what its operator derives
from their set, the result is the least closed set. -/
theorem saturate_eq_lfp {fire : ρ → List α → List α} {rules : List ρ} {R : ρ → Set α →o Set α} {n : ℕ} {edb db : List α}
    (hfire : ∀ r ∈ rules, ∀ db : List α, edb ⊆ db → {x | x ∈ db} ⊆ (closure {x | x ∈ edb} R {r | r ∈ rules}).lfp →
      {x | x ∈ fire r db} = R r {x | x ∈ db})
    (h : saturate fire rules n edb = some db) : {x | x ∈ db} = (closure {x | x ∈ edb} R {r | r ∈ rules}).lfp := by
  obtain ⟨F, hF⟩ : ∃ F, F = closure {x | x ∈ edb} R {r | r ∈ rules} := ⟨_, rfl⟩
  rw [← hF] at hfire ⊢
  have hle : F F.lfp ≤ F.lfp := F.map_lfp.le
  rw [hF, closure_le, ← hF] at hle
  obtain ⟨hedb, hclosed⟩ := hle
  have hkept : Kept fire rules edb (· ∈ F.lfp) := fun r hr db hsub hdb x hx => by
    have hx' : x ∈ R r {x | x ∈ db} := hfire r hr db hsub hdb ▸ hx
    exact hclosed r hr ((R r).monotone hdb hx')
  have hsound : {x | x ∈ db} ⊆ F.lfp := saturate_sound hkept (List.Subset.refl _) hedb h
  obtain ⟨hsub, hfired⟩ := saturate_closed h
  refine hsound.antisymm (F.lfp_le (hF ▸ closure_le.2 ⟨hsub, fun r hr => ?_⟩))
  rw [← hfire r hr db hsub hsound]
  exact hfired r hr

end LainLang.Lib
