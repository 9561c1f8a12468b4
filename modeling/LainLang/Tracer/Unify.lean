import LainLang.Lib.Fuel
import LainLang.Tracer.Term
/-!
# The unification kernel

`resolve_var`, `unify` and `reify` as the kernel computes them, with fuel for
their loops: nothing checks that a substitution is acyclic. Whenever `unify`
returns, its answer is a most general unifier.
-/
open LainLang.Lib LainLang.Js

namespace LainLang.Tracer

/-- Why a computation has no result. Only the checked kernel stops with `cyclic`. -/
inductive Stop where
  | outOfFuel
  | cyclic
  deriving DecidableEq

/-- Code that may run out of fuel. -/
abbrev Run := Except Stop

/-- `Map<number, unknown>`. -/
abbrev Substitution := OrdMap JsNumber Term

/-- How a variable is bound: by `bind_var`, or with a check before. -/
abbrev Binder := ℕ → JsNumber → Term → Substitution → Run Substitution

/-- Follows bindings to the end. -/
def resolve_var : ℕ → Term → Substitution → Run Term
  | 0, _, _ => .error .outOfFuel
  | fuel + 1, current, subst =>
    match (is_logic_var current).bind subst.get? with
    | some bound => resolve_var fuel bound subst
    | none => .ok current

/-- The body that `resolve` and `reify` share. -/
def substitute : ℕ → Term → Substitution → Run Term
  | 0, _, _ => .error .outOfFuel
  | fuel + 1, term, subst => do
    match ← resolve_var fuel term subst with
    | .arr items => return .arr (← mapAll (fun item => substitute fuel item subst) items)
    | .obj fields =>
      return .obj (← mapAll (fun entry => do return (entry.1, ← substitute fuel entry.2 subst)) (ownEntries fields))
    | .atom a => return .atom a

def resolve (fuel : ℕ) (term : Term) (subst : Substitution) : Run Term := substitute fuel term subst

def reify (fuel : ℕ) (term : Term) (subst : Substitution) : Run Term := substitute fuel term subst

def bind_var (v : JsNumber) (value : Term) (subst : Substitution) : Substitution := subst.set v value

/-- `bind_var`, as `unify` calls it. -/
def bind_unchecked : Binder := fun _ v value subst => .ok (bind_var v value subst)

/-- The loop over the children of two arrays or objects. -/
def unifyAll (unify : Term → Term → Substitution → Run (Option Substitution)) :
    List (Term × Term) → Substitution → Run (Option Substitution)
  | [], subst => .ok (some subst)
  | (a, b) :: pairs, subst => do
    match ← unify a b subst with
    | none => return none
    | some current => unifyAll unify pairs current

/-- The pairs of children that two terms with no variable at the root must agree
on, or `none` when the roots differ. -/
def childPairs : Term → Term → Option (List (Term × Term))
  | .arr xs, .arr ys => if xs.length ≠ ys.length then none else some (xs.zip ys)
  | .obj f, .obj g =>
    let aKeys := ownKeys f
    let bKeys := ownKeys g
    if aKeys.length ≠ bKeys.length then none
    else if ¬ ∀ key ∈ aKeys, key ∈ bKeys then none
    else some (aKeys.map fun key => ((field f key).getD .undefined, (field g key).getD .undefined))
  | .atom x, .atom y => if x = y then some [] else none
  | _, _ => none

/-- What `unify` does with its terms once both are resolved. -/
def unifyResolved (bind : JsNumber → Term → Substitution → Run Substitution)
    (unify : Term → Term → Substitution → Run (Option Substitution)) (a b : Term) (subst : Substitution) :
    Run (Option Substitution) := do
  match is_logic_var a, is_logic_var b with
  | some v, some w => if sameId v w then return subst else return (← bind v b subst)
  | some v, none => return (← bind v b subst)
  | none, some w => return (← bind w a subst)
  | none, none =>
    match childPairs a b with
    | some pairs => unifyAll unify pairs subst
    | none => return none

/-- `unify`, over how a variable is bound. -/
def unifyWith (bind : Binder) : ℕ → Term → Term → Substitution → Run (Option Substitution)
  | 0, _, _, _ => .error .outOfFuel
  | fuel + 1, left, right, subst => do
    let a ← resolve_var fuel left subst
    let b ← resolve_var fuel right subst
    unifyResolved (bind fuel) (unifyWith bind fuel) a b subst

/-- `unify` binds without an occurs check. -/
def unify (fuel : ℕ) (left right : Term) (subst : Substitution) : Run (Option Substitution) :=
  unifyWith bind_unchecked fuel left right subst

/-! ## What a substitution says -/

/-- The valuation satisfies every binding. -/
def Solves (σ : Valuation) (subst : Substitution) : Prop :=
  ∀ v t, subst.get? v = some t → Same (σ v) (eval σ t)

/-- What `unify` answers about one valuation. -/
def Answers (σ : Valuation) (subst : Substitution) (holds : Prop) : Option Substitution → Prop
  | some subst' => Solves σ subst' ↔ Solves σ subst ∧ holds
  | none => Solves σ subst → ¬ holds

/-- A resolved variable is unbound. -/
theorem resolve_var_unbound {subst : Substitution} {fuel : ℕ} {t a : Term} (h : resolve_var fuel t subst = .ok a)
    {v : JsNumber} (hv : is_logic_var a = some v) : subst.get? v = none := by
  induction fuel generalizing t with
  | zero => cases h
  | succ fuel ih =>
    rw [resolve_var] at h
    split at h
    · exact ih h
    · rename_i hn
      cases h
      rwa [hv, Option.bind_some] at hn

/-! ## Most general unifiers -/

/-- The pairs of children of two objects are those at the same keys. -/
theorem childPairs_obj {E : Term → Term → Prop} {f g : List (String × Term)} :
    ((∀ k, k ∈ f.map Prod.fst ↔ k ∈ g.map Prod.fst) ∧ ∀ k x y, field f k = some x → field g k = some y → E x y) ↔
      ∃ pairs, childPairs (.obj f) (.obj g) = some pairs ∧ ∀ p ∈ pairs, E p.1 p.2 := by
  rw [childPairs]
  split
  · rename_i hlen
    exact iff_of_false (fun h => hlen (ownKeys_length_eq h.1)) (by simp)
  · rename_i hlen
    split
    · rename_i hsub
      refine iff_of_false (fun h => hsub fun k hk => ?_) (by simp)
      exact mem_ownKeys.2 ((h.1 k).1 (mem_ownKeys.1 hk))
    · rename_i hsub
      -- As many keys and each of them a key of the other: the same keys.
      have hkeys := same_keys_of_ownKeys (Decidable.not_not.1 hlen) (Decidable.not_not.1 hsub)
      simp only [Option.some.injEq, exists_eq_left', List.forall_mem_map]
      constructor
      · rintro ⟨-, hall⟩ k hk
        obtain ⟨t, ht⟩ := field_isSome.1 (mem_ownKeys.1 hk)
        obtain ⟨u, hu⟩ := field_isSome.1 ((hkeys k).1 (mem_ownKeys.1 hk))
        simpa [ht, hu] using hall k t u ht hu
      · intro hall
        refine ⟨hkeys, fun k t u ht hu => ?_⟩
        simpa [ht, hu] using hall k (mem_ownKeys.2 (field_isSome.2 ⟨t, ht⟩))

theorem same_iff_childPairs {σ : Valuation} {a b : Term} (ha : is_logic_var a = none) (hb : is_logic_var b = none) :
    Same (eval σ a) (eval σ b) ↔ ∃ pairs, childPairs a b = some pairs ∧ ∀ p ∈ pairs, Same (eval σ p.1) (eval σ p.2) := by
  cases a with
  | atom x =>
    cases b with
    | atom y =>
      simp only [eval, same_atom_iff, childPairs]
      split <;> simp_all
    | arr ys => simp [childPairs, eval_arr, eval_atom, not_same_atom_arr]
    | obj g => simp [childPairs, eval_obj hb, eval_atom, not_same_atom_obj]
  | arr xs =>
    cases b with
    | atom y =>
      rw [Same.comm]
      simp [childPairs, eval_arr, eval_atom, not_same_atom_arr]
    | arr ys =>
      rw [same_arr_iff, childPairs]
      split <;> simp_all
    | obj g => simp [childPairs, eval_arr, eval_obj hb, not_same_arr_obj]
  | obj f =>
    cases b with
    | atom y =>
      rw [Same.comm]
      simp [childPairs, eval_obj ha, eval_atom, not_same_atom_obj]
    | arr ys =>
      rw [Same.comm]
      simp [childPairs, eval_arr, eval_obj ha, not_same_arr_obj]
    | obj g =>
      rw [same_obj_iff ha hb]
      exact childPairs_obj

/-- Values for terms: each variable has one, and other terms are equal if and only
if their children are. -/
structure Reading (V : Type) where
  same : V → V → Prop
  value : JsNumber → V
  read : Term → V
  equivalence : Equivalence same
  var : ∀ {t v}, is_logic_var t = some v → read t = value v
  children : ∀ {a b}, is_logic_var a = none → is_logic_var b = none →
    (same (read a) (read b) ↔ ∃ pairs, childPairs a b = some pairs ∧ ∀ p ∈ pairs, same (read p.1) (read p.2))

namespace Reading

variable {V : Type} (R : Reading V)

/-- Both terms read as the same. -/
def Equal (t u : Term) : Prop := R.same (R.read t) (R.read u)

/-- The values satisfy every binding. -/
def Solves (subst : Substitution) : Prop := ∀ v t, subst.get? v = some t → R.same (R.value v) (R.read t)

/-- What an answer of `unify` says of the values. -/
def Answers (subst : Substitution) (holds : Prop) : Option Substitution → Prop
  | some subst' => R.Solves subst' ↔ R.Solves subst ∧ holds
  | none => R.Solves subst → ¬ holds

variable {R}

theorem resolve_var {subst : Substitution} (hR : R.Solves subst) {fuel : ℕ} {t a : Term}
    (h : resolve_var fuel t subst = .ok a) : R.Equal t a := by
  induction fuel generalizing t with
  | zero => cases h
  | succ fuel ih =>
    rw [Tracer.resolve_var] at h
    split at h
    · rename_i bound hb
      obtain ⟨v, hv, hg⟩ := Option.bind_eq_some_iff.1 hb
      rw [Equal, R.var hv]
      exact R.equivalence.trans (hR v bound hg) (ih h)
    · cases h
      exact R.equivalence.refl _

/-- Binding an unbound variable adds one equation. -/
theorem solves_bind_var {subst : Substitution} {v : JsNumber} (hv : subst.get? v = none) (t : Term) :
    R.Solves (bind_var v t subst) ↔ R.Solves subst ∧ R.same (R.value v) (R.read t) := by
  constructor
  · intro h
    refine ⟨fun w u hw => h w u ?_, h v t (by simp [bind_var])⟩
    have hne : w ≠ v := by rintro rfl; rw [hv] at hw; cases hw
    simp [bind_var, hne, hw]
  · rintro ⟨hs, hv'⟩ w u hw
    simp only [bind_var, OrdMap.get?_set] at hw
    split at hw
    · rename_i heq
      cases hw
      exact heq ▸ hv'
    · exact hs w u hw

theorem unifyAll {unify : Term → Term → Substitution → Run (Option Substitution)}
    (hu : ∀ l r s result, unify l r s = .ok result → R.Answers s (R.Equal l r) result)
    (pairs : List (Term × Term)) (subst : Substitution) {result : Option Substitution}
    (h : unifyAll unify pairs subst = .ok result) : R.Answers subst (∀ p ∈ pairs, R.Equal p.1 p.2) result := by
  induction pairs generalizing subst with
  | nil => cases h; simp [Answers]
  | cons p pairs ih =>
    obtain ⟨first, hfirst, h⟩ := except_bind_eq_ok h
    have hp := hu p.1 p.2 subst first hfirst
    cases first with
    | none =>
      cases h
      exact fun hs hall => hp hs (hall p List.mem_cons_self)
    | some current =>
      have hrest := ih current h
      rw [Answers] at hp
      cases result with
      | none =>
        intro hs hall
        rw [List.forall_mem_cons] at hall
        exact hrest (hp.2 ⟨hs, hall.1⟩) hall.2
      | some final =>
        rw [Answers] at hrest ⊢
        rw [hrest, hp, List.forall_mem_cons, and_assoc]

theorem Answers.congr {subst : Substitution} {p q : Prop} (h : R.Solves subst → (p ↔ q)) {result : Option Substitution}
    (ha : R.Answers subst p result) : R.Answers subst q result := by
  cases result with
  | none => exact fun hs hq => ha hs ((h hs).2 hq)
  | some s' => exact ha.trans (and_congr_right h)

end Reading

/-- A binder that binds, if it returns. -/
def Binds (bind : Binder) : Prop := ∀ n v t s s', bind n v t s = .ok s' → s' = bind_var v t s

theorem binds_unchecked : Binds bind_unchecked := fun _ _ _ _ _ h => (Except.ok.inj h).symm

namespace Reading

variable {V : Type} {R : Reading V}

theorem bound {bind : Binder} (hbind : Binds bind) {v : JsNumber} {t : Term} {subst : Substitution}
    {result : Option Substitution} {fuel : ℕ} (hv : subst.get? v = none)
    (h : (do return some (← bind fuel v t subst) : Run (Option Substitution)) = Except.ok result) :
    R.Answers subst (R.same (R.value v) (R.read t)) result := by
  obtain ⟨s', hs', h⟩ := except_bind_eq_ok h
  cases h
  obtain rfl := hbind _ _ _ _ _ hs'
  exact solves_bind_var hv t

/-- The values that satisfy the answer are those that satisfied the bindings and
make the terms equal. -/
theorem unifyWith {bind : Binder} (hbind : Binds bind) {fuel : ℕ} {left right : Term} {subst : Substitution}
    {result : Option Substitution} (h : unifyWith bind fuel left right subst = .ok result) :
    R.Answers subst (R.Equal left right) result := by
  induction fuel generalizing left right subst result with
  | zero => cases h
  | succ fuel ih =>
    rw [Tracer.unifyWith] at h
    obtain ⟨a, ha, h⟩ := except_bind_eq_ok h
    obtain ⟨b, hb, h⟩ := except_bind_eq_ok h
    rw [unifyResolved] at h
    -- Values that satisfy the bindings read the resolved terms as they read the terms.
    refine Answers.congr (p := R.Equal a b) (fun hR => ?_) ?_
    · have hla := Reading.resolve_var hR ha
      have hrb := Reading.resolve_var hR hb
      exact ⟨fun hs => R.equivalence.trans (R.equivalence.trans hla hs) (R.equivalence.symm hrb),
        fun hs => R.equivalence.trans (R.equivalence.trans (R.equivalence.symm hla) hs) hrb⟩
    rw [Equal]
    cases hva : is_logic_var a with
    | some v =>
      rw [R.var hva]
      cases hvb : is_logic_var b with
      | some w =>
        simp only [hva, hvb] at h
        split at h
        · -- One variable twice.
          rename_i hsame
          cases h
          obtain rfl := sameId_eq hsame
          rw [R.var hvb]
          simp [Answers, R.equivalence.refl]
        · exact bound hbind (resolve_var_unbound ha hva) h
      | none =>
        simp only [hva, hvb] at h
        exact bound hbind (resolve_var_unbound ha hva) h
    | none =>
      cases hvb : is_logic_var b with
      | some w =>
        simp only [hva, hvb] at h
        rw [R.var hvb]
        exact Answers.congr (fun _ => ⟨R.equivalence.symm, R.equivalence.symm⟩) (bound hbind (resolve_var_unbound hb hvb) h)
      | none =>
        simp only [hva, hvb] at h
        cases hc : childPairs a b with
        | none =>
          rw [hc] at h
          cases h
          exact fun _ hs => by simpa [hc] using (R.children hva hvb).1 hs
        | some pairs =>
          rw [hc] at h
          refine Answers.congr (fun _ => ?_) (Reading.unifyAll (fun l r s result => ih) _ _ h)
          simp [R.children hva hvb, hc, Equal]

end Reading

/-! ## Terms as values -/

/-- The values that a valuation gives. -/
def values (σ : Valuation) : Reading Value where
  same := Same
  value := σ
  read := eval σ
  equivalence := ⟨Same.refl, Same.symm, Same.trans⟩
  var h := eval_var h σ
  children ha hb := same_iff_childPairs ha hb

theorem resolve_var_same {σ : Valuation} {subst : Substitution} (hσ : Solves σ subst) {fuel : ℕ} {t a : Term}
    (h : resolve_var fuel t subst = .ok a) : Same (eval σ t) (eval σ a) := @Reading.resolve_var _ (values σ) _ hσ _ _ _ h

theorem values_answers {σ : Valuation} {subst : Substitution} {holds : Prop} {result : Option Substitution} :
    (values σ).Answers subst holds result ↔ Answers σ subst holds result := by
  cases result <;> rfl

theorem unifyAll_answers {σ : Valuation} {unify : Term → Term → Substitution → Run (Option Substitution)}
    (hu : ∀ l r s result, unify l r s = .ok result → Answers σ s (Same (eval σ l) (eval σ r)) result)
    (pairs : List (Term × Term)) (subst : Substitution) {result : Option Substitution}
    (h : unifyAll unify pairs subst = .ok result) :
    Answers σ subst (∀ p ∈ pairs, Same (eval σ p.1) (eval σ p.2)) result :=
  values_answers.1 (Reading.unifyAll (fun l r s result h => values_answers.2 (hu l r s result h)) pairs subst h)

theorem unifyWith_answers {bind : Binder} (hbind : Binds bind) (σ : Valuation) {fuel : ℕ} {left right : Term}
    {subst : Substitution} {result : Option Substitution} (h : unifyWith bind fuel left right subst = .ok result) :
    Answers σ subst (Same (eval σ left) (eval σ right)) result :=
  values_answers.1 (@Reading.unifyWith _ (values σ) _ hbind _ _ _ _ _ h)

/-- Whenever `unify` returns, a substitution it gives is a most general unifier
of the terms under `s`, and `null` means that they have none. -/
theorem unify_most_general {fuel : ℕ} {l r : Term} {s : Substitution} {result : Option Substitution}
    (h : unify fuel l r s = .ok result) :
    (∀ s', result = some s' → ∀ σ, Solves σ s' ↔ Solves σ s ∧ Same (eval σ l) (eval σ r)) ∧
      (result = none → ∀ σ, Solves σ s → ¬ Same (eval σ l) (eval σ r)) := by
  have ha := fun σ => unifyWith_answers binds_unchecked σ h
  constructor
  · rintro s' rfl σ
    exact ha σ
  · rintro rfl σ
    exact ha σ

/-- `[?0, \x7ba: ?1\x7d]` where `?1` stands for `?0`. -/
def nestedLeft : Term := .arr [LogicVar.term ⟨0, none⟩, .obj [("a", LogicVar.term ⟨1, none⟩)]]

/-- A variable bound to another. -/
def nestedSubst : Substitution := OrdMap.empty.set (.ofNat 1) (LogicVar.term ⟨0, none⟩)

/-- An object with one field. -/
def nestedValue : Term := .obj [("b", .str "k")]

/-- The array unifies with `[v, \x7ba: v\x7d]` by `?0 := v`, and not with `[v, \x7ba: [?0]\x7d]`. -/
theorem unify_most_general_nested :
    (∀ σ, Solves σ (bind_var (.ofNat 0) nestedValue nestedSubst) ↔ Solves σ nestedSubst ∧
      Same (eval σ nestedLeft) (eval σ (.arr [nestedValue, .obj [("a", nestedValue)]]))) ∧
    ∀ σ, Solves σ nestedSubst →
      ¬ Same (eval σ nestedLeft) (eval σ (.arr [nestedValue, .obj [("a", .arr [LogicVar.term ⟨0, none⟩])]])) := by
  have hsome : unify 6 nestedLeft (.arr [nestedValue, .obj [("a", nestedValue)]]) nestedSubst =
      .ok (some (bind_var (.ofNat 0) nestedValue nestedSubst)) := by decide +kernel
  have hnone : unify 6 nestedLeft (.arr [nestedValue, .obj [("a", .arr [LogicVar.term ⟨0, none⟩])]]) nestedSubst =
      .ok none := by decide +kernel
  exact ⟨(unify_most_general hsome).1 _ rfl, (unify_most_general hnone).2 rfl⟩

end LainLang.Tracer
