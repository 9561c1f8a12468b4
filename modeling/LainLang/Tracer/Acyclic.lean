import LainLang.Tracer.Unify
/-!
# Where the kernel ends

The kernel walks a substitution until it finds no more bindings, so it ends on
a substitution under which every term settles. Binding a variable to a term it
does not occur in keeps that, and `unify` with that check before each binding
always ends: each step either leaves the substitution alone or binds one more
of the finitely many variables at hand.
-/
open LainLang.Lib LainLang.Js

namespace LainLang.Tracer

/-! ## More fuel, fewer checks -/

/-- The first binder is the second one up to bad stops and more fuel. -/
def BinderUpto (bad : Stop → Prop) (bind bind' : Binder) : Prop :=
  ∀ n m, n ≤ m → ∀ v t s, Upto bad (bind n v t s) (bind' m v t s)

section upto
variable {bad : Stop → Prop} {n m : ℕ}

theorem resolve_var_upto (hbad : bad .outOfFuel) (hnm : n ≤ m) (t : Term) (s : Substitution) :
    Upto bad (resolve_var n t s) (resolve_var m t s) := by
  induction n generalizing m t with
  | zero => exact .of_bad hbad _
  | succ n ih =>
    obtain ⟨m, rfl⟩ := Nat.exists_eq_add_one.2 (by omega : 0 < m)
    rw [resolve_var, resolve_var]
    split
    · exact ih (by omega) _
    · exact .refl _

theorem substitute_upto (hbad : bad .outOfFuel) (hnm : n ≤ m) (t : Term) (s : Substitution) :
    Upto bad (substitute n t s) (substitute m t s) := by
  induction n generalizing m t with
  | zero => exact .of_bad hbad _
  | succ n ih =>
    obtain ⟨m, rfl⟩ := Nat.exists_eq_add_one.2 (by omega : 0 < m)
    rw [substitute, substitute]
    refine (resolve_var_upto hbad (by omega) t s).bind fun a => ?_
    cases a with
    | atom a => exact .refl _
    | arr items => exact (Upto.mapAll _ fun x _ => ih (by omega) x).bind fun _ => .refl _
    | obj fields =>
      refine (Upto.mapAll _ fun e _ => ?_).bind fun _ => .refl _
      exact (ih (by omega) e.2).bind fun _ => .refl _

theorem unifyAll_upto {unify unify' : Term → Term → Substitution → Run (Option Substitution)}
    (h : ∀ l r s, Upto bad (unify l r s) (unify' l r s)) (pairs : List (Term × Term)) (s : Substitution) :
    Upto bad (unifyAll unify pairs s) (unifyAll unify' pairs s) := by
  induction pairs generalizing s with
  | nil => exact .refl _
  | cons p pairs ih =>
    refine (h p.1 p.2 s).bind fun result => ?_
    cases result with
    | none => exact .refl _
    | some s' => exact ih s'

theorem unifyResolved_upto {bind bind' : JsNumber → Term → Substitution → Run Substitution}
    {unify unify' : Term → Term → Substitution → Run (Option Substitution)}
    (hbind : ∀ v t s, Upto bad (bind v t s) (bind' v t s)) (hunify : ∀ l r s, Upto bad (unify l r s) (unify' l r s))
    (a b : Term) (s : Substitution) : Upto bad (unifyResolved bind unify a b s) (unifyResolved bind' unify' a b s) := by
  rw [unifyResolved, unifyResolved]
  cases is_logic_var a with
  | some v =>
    cases is_logic_var b with
    | some w =>
      dsimp only
      split
      · exact .refl _
      · exact (hbind v b s).bind fun _ => .refl _
    | none => exact (hbind v b s).bind fun _ => .refl _
  | none =>
    cases is_logic_var b with
    | some w => exact (hbind w a s).bind fun _ => .refl _
    | none =>
      dsimp only
      split
      · exact unifyAll_upto hunify _ s
      · exact .refl _

theorem unifyWith_upto {bind bind' : Binder} (hbad : bad .outOfFuel) (hbind : BinderUpto bad bind bind') (hnm : n ≤ m)
    (l r : Term) (s : Substitution) : Upto bad (unifyWith bind n l r s) (unifyWith bind' m l r s) := by
  induction n generalizing m l r s with
  | zero => exact .of_bad hbad _
  | succ n ih =>
    obtain ⟨m, rfl⟩ := Nat.exists_eq_add_one.2 (by omega : 0 < m)
    have hle : n ≤ m := by omega
    rw [unifyWith, unifyWith]
    refine (resolve_var_upto hbad hle l s).bind fun a => (resolve_var_upto hbad hle r s).bind fun b => ?_
    exact unifyResolved_upto (hbind n m hle) (ih hle) a b s

end upto

theorem resolve_var_grows (t : Term) (s : Substitution) : Grows .outOfFuel (fun n => resolve_var n t s) :=
  fun n m hnm => @resolve_var_upto (· = .outOfFuel) n m rfl hnm t s

theorem substitute_grows (t : Term) (s : Substitution) : Grows .outOfFuel (fun n => substitute n t s) :=
  fun n m hnm => @substitute_upto (· = .outOfFuel) n m rfl hnm t s

/-! ## Terms that settle -/

/-- What the kernel descends into. -/
def children : Term → List Term
  | .atom _ => []
  | .arr items => items
  | .obj fields => (ownEntries fields).map Prod.snd

theorem sizeOf_children {t x : Term} (hx : x ∈ children t) : sizeOf x < sizeOf t := by
  cases t with
  | atom a => cases hx
  | arr items =>
    have hmem : sizeOf x < sizeOf items := List.sizeOf_lt_of_mem hx
    simp only [Term.arr.sizeOf_spec]
    omega
  | obj fields =>
    obtain ⟨e, he, rfl⟩ := List.mem_map.1 hx
    obtain ⟨k, u⟩ := e
    have hmem := List.sizeOf_lt_of_mem (field_mem (mem_ownEntries.1 he))
    simp only [Term.obj.sizeOf_spec, Prod.mk.sizeOf_spec] at hmem ⊢
    omega

theorem mem_children_of_childPairs {a b : Term} {pairs : List (Term × Term)} (h : childPairs a b = some pairs)
    {p : Term × Term} (hp : p ∈ pairs) : p.1 ∈ children a ∧ p.2 ∈ children b := by
  unfold childPairs at h
  split at h
  · split at h
    · cases h
    · cases h
      exact ⟨(List.of_mem_zip hp).1, (List.of_mem_zip hp).2⟩
  · rename_i f g
    dsimp only at h
    split at h
    · cases h
    · split at h
      · cases h
      · rename_i hsub
        cases h
        obtain ⟨key, hkey, rfl⟩ := List.mem_map.1 hp
        obtain ⟨t, ht⟩ := field_isSome.1 (mem_ownKeys.1 hkey)
        obtain ⟨u, hu⟩ := field_isSome.1 (mem_ownKeys.1 (Decidable.not_not.1 hsub key hkey))
        simp only [ht, hu, Option.getD_some, children, List.mem_map]
        exact ⟨⟨(key, t), mem_ownEntries.2 ht, rfl⟩, ⟨(key, u), mem_ownEntries.2 hu, rfl⟩⟩
  · split at h <;> cases h
    cases hp
  · cases h

/-- With fuel `n` the bindings of `s` can be put into the term. -/
def Settles (s : Substitution) (n : ℕ) (t : Term) : Prop := ∃ t', substitute n t s = .ok t'

/-- Every term settles. -/
def Acyclic (s : Substitution) : Prop := ∀ t, ∃ n, Settles s n t

theorem Settles.mono {s : Substitution} {n m : ℕ} {t : Term} (h : Settles s n t) (hnm : n ≤ m) : Settles s m t := by
  obtain ⟨t', ht'⟩ := h
  exact ⟨t', (substitute_grows t s n m hnm).ok ht'⟩

theorem settles_succ {s : Substitution} {n : ℕ} {t : Term} :
    Settles s (n + 1) t ↔ ∃ a, resolve_var n t s = .ok a ∧ ∀ x ∈ children a, Settles s n x := by
  constructor
  · rintro ⟨t', ht'⟩
    rw [substitute] at ht'
    obtain ⟨a, ha, ht'⟩ := except_bind_eq_ok ht'
    refine ⟨a, ha, fun x hx => ?_⟩
    cases a with
    | atom a => cases hx
    | arr items =>
      obtain ⟨xs, hxs, -⟩ := except_bind_eq_ok ht'
      obtain ⟨x', -, hx'⟩ := mapAll_mem hxs hx
      exact ⟨x', hx'⟩
    | obj fields =>
      obtain ⟨es, hes, -⟩ := except_bind_eq_ok ht'
      obtain ⟨e, he, rfl⟩ := List.mem_map.1 hx
      obtain ⟨e', -, he'⟩ := mapAll_mem hes he
      obtain ⟨u, hu, -⟩ := except_bind_eq_ok he'
      exact ⟨u, hu⟩
  · rintro ⟨a, ha, hall⟩
    simp only [Settles, substitute, ha, except_bind_ok]
    cases a with
    | atom a => exact ⟨_, rfl⟩
    | arr items =>
      obtain ⟨xs, hxs⟩ := mapAll_of_forall hall
      exact ⟨.arr xs, by dsimp only [children] at hxs ⊢; rw [hxs]; rfl⟩
    | obj fields =>
      have hfields : ∀ e ∈ ownEntries fields, ∃ e', (do return (e.1, ← substitute n e.2 s) : Run (String × Term)) = .ok e' := by
        intro e he
        obtain ⟨u, hu⟩ := hall e.2 (List.mem_map_of_mem he)
        exact ⟨(e.1, u), by rw [hu]; rfl⟩
      obtain ⟨es, hes⟩ := mapAll_of_forall hfields
      exact ⟨.obj es, by dsimp only; rw [hes]; rfl⟩

/-- One amount of fuel for all items of a list. -/
theorem settles_all {s : Substitution} {xs : List Term} (h : ∀ x ∈ xs, ∃ n, Settles s n x) :
    ∃ n, ∀ x ∈ xs, Settles s n x := by
  induction xs with
  | nil => exact ⟨0, by simp⟩
  | cons x xs ih =>
    obtain ⟨n, hn⟩ := h x List.mem_cons_self
    obtain ⟨m, hm⟩ := ih fun y hy => h y (List.mem_cons_of_mem _ hy)
    refine ⟨max n m, fun y hy => ?_⟩
    rcases List.mem_cons.1 hy with rfl | hy
    · exact hn.mono (Nat.le_max_left n m)
    · exact (hm y hy).mono (Nat.le_max_right n m)

theorem settles_of_resolve {s : Substitution} {n : ℕ} {t a : Term} (ha : resolve_var n t s = .ok a)
    (h : ∀ x ∈ children a, ∃ m, Settles s m x) : ∃ m, Settles s m t := by
  obtain ⟨m, hm⟩ := settles_all h
  refine ⟨max n m + 1, settles_succ.2 ⟨a, (resolve_var_grows t s n _ (Nat.le_max_left n m)).ok ha, fun x hx => ?_⟩⟩
  exact (hm x hx).mono (Nat.le_max_right n m)

theorem acyclic_empty : Acyclic OrdMap.empty := by
  intro t
  induction h : sizeOf t using Nat.strongRecOn generalizing t with
  | ind n ih =>
    subst h
    refine settles_of_resolve (n := 1) (a := t) ?_ fun x hx => ih _ (sizeOf_children hx) x rfl
    rw [resolve_var]
    cases is_logic_var t <;> rfl

/-! ## The occurs check -/

/-- Whether an unbound variable occurs in a term once the bindings are put in. -/
def occurs : ℕ → JsNumber → Term → Substitution → Run Bool
  | 0, _, _, _ => .error .outOfFuel
  | fuel + 1, v, term, subst => do
    let a ← resolve_var fuel term subst
    if is_logic_var a = some v then return true
    return (← mapAll (fun x => occurs fuel v x subst) (children a)).any id

/-- `bind_var` that stops where the variable occurs in its value. -/
def bind_checked : Binder := fun fuel v value subst => do
  if ← occurs fuel v value subst then .error .cyclic
  return bind_var v value subst

theorem occurs_upto {bad : Stop → Prop} (hbad : bad .outOfFuel) {n m : ℕ} (hnm : n ≤ m) (v : JsNumber) (t : Term)
    (s : Substitution) : Upto bad (occurs n v t s) (occurs m v t s) := by
  induction n generalizing m t with
  | zero => exact .of_bad hbad _
  | succ n ih =>
    obtain ⟨m, rfl⟩ := Nat.exists_eq_add_one.2 (by omega : 0 < m)
    rw [occurs, occurs]
    refine (resolve_var_upto hbad (by omega) t s).bind fun a => ?_
    split
    · exact .refl _
    · exact (Upto.mapAll _ fun x _ => ih (by omega) x).bind fun _ => .refl _

theorem bind_checked_upto {bad : Stop → Prop} (hbad : bad .outOfFuel) : BinderUpto bad bind_checked bind_checked :=
  fun _ _ hnm v t s => (occurs_upto hbad hnm v t s).bind fun _ => .refl _

theorem bind_checked_ok {n : ℕ} {v : JsNumber} {t : Term} {s s' : Substitution} (h : bind_checked n v t s = .ok s') :
    s' = bind_var v t s ∧ occurs n v t s = .ok false := by
  obtain ⟨found, hf, h⟩ := except_bind_eq_ok h
  cases found with
  | true => cases h
  | false => cases h; exact ⟨rfl, hf⟩

theorem bind_unchecked_upto {bad : Stop → Prop} : BinderUpto bad bind_unchecked bind_unchecked :=
  fun _ _ _ _ _ _ => .refl _

/-- The check only takes results away. -/
theorem bind_checked_upto_unchecked : BinderUpto (fun _ => True) bind_checked bind_unchecked := by
  intro k _ _ v t s
  cases h : bind_checked k v t s with
  | error e => exact .of_bad trivial _
  | ok s' => rw [(bind_checked_ok h).1]; exact .refl _

theorem occurs_of_settles {s : Substitution} {n : ℕ} {t : Term} (h : Settles s n t) (v : JsNumber) :
    ∃ found, occurs n v t s = .ok found := by
  induction n generalizing t with
  | zero => obtain ⟨t', ht'⟩ := h; cases ht'
  | succ n ih =>
    obtain ⟨a, ha, hall⟩ := settles_succ.1 h
    rw [occurs, ha, except_bind_ok]
    split
    · exact ⟨true, rfl⟩
    · obtain ⟨bs, hbs⟩ := mapAll_of_forall fun x hx => ih (hall x hx)
      exact ⟨bs.any id, by rw [hbs]; rfl⟩

/-! ## Binding keeps a substitution acyclic -/

section binding
variable {s : Substitution} {v : JsNumber} {u : Term} (hv : s.get? v = none)
include hv

theorem resolve_var_bind_var {n : ℕ} {t a : Term} (h : resolve_var n t s = .ok a) (ha : is_logic_var a ≠ some v) :
    resolve_var n t (bind_var v u s) = .ok a := by
  induction n generalizing t with
  | zero => cases h
  | succ n ih =>
    rw [resolve_var] at h ⊢
    cases ht : is_logic_var t with
    | none =>
      simp only [ht, Option.bind_none] at h ⊢
      exact h
    | some w =>
      by_cases hw : w = v
      · subst hw
        simp only [ht, Option.bind_some, hv] at h
        cases h
        exact absurd ht ha
      · simp only [ht, Option.bind_some, bind_var, OrdMap.get?_set, if_neg hw] at h ⊢
        split at h
        · exact ih h
        · exact h

/-- A chain that ended at the variable goes on to its value. -/
theorem resolve_var_through {n m : ℕ} {t a c : Term} (h : resolve_var n t s = .ok a) (ha : is_logic_var a = some v)
    (hc : resolve_var m u (bind_var v u s) = .ok c) : resolve_var (n + m) t (bind_var v u s) = .ok c := by
  induction n generalizing t with
  | zero => cases h
  | succ n ih =>
    rw [Nat.succ_add, resolve_var]
    rw [resolve_var] at h
    split at h
    · rename_i bound hb
      obtain ⟨w, hw, hg⟩ := Option.bind_eq_some_iff.1 hb
      have hne : w ≠ v := by rintro rfl; rw [hv] at hg; cases hg
      simp only [hw, Option.bind_some, bind_var, OrdMap.get?_set, if_neg hne, hg]
      exact ih h
    · cases h
      simp only [ha, Option.bind_some, bind_var, OrdMap.get?_set]
      exact (resolve_var_grows u _ m (n + m) (by omega)).ok hc

/-- A term without the variable settles as before. -/
theorem settles_of_not_occurs {n : ℕ} {t : Term} (h : occurs n v t s = .ok false) :
    Settles (bind_var v u s) n t := by
  induction n generalizing t with
  | zero => cases h
  | succ n ih =>
    rw [occurs] at h
    obtain ⟨a, ha, h⟩ := except_bind_eq_ok h
    split at h
    · cases h
    · rename_i hne
      obtain ⟨bs, hbs, h⟩ := except_bind_eq_ok h
      have hnone : ∀ b ∈ bs, b = false := by simpa using Except.ok.inj h
      refine settles_succ.2 ⟨a, resolve_var_bind_var hv ha hne, fun x hx => ih ?_⟩
      obtain ⟨b, hb, hx⟩ := mapAll_mem hbs hx
      rw [hx, hnone b hb]

theorem acyclic_bind_var {k : ℕ} (hs : Acyclic s) (hu : occurs k v u s = .ok false) : Acyclic (bind_var v u s) := by
  intro t
  obtain ⟨n, hn⟩ := hs t
  induction n generalizing t with
  | zero => obtain ⟨t', ht'⟩ := hn; cases ht'
  | succ n ih =>
    obtain ⟨a, ha, hall⟩ := settles_succ.1 hn
    by_cases hav : is_logic_var a = some v
    · have hsettled : Settles (bind_var v u s) k u := settles_of_not_occurs hv hu
      cases k with
      | zero => obtain ⟨u', hu'⟩ := hsettled; cases hu'
      | succ k =>
        obtain ⟨c, hc, hchildren⟩ := settles_succ.1 hsettled
        exact settles_of_resolve (resolve_var_through hv ha hav hc) fun x hx => ⟨k, hchildren x hx⟩
    · exact settles_of_resolve (resolve_var_bind_var hv ha hav) fun x hx => ih x (hall x hx)

end binding

/-! ## The variables at hand -/

/-- Every variable in the term is one of `vars`. -/
inductive Over (vars : List JsNumber) : Term → Prop where
  | intro {t : Term} (root : ∀ v, is_logic_var t = some v → v ∈ vars) (children : ∀ x ∈ children t, Over vars x) :
    Over vars t

theorem Over.mono {vars vars' : List JsNumber} (hsub : ∀ v ∈ vars, v ∈ vars') {t : Term} (h : Over vars t) :
    Over vars' t := by
  induction h with
  | intro root _ ih => exact ⟨fun v hv => hsub v (root v hv), ih⟩

theorem Over.append_left {vars : List JsNumber} {t : Term} (h : Over vars t) (more : List JsNumber) :
    Over (more ++ vars) t := h.mono fun _ hv => List.mem_append_right more hv

theorem Over.append_right {vars : List JsNumber} {t : Term} (h : Over vars t) (more : List JsNumber) :
    Over (vars ++ more) t := h.mono fun _ hv => List.mem_append_left more hv

theorem Over.child {vars : List JsNumber} {t x : Term} (h : Over vars t) (hx : x ∈ children t) : Over vars x := by
  cases h with
  | intro _ children => exact children x hx

theorem Over.root_mem {vars : List JsNumber} {t : Term} (h : Over vars t) {v : JsNumber} (hv : is_logic_var t = some v) :
    v ∈ vars := by
  cases h with
  | intro root _ => exact root v hv

theorem exists_over_all {xs : List Term} (h : ∀ x ∈ xs, ∃ vars, Over vars x) : ∃ vars, ∀ x ∈ xs, Over vars x := by
  induction xs with
  | nil => exact ⟨[], by simp⟩
  | cons x xs ih =>
    obtain ⟨vars, hx⟩ := h x List.mem_cons_self
    obtain ⟨more, hxs⟩ := ih fun y hy => h y (List.mem_cons_of_mem _ hy)
    refine ⟨vars ++ more, fun y hy => ?_⟩
    rcases List.mem_cons.1 hy with rfl | hy
    · exact hx.append_right more
    · exact (hxs y hy).append_left vars

theorem exists_over (t : Term) : ∃ vars, Over vars t := by
  induction h : sizeOf t using Nat.strongRecOn generalizing t with
  | ind n ih =>
    subst h
    obtain ⟨vars, hvars⟩ := exists_over_all fun x hx => ih _ (sizeOf_children hx) x rfl
    refine ⟨(is_logic_var t).toList ++ vars, ⟨fun v hv => by simp [hv], fun x hx => (hvars x hx).append_left _⟩⟩

/-- An acyclic substitution whose values are over `vars`. -/
structure Within (vars : List JsNumber) (s : Substitution) : Prop where
  acyclic : Acyclic s
  values : ∀ v u, s.get? v = some u → Over vars u

theorem exists_within {s : Substitution} (hs : Acyclic s) (l r : Term) :
    ∃ vars, Within vars s ∧ Over vars l ∧ Over vars r := by
  obtain ⟨vl, hl⟩ := exists_over l
  obtain ⟨vr, hr⟩ := exists_over r
  obtain ⟨vs, hvs⟩ := exists_over_all fun x (_ : x ∈ s.values) => exists_over x
  refine ⟨vs ++ (vl ++ vr), ⟨hs, fun v u h => ?_⟩, ?_, ?_⟩
  · exact (hvs u ((s.mem_values_iff u).2 ⟨v, h⟩)).append_right _
  · exact (hl.append_right vr).append_left vs
  · exact (hr.append_left vl).append_left vs

theorem Within.resolve_var {vars : List JsNumber} {s : Substitution} (hs : Within vars s) {n : ℕ} {t a : Term}
    (h : resolve_var n t s = .ok a) (ht : Over vars t) : Over vars a := by
  induction n generalizing t with
  | zero => cases h
  | succ n ih =>
    rw [Tracer.resolve_var] at h
    split at h
    · rename_i bound hb
      obtain ⟨w, -, hg⟩ := Option.bind_eq_some_iff.1 hb
      exact ih h (hs.values w bound hg)
    · cases h
      exact ht

/-- How many of the variables are unbound. -/
def unbound (vars : List JsNumber) (s : Substitution) : ℕ := (vars.filter fun v => (s.get? v).isNone).length

theorem unbound_bind_var {vars : List JsNumber} {s : Substitution} {v : JsNumber} (hmem : v ∈ vars)
    (hv : s.get? v = none) (u : Term) : unbound vars (bind_var v u s) < unbound vars s := by
  have hfilter : vars.filter (fun w => ((bind_var v u s).get? w).isNone) =
      (vars.filter fun w => (s.get? w).isNone).filter fun w => ((bind_var v u s).get? w).isNone := by
    rw [List.filter_filter]
    refine List.filter_congr fun w _ => ?_
    by_cases hw : w = v
    · simp [bind_var, hw]
    · simp [bind_var, hw]
  rw [unbound, unbound, hfilter, List.length_filter_lt_length_iff_exists]
  exact ⟨v, by simp [hmem, hv], by simp [bind_var]⟩

/-! ## `unify` with the check -/

/-- `unify` with the occurs check that the code leaves out. -/
def unify_checked (fuel : ℕ) (left right : Term) (subst : Substitution) : Run (Option Substitution) :=
  unifyWith bind_checked fuel left right subst

theorem unify_checked_grows (l r : Term) (s : Substitution) : Grows .outOfFuel (fun n => unify_checked n l r s) :=
  fun n m hnm => @unifyWith_upto (· = .outOfFuel) n m _ _ rfl (bind_checked_upto rfl) hnm l r s

theorem unifyAll_checked_grows (pairs : List (Term × Term)) (s : Substitution) :
    Grows .outOfFuel (fun n => unifyAll (unify_checked n) pairs s) :=
  fun n m hnm => unifyAll_upto (fun l r s => unify_checked_grows l r s n m hnm) pairs s

/-- What a run of the checked `unify` makes of a substitution: the same one, or
one with fewer unbound variables. -/
structure Progress (vars : List JsNumber) (s s' : Substitution) : Prop where
  within : Within vars s'
  bound : s' = s ∨ unbound vars s' < unbound vars s

theorem Progress.refl {vars : List JsNumber} {s : Substitution} (hs : Within vars s) : Progress vars s s :=
  ⟨hs, .inl rfl⟩

theorem Progress.trans {vars : List JsNumber} {s s' s'' : Substitution} (h : Progress vars s s')
    (h' : Progress vars s' s'') : Progress vars s s'' := by
  refine ⟨h'.within, ?_⟩
  rcases h.bound with rfl | hlt
  · exact h'.bound
  · rcases h'.bound with rfl | hlt'
    · exact .inr hlt
    · exact .inr (by omega)

theorem bind_progress {vars : List JsNumber} {s : Substitution} (hs : Within vars s) {n : ℕ} {v : JsNumber} {t : Term}
    {result : Option Substitution} (hv : s.get? v = none) (hmem : v ∈ vars) (ht : Over vars t)
    (h : (do return some (← bind_checked n v t s) : Run (Option Substitution)) = Except.ok result) :
    ∀ s', result = some s' → Progress vars s s' := by
  obtain ⟨s', hs', h⟩ := except_bind_eq_ok h
  obtain ⟨rfl, hocc⟩ := bind_checked_ok hs'
  cases h
  rintro _ ⟨⟩
  refine ⟨⟨acyclic_bind_var hv hs.acyclic hocc, fun w u hw => ?_⟩, .inr (unbound_bind_var hmem hv t)⟩
  simp only [bind_var, OrdMap.get?_set] at hw
  split at hw
  · cases hw; exact ht
  · exact hs.values w u hw

theorem unifyAll_progress {vars : List JsNumber} {unify : Term → Term → Substitution → Run (Option Substitution)}
    (hu : ∀ l r s s', Within vars s → Over vars l → Over vars r → unify l r s = .ok (some s') → Progress vars s s')
    {pairs : List (Term × Term)} (hpairs : ∀ p ∈ pairs, Over vars p.1 ∧ Over vars p.2) {s s' : Substitution}
    (hs : Within vars s) (h : unifyAll unify pairs s = .ok (some s')) : Progress vars s s' := by
  induction pairs generalizing s with
  | nil => cases h; exact .refl hs
  | cons p pairs ih =>
    obtain ⟨first, hfirst, h⟩ := except_bind_eq_ok h
    cases first with
    | none => cases h
    | some current =>
      have hp := hpairs p List.mem_cons_self
      have hcurrent := hu p.1 p.2 s current hs hp.1 hp.2 hfirst
      exact hcurrent.trans (ih (fun q hq => hpairs q (List.mem_cons_of_mem _ hq)) hcurrent.within h)

theorem unify_checked_progress {vars : List JsNumber} {n : ℕ} {l r : Term} {s s' : Substitution} (hs : Within vars s)
    (hl : Over vars l) (hr : Over vars r) (h : unify_checked n l r s = .ok (some s')) : Progress vars s s' := by
  induction n generalizing l r s s' with
  | zero => cases h
  | succ n ih =>
    rw [unify_checked, unifyWith] at h
    obtain ⟨a, ha, h⟩ := except_bind_eq_ok h
    obtain ⟨b, hb, h⟩ := except_bind_eq_ok h
    rw [unifyResolved] at h
    have hoverA := hs.resolve_var ha hl
    have hoverB := hs.resolve_var hb hr
    cases hva : is_logic_var a with
    | some v =>
      have hv := resolve_var_unbound ha hva
      have hmem : v ∈ vars := hoverA.root_mem hva
      cases hvb : is_logic_var b with
      | some w =>
        simp only [hva, hvb] at h
        split at h
        · cases h; exact .refl hs
        · exact bind_progress hs hv hmem hoverB h s' rfl
      | none =>
        simp only [hva, hvb] at h
        exact bind_progress hs hv hmem hoverB h s' rfl
    | none =>
      cases hvb : is_logic_var b with
      | some w =>
        simp only [hva, hvb] at h
        have hmem : w ∈ vars := hoverB.root_mem hvb
        exact bind_progress hs (resolve_var_unbound hb hvb) hmem hoverA h s' rfl
      | none =>
        simp only [hva, hvb] at h
        split at h
        · rename_i pairs hpairs
          refine unifyAll_progress (fun l r s s' hs hl hr => ih hs hl hr) (fun p hp => ?_) hs h
          have hmem := mem_children_of_childPairs hpairs hp
          exact ⟨hoverA.child hmem.1, hoverB.child hmem.2⟩
        · cases h

/-- The checked `unify` keeps a substitution acyclic. -/
theorem unify_checked_acyclic {n : ℕ} {l r : Term} {s s' : Substitution} (hs : Acyclic s)
    (h : unify_checked n l r s = .ok (some s')) : Acyclic s' := by
  obtain ⟨vars, hw, hl, hr⟩ := exists_within hs l r
  exact (unify_checked_progress hw hl hr h).within.acyclic

theorem unifyAll_checked_acyclic {n : ℕ} {pairs : List (Term × Term)} {s s' : Substitution} (hs : Acyclic s)
    (h : unifyAll (unify_checked n) pairs s = .ok (some s')) : Acyclic s' := by
  induction pairs generalizing s with
  | nil => cases h; exact hs
  | cons p pairs ih =>
    obtain ⟨first, hfirst, h⟩ := except_bind_eq_ok h
    cases first with
    | none => cases h
    | some current => exact ih (unify_checked_acyclic hs hfirst) h

/-! ## The checked `unify` ends -/

theorem resolve_var_ends {s : Substitution} (hs : Acyclic s) (t : Term) : Ends .outOfFuel (fun n => resolve_var n t s) := by
  obtain ⟨n, hn⟩ := hs t
  cases n with
  | zero => obtain ⟨t', ht'⟩ := hn; cases ht'
  | succ n =>
    obtain ⟨a, ha, -⟩ := settles_succ.1 hn
    exact .of_ok ha

theorem bind_checked_ends {s : Substitution} (hs : Acyclic s) (v : JsNumber) (t : Term) :
    Ends .outOfFuel (fun n => bind_checked n v t s) := by
  obtain ⟨n, hn⟩ := hs t
  obtain ⟨found, hf⟩ := occurs_of_settles hn v
  refine ⟨n, ?_⟩
  simp only [bind_checked, hf, except_bind_ok]
  cases found <;> simp [pure, Except.pure, bind, Except.bind]

theorem bind_checked_some_ends {s : Substitution} (hs : Acyclic s) (v : JsNumber) (t : Term) :
    Ends .outOfFuel (fun n => (do return some (← bind_checked n v t s) : Run (Option Substitution))) :=
  .bind (fun n m hnm => @bind_checked_upto (· = .outOfFuel) rfl n m hnm v t s) (fun _ => .const _)
    (bind_checked_ends hs v t) fun _ _ _ => .ok _

/-- A list of pairs, when each pair ends under every substitution that has as
few unbound variables. -/
theorem unifyAll_checked_ends {vars : List JsNumber} {s : Substitution} {pairs : List (Term × Term)}
    (hpairs : ∀ p ∈ pairs, Over vars p.1 ∧ Over vars p.2) (hs : Within vars s)
    (hsame : ∀ p ∈ pairs, Ends .outOfFuel (fun n => unify_checked n p.1 p.2 s))
    (hfewer : ∀ s', Within vars s' → unbound vars s' < unbound vars s → ∀ l r, Over vars l → Over vars r →
      Ends .outOfFuel (fun n => unify_checked n l r s')) :
    Ends .outOfFuel (fun n => unifyAll (unify_checked n) pairs s) := by
  induction pairs generalizing s with
  | nil => exact .ok _
  | cons p pairs ih =>
    have hp := hpairs p List.mem_cons_self
    have hrest : ∀ q ∈ pairs, Over vars q.1 ∧ Over vars q.2 := fun q hq => hpairs q (List.mem_cons_of_mem _ hq)
    refine .bind (unify_checked_grows p.1 p.2 s) (fun result => ?_) (hsame p List.mem_cons_self) fun n result h => ?_
    · cases result with
      | none => exact .const _
      | some s' => exact unifyAll_checked_grows pairs s'
    · cases result with
      | none => exact .ok _
      | some s' =>
        have hprogress := unify_checked_progress hs hp.1 hp.2 h
        rcases hprogress.bound with rfl | hlt
        · exact ih hrest hs (fun q hq => hsame q (List.mem_cons_of_mem _ hq)) hfewer
        · refine ih hrest hprogress.within (fun q hq => ?_) fun s'' hs'' hlt' => hfewer s'' hs'' (by omega)
          exact hfewer s' hprogress.within hlt q.1 q.2 (hrest q hq).1 (hrest q hq).2

/-- The induction is on the unbound variables and, under one substitution, on
the fuel with which the left term settles. -/
theorem unify_checked_ends {s : Substitution} (hs : Acyclic s) (l r : Term) :
    Ends .outOfFuel (fun n => unify_checked n l r s) := by
  obtain ⟨vars, hw, hl, hr⟩ := exists_within hs l r
  clear hs
  induction hk : unbound vars s using Nat.strongRecOn generalizing s l r with
  | ind k ihk =>
    subst hk
    obtain ⟨h, hh⟩ := hw.acyclic l
    induction h generalizing l r with
    | zero => obtain ⟨t', ht'⟩ := hh; cases ht'
    | succ h ihh =>
      obtain ⟨a, ha, hchildren⟩ := settles_succ.1 hh
      have hresolved : ∀ a b, Grows .outOfFuel (fun n => unifyResolved (bind_checked n) (unify_checked n) a b s) :=
        fun a b n m hnm => unifyResolved_upto (@bind_checked_upto (· = .outOfFuel) rfl n m hnm)
          (fun l r s => unify_checked_grows l r s n m hnm) a b s
      refine .succ (.bind (resolve_var_grows l s) (fun a => ?_) (resolve_var_ends hw.acyclic l) fun n a' ha' => ?_)
      · exact .bind (resolve_var_grows r s) fun b => hresolved a b
      · obtain rfl := (resolve_var_grows l s).ok_unique ha ha'
        refine .bind (resolve_var_grows r s) (fun b => hresolved a b) (resolve_var_ends hw.acyclic r) fun m b hb => ?_
        have hoverA := hw.resolve_var ha hl
        have hoverB := hw.resolve_var hb hr
        simp only [unifyResolved]
        cases is_logic_var a with
        | some v =>
          cases is_logic_var b with
          | some w =>
            dsimp only
            split
            · exact .ok _
            · exact bind_checked_some_ends hw.acyclic v b
          | none => exact bind_checked_some_ends hw.acyclic v b
        | none =>
          cases is_logic_var b with
          | some w => exact bind_checked_some_ends hw.acyclic w a
          | none =>
            cases hpairs : childPairs a b with
            | none => exact .ok _
            | some pairs =>
              have hmem := fun p (hp : p ∈ pairs) => mem_children_of_childPairs hpairs hp
              have hover : ∀ p ∈ pairs, Over vars p.1 ∧ Over vars p.2 := fun p hp =>
                ⟨hoverA.child (hmem p hp).1, hoverB.child (hmem p hp).2⟩
              refine unifyAll_checked_ends hover hw (fun p hp => ?_) fun s' hs' hlt l' r' hl' hr' => ?_
              · exact ihh p.1 p.2 (hover p hp).1 (hover p hp).2 (hchildren p.1 (hmem p hp).1)
              · exact ihk _ hlt l' r' hs' hl' hr' rfl

theorem unifyAll_ends {s : Substitution} (hs : Acyclic s) (pairs : List (Term × Term)) :
    Ends .outOfFuel (fun n => unifyAll (unify_checked n) pairs s) := by
  induction pairs generalizing s with
  | nil => exact .ok _
  | cons p pairs ih =>
    refine .bind (unify_checked_grows p.1 p.2 s) (fun result => ?_) (unify_checked_ends hs p.1 p.2) fun n result h => ?_
    · cases result with
      | none => exact .const _
      | some s' => exact unifyAll_checked_grows pairs s'
    · cases result with
      | none => exact .ok _
      | some s' => exact ih (unify_checked_acyclic hs h)

end LainLang.Tracer
