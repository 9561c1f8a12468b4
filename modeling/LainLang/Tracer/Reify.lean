import LainLang.Tracer.Relations
/-!
# What a reified row says

An acyclic substitution has a solution, the one that reads what is left unbound
as `undefined`. A reified term is an instance pattern of its value under any
solution: filling in its variables gives the value back.
-/
open LainLang.Lib LainLang.Js

namespace LainLang.Tracer

/-! ## Agreeing item by item -/

theorem same_arr_map {α : Type} {f g : α → Value} {items : List α} (h : ∀ x ∈ items, Same (f x) (g x)) :
    Same (.arr (items.map f)) (.arr (items.map g)) := by
  refine .arr (by simp) fun i x y hx hy => ?_
  rw [List.getElem?_map, Option.map_eq_some_iff] at hx hy
  obtain ⟨a, ha, rfl⟩ := hx
  obtain ⟨b, hb, rfl⟩ := hy
  rw [ha] at hb
  cases hb
  exact h a (List.mem_of_getElem? ha)

theorem same_obj_map {α : Type} {f g : α → Value} {fields : List (String × α)}
    (h : ∀ k x, field fields k = some x → Same (f x) (g x)) :
    Same (.obj (fields.map fun e => (e.1, f e.2))) (.obj (fields.map fun e => (e.1, g e.2))) := by
  refine .obj (fun k => by simp) fun k x y hx hy => ?_
  rw [field_map, Option.map_eq_some_iff] at hx hy
  obtain ⟨a, ha, rfl⟩ := hx
  obtain ⟨b, hb, rfl⟩ := hy
  rw [ha] at hb
  cases hb
  exact h k a ha

/-- Data has the same value under every valuation. -/
theorem eval_literal {t : Term} (h : NoVars t) (σ : Valuation) : Same (eval σ t) (literal t) := by
  induction h with
  | atom a =>
    rw [eval_atom, literal]
    cases a <;> exact .refl _
  | arr _ ih =>
    rw [eval_arr, literal, fill, fillItems_eq]
    exact same_arr_map ih
  | obj root _ ih =>
    rw [eval_obj root, literal, fill, fillFields_eq]
    exact same_obj_map ih

/-! ## A solution -/

/-- The value of a term that settles, what is unbound read as `undefined`. -/
def valueUnder (s : Substitution) : ℕ → Term → Value
  | 0, _ => .atom .undefined
  | fuel + 1, t =>
    match resolve_var fuel t s with
    | .error _ => .atom .undefined
    | .ok a =>
      if (is_logic_var a).isSome then .atom .undefined
      else
        match a with
        | .atom a => .atom a
        | .arr items => .arr (items.map (valueUnder s fuel))
        | .obj fields => .obj ((ownEntries fields).map fun e => (e.1, valueUnder s fuel e.2))

/-- The value rests only on the resolved term, not on the fuel. -/
theorem valueUnder_eq {s : Substitution} {n m : ℕ} {t u : Term} (hn : Settles s n t) (hm : Settles s m u) {a : Term}
    {k l : ℕ} (ht : resolve_var k t s = .ok a) (hu : resolve_var l u s = .ok a) :
    valueUnder s n t = valueUnder s m u := by
  induction n generalizing m t u a k l with
  | zero => obtain ⟨t', ht'⟩ := hn; cases ht'
  | succ n ih =>
    cases m with
    | zero => obtain ⟨u', hu'⟩ := hm; cases hu'
    | succ m =>
      obtain ⟨b, hb, hchildren⟩ := settles_succ.1 hn
      obtain ⟨c, hc, hchildren'⟩ := settles_succ.1 hm
      obtain rfl := (resolve_var_grows t s).ok_unique ht hb
      obtain rfl := (resolve_var_grows u s).ok_unique hu hc
      have hchild : ∀ x ∈ children a, valueUnder s n x = valueUnder s m x := fun x hx => by
        obtain ⟨j, hj⟩ := hchildren x hx
        cases n with
        | zero => cases hj
        | succ n =>
          obtain ⟨d, hd, -⟩ := settles_succ.1 (hchildren x hx)
          exact ih (hchildren x hx) (hchildren' x hx) hd hd
      rw [valueUnder, valueUnder, hb, hc]
      dsimp only
      split
      · rfl
      · cases a with
        | atom a => rfl
        | arr items => exact congrArg Value.arr (List.map_congr_left hchild)
        | obj fields =>
          refine congrArg Value.obj (List.map_congr_left fun e he => ?_)
          rw [hchild e.2 (List.mem_map_of_mem he)]

/-- The solution that `valueUnder` reads off an acyclic substitution. -/
noncomputable def solution (s : Substitution) (hs : Acyclic s) : Valuation := fun v =>
  match s.get? v with
  | some u => valueUnder s (hs u).choose u
  | none => .atom .undefined

theorem eval_solution {s : Substitution} (hs : Acyclic s) {n : ℕ} {t : Term} (h : Settles s n t) :
    Same (eval (solution s hs) t) (valueUnder s n t) := by
  induction n generalizing t with
  | zero => obtain ⟨t', ht'⟩ := h; cases ht'
  | succ n ih =>
    obtain ⟨a, ha, hchildren⟩ := settles_succ.1 h
    cases hb : (is_logic_var t).bind s.get? with
    | some u =>
      -- A bound variable has the value of its binding by definition.
      obtain ⟨v, hv, hg⟩ := Option.bind_eq_some_iff.1 hb
      rw [eval_var hv, solution, hg]
      dsimp only
      have hu : ∃ k, resolve_var k u s = .ok a := by
        cases n with
        | zero => cases ha
        | succ n =>
          rw [resolve_var, hb] at ha
          exact ⟨n, ha⟩
      obtain ⟨k, hk⟩ := hu
      rw [valueUnder_eq (hs u).choose_spec h hk ha]
      exact .refl _
    | none =>
      have hta : a = t := by
        cases n with
        | zero => cases ha
        | succ n =>
          rw [resolve_var, hb] at ha
          exact (Except.ok.inj ha).symm
      subst hta
      rw [valueUnder, ha]
      dsimp only
      split
      · rename_i hvar
        obtain ⟨v, hv⟩ := Option.isSome_iff_exists.1 hvar
        rw [hv, Option.bind_some] at hb
        rw [eval_var hv, solution, hb]
        exact .refl _
      · rename_i hvar
        rw [Option.not_isSome_iff_eq_none] at hvar
        cases a with
        | atom a => rw [eval_atom]; exact .refl _
        | arr items =>
          rw [eval_arr]
          exact same_arr_map fun x hx => ih (hchildren x hx)
        | obj fields =>
          rw [eval_obj hvar]
          refine .obj (fun k => ?_) fun k x y hx hy => ?_
          · simp only [List.map_map, Function.comp_def]
            rw [← mem_ownKeys, ← ownEntries_keys]
          · rw [field_map, Option.map_eq_some_iff] at hx hy
            obtain ⟨b, hb', rfl⟩ := hx
            obtain ⟨c, hc, rfl⟩ := hy
            rw [field_ownEntries, hb'] at hc
            cases hc
            exact ih (hchildren b (List.mem_map.2 ⟨(k, b), mem_ownEntries.2 hb', rfl⟩))

theorem exists_solution {s : Substitution} (hs : Acyclic s) : ∃ σ, Solves σ s := by
  refine ⟨solution s hs, fun v u hv => ?_⟩
  rw [solution, hv]
  exact (eval_solution hs (hs u).choose_spec).symm

/-! ## Rows -/

/-- A row read as a value: each of its variables as the value `σ` has for it, or,
where an object of the query came to have the shape of a variable, as itself. -/
inductive Reads (σ : Valuation) : Term → Value → Prop where
  | var {t : Term} {v : JsNumber} {x : Value} (root : is_logic_var t = some v) (same : Same (σ v) x) : Reads σ t x
  | atom (a : Atom) : Reads σ (.atom a) (.atom a)
  | arr {items : List Term} {xs : List Value} (length : items.length = xs.length)
      (all : ∀ (i : ℕ) (t : Term) (x : Value), items[i]? = some t → xs[i]? = some x → Reads σ t x) :
      Reads σ (.arr items) (.arr xs)
  | obj {fields : List (String × Term)} {g : List (String × Value)}
      (keys : ∀ k, k ∈ fields.map Prod.fst ↔ k ∈ g.map Prod.fst)
      (all : ∀ (k : String) (t : Term) (x : Value), field fields k = some t → field g k = some x → Reads σ t x) :
      Reads σ (.obj fields) (.obj g)

/-- No object of the shape of a variable in the value. -/
inductive VarFree : Value → Prop where
  | atom (a : Atom) : VarFree (.atom a)
  | arr {xs : List Value} (all : ∀ x ∈ xs, VarFree x) : VarFree (.arr xs)
  | obj {g : List (String × Value)}
      (shape : ¬ (field g "type" = some (.str "logic-var") ∧ ∃ n, field g "id" = some (.atom (.num n))))
      (all : ∀ k x, field g k = some x → VarFree x) : VarFree (.obj g)

/-- The value is an instance of the row. Unless it has objects of the shape of a
variable, filling in the row's variables gives the value. -/
def InstanceOf (row : Term) (x : Value) : Prop :=
  ∃ σ : Valuation, Reads σ row x ∧ (VarFree x → Same (eval σ row) x)

theorem Reads.congr {σ : Valuation} {t : Term} {x y : Value} (h : Reads σ t x) (hxy : Same x y) : Reads σ t y := by
  induction h generalizing y with
  | var root same => exact .var root (same.trans hxy)
  | atom a => cases hxy; exact .atom a
  | @arr items xs length _ ih =>
    cases hxy with
    | arr length' items' =>
      refine .arr (length.trans length') fun i t z ht hz => ?_
      have hi : i < xs.length := length ▸ (List.getElem?_eq_some_iff.1 ht).1
      have hx := List.getElem?_eq_getElem hi
      exact ih i t _ ht hx (items' i _ z hx hz)
  | @obj fields g keys _ ih =>
    cases hxy with
    | obj keys' fields' =>
      refine .obj (fun k => (keys k).trans (keys' k)) fun k t z ht hz => ?_
      obtain ⟨x, hx⟩ := field_isSome.1 ((keys k).1 (field_isSome.2 ⟨t, ht⟩))
      exact ih k t x ht hx (fields' k x z hx hz)

theorem Reads.atom_eq {σ : Valuation} {a : Atom} {x : Value} (h : Reads σ (.atom a) x) : x = .atom a := by
  cases h with
  | var root _ => cases root
  | atom _ => rfl

/-- Without accidental shapes a row read as a value has that value. -/
theorem Reads.same {σ : Valuation} {t : Term} {x : Value} (h : Reads σ t x) (hfree : NoVars t ∨ VarFree x) :
    Same (eval σ t) x := by
  induction h with
  | var root same => rw [eval_var root]; exact same
  | atom a => rw [eval_atom]; exact .refl _
  | @arr items xs length _ ih =>
    rw [eval_arr]
    refine .arr (by simpa using length) fun i y x hy hx => ?_
    rw [List.getElem?_map, Option.map_eq_some_iff] at hy
    obtain ⟨t, ht, rfl⟩ := hy
    refine ih i t x ht hx ?_
    rcases hfree with hfree | hfree
    · cases hfree with
      | arr all => exact .inl (all t (List.mem_of_getElem? ht))
    · cases hfree with
      | arr all => exact .inr (all x (List.mem_of_getElem? hx))
  | @obj fields g keys all ih =>
    have hroot : is_logic_var (.obj fields) = none := by
      rcases hfree with hfree | hfree
      · cases hfree with
        | obj root _ => exact root
      · cases hfree with
        | obj shape _ =>
          by_contra hne
          obtain ⟨v, hv⟩ := Option.ne_none_iff_exists'.1 hne
          obtain ⟨id, htype, hid, -⟩ := is_logic_var_obj.1 hv
          obtain ⟨x, hx⟩ := field_isSome.1 ((keys "type").1 (field_isSome.2 ⟨_, htype⟩))
          obtain ⟨y, hy⟩ := field_isSome.1 ((keys "id").1 (field_isSome.2 ⟨_, hid⟩))
          obtain rfl := (all _ _ x htype hx).atom_eq
          obtain rfl := (all _ _ y hid hy).atom_eq
          exact shape ⟨hx, id, hy⟩
    rw [eval_obj hroot]
    refine .obj (fun k => ?_) fun k y x hy hx => ?_
    · rw [← keys k]
      simp
    · rw [field_map, Option.map_eq_some_iff] at hy
      obtain ⟨t, ht, rfl⟩ := hy
      refine ih k t x ht hx ?_
      rcases hfree with hfree | hfree
      · cases hfree with
        | obj _ all => exact .inl (all k t ht)
      · cases hfree with
        | obj _ all => exact .inr (all k x hx)

/-- Fields related one by one. -/
theorem field_forall₂ {V W : Type} {R : V → W → Prop} {f : List (String × V)} {g : List (String × W)}
    (h : List.Forall₂ (fun a b => a.1 = b.1 ∧ R a.2 b.2) f g) (key : String) :
    (∀ y, field g key = some y → ∃ x, field f key = some x ∧ R x y) ∧
      (∀ x, field f key = some x → ∃ y, field g key = some y ∧ R x y) := by
  induction h with
  | nil => simp [field]
  | @cons a b f g hab _ ih =>
    obtain ⟨k, x⟩ := a
    obtain ⟨l, y⟩ := b
    obtain ⟨rfl, hR⟩ := hab
    by_cases hk : key = k
    · subst hk
      simp [field, hR]
    · simp only [field_cons_ne hk]
      exact ih

theorem substitute_atom {n : ℕ} {a : Atom} {s : Substitution} {t : Term} (h : substitute n (.atom a) s = .ok t) :
    t = .atom a := by
  cases n with
  | zero => cases h
  | succ n =>
    rw [substitute] at h
    obtain ⟨b, hb, h⟩ := except_bind_eq_ok h
    cases n with
    | zero => cases hb
    | succ n => cases hb; cases h; rfl

/-- The entries that reification gives an object. -/
theorem substitute_entries {n : ℕ} {fields entries : List (String × Term)} {s : Substitution}
    (h : mapAll (fun entry => do return (entry.1, ← substitute n entry.2 s)) (ownEntries fields) = .ok entries) (key : String) :
    (∀ y, field entries key = some y → ∃ x, field fields key = some x ∧ substitute n x s = .ok y) ∧
      ∀ x, field fields key = some x → ∃ y, field entries key = some y ∧ substitute n x s = .ok y := by
  have hall : List.Forall₂ (fun e e' => e.1 = e'.1 ∧ substitute n e.2 s = .ok e'.2) (ownEntries fields) entries := by
    refine (mapAll_ok h).imp fun e e' he => ?_
    obtain ⟨u, hu, he⟩ := except_bind_eq_ok he
    cases he
    exact ⟨rfl, hu⟩
  have hfield := field_forall₂ (R := fun u u' => substitute n u s = .ok u') hall key
  rwa [field_ownEntries] at hfield

theorem substitute_keys {n : ℕ} {fields entries : List (String × Term)} {s : Substitution}
    (h : mapAll (fun entry => do return (entry.1, ← substitute n entry.2 s)) (ownEntries fields) = .ok entries) (key : String) :
    key ∈ entries.map Prod.fst ↔ key ∈ fields.map Prod.fst := by
  rw [field_isSome, field_isSome]
  constructor
  · rintro ⟨y, hy⟩
    exact ((substitute_entries h key).1 y hy).imp fun x hx => hx.1
  · rintro ⟨x, hx⟩
    exact ((substitute_entries h key).2 x hx).imp fun y hy => hy.1

/-- An object that looks like a variable keeps looking like it. -/
theorem substitute_root {n : ℕ} {fields entries : List (String × Term)} {s : Substitution}
    (h : mapAll (fun entry => do return (entry.1, ← substitute n entry.2 s)) (ownEntries fields) = .ok entries) {v : JsNumber}
    (hv : is_logic_var (.obj fields) = some v) : is_logic_var (.obj entries) = some v := by
  obtain ⟨id, htype, hid, hkey⟩ := is_logic_var_obj.1 hv
  obtain ⟨t, ht, hsub⟩ := (substitute_entries h "type").2 _ htype
  obtain rfl := substitute_atom hsub
  obtain ⟨t, ht', hsub⟩ := (substitute_entries h "id").2 _ hid
  obtain rfl := substitute_atom hsub
  exact is_logic_var_obj.2 ⟨id, ht, ht', hkey⟩

/-- Under a solution the reified term reads as the value of the term. -/
theorem substitute_reads {σ : Valuation} {s : Substitution} (hσ : Solves σ s) {n : ℕ} {t row : Term}
    (h : substitute n t s = .ok row) : Reads σ row (eval σ t) := by
  induction n generalizing t row with
  | zero => cases h
  | succ n ih =>
    rw [substitute] at h
    obtain ⟨a, ha, h⟩ := except_bind_eq_ok h
    refine Reads.congr ?_ (resolve_var_same hσ ha).symm
    cases a with
    | atom a =>
      cases h
      rw [eval_atom]
      exact .atom a
    | arr items =>
      obtain ⟨rows, hrows, h⟩ := except_bind_eq_ok h
      cases h
      rw [eval_arr]
      have hall := mapAll_ok hrows
      refine .arr (by simpa using hall.length_eq.symm) fun i row x hrow hx => ?_
      rw [List.getElem?_map, Option.map_eq_some_iff] at hx
      obtain ⟨item, hitem, rfl⟩ := hx
      exact ih (forall₂_getElem? hall hitem hrow)
    | obj fields =>
      obtain ⟨entries, hentries, h⟩ := except_bind_eq_ok h
      cases h
      cases hvar : is_logic_var (.obj fields) with
      | some v => exact .var (substitute_root hentries hvar) (by rw [eval_var hvar]; exact .refl _)
      | none =>
        rw [eval_obj hvar]
        refine .obj (fun k => ?_) fun k row x hrow hx => ?_
        · simpa only [List.map_map, Function.comp_def] using substitute_keys hentries k
        · obtain ⟨t, ht, hsub⟩ := (substitute_entries hentries k).1 row hrow
          rw [field_map, ht] at hx
          cases hx
          exact ih hsub

end LainLang.Tracer
