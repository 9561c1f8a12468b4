import LainLang.Js.Json
import LainLang.Js.Object
/-!
# Terms and values

A term is a JavaScript value read by the logic kernel: an object whose `type` is
`"logic-var"` and whose `id` is a number is a logic variable, whatever other
fields it has. A value is such data with no variables, and two values are the
same when they agree as trees, objects regardless of the order of their keys.
-/
open LainLang.Lib LainLang.Js

namespace LainLang.Tracer

/-- What `Object.is` compares as a whole. `ref` is an object that is neither an
array nor plain, or a function. -/
inductive Atom where
  | undefined
  | null
  | bool (b : Bool)
  | num (n : JsNumber)
  | str (s : String)
  | ref (address : ℕ)
  deriving DecidableEq

/-- A term of a query: JSON data, where objects may be variables. -/
inductive Term where
  | atom (a : Atom)
  | arr (items : List Term)
  | obj (fields : List (String × Term))

/-- What a term stands for. -/
inductive Value where
  | atom (a : Atom)
  | arr (items : List Value)
  | obj (fields : List (String × Value))

mutual

/-- Equality of terms is decidable. -/
def decEqTerm : (t u : Term) → Decidable (t = u)
  | .atom a, .atom b => decidable_of_iff (a = b) (by simp)
  | .arr xs, .arr ys => @decidable_of_iff _ (xs = ys) (by simp) (decEqItems xs ys)
  | .obj f, .obj g => @decidable_of_iff _ (f = g) (by simp) (decEqFields f g)
  | .atom _, .arr _ | .atom _, .obj _ | .arr _, .atom _ | .arr _, .obj _ | .obj _, .atom _ | .obj _, .arr _ =>
    isFalse nofun

/-- Equality of arrays is. -/
def decEqItems : (xs ys : List Term) → Decidable (xs = ys)
  | [], [] => isTrue rfl
  | x :: xs, y :: ys =>
    @decidable_of_iff _ (x = y ∧ xs = ys) (by simp) (@instDecidableAnd _ _ (decEqTerm x y) (decEqItems xs ys))
  | [], _ :: _ | _ :: _, [] => isFalse nofun

/-- Equality of objects is. -/
def decEqFields : (f g : List (String × Term)) → Decidable (f = g)
  | [], [] => isTrue rfl
  | (k, t) :: f, (l, u) :: g =>
    @decidable_of_iff _ ((k = l ∧ t = u) ∧ f = g) (by simp)
      (@instDecidableAnd _ _ (@instDecidableAnd _ _ inferInstance (decEqTerm t u)) (decEqFields f g))
  | [], _ :: _ | _ :: _, [] => isFalse nofun

end

instance : DecidableEq Term := decEqTerm

/-- A string. -/
def Term.str (s : String) : Term := .atom (.str s)

def Term.undefined : Term := .atom .undefined

/-! ## Objects -/

section fields
variable {V : Type}

/-- `o[key]`; of a key listed twice the first counts. -/
def field (fields : List (String × V)) (key : String) : Option V := fields.lookup key

/-- `Object.keys(o)`. -/
def ownKeys (fields : List (String × V)) : List String :=
  (propertyOrder ((fields.map Prod.fst).eraseDups.map fun key => (key, ()))).map Prod.fst

/-- `Object.entries(o)`. -/
def ownEntries (fields : List (String × V)) : List (String × V) :=
  (ownKeys fields).filterMap fun key => (field fields key).map fun v => (key, v)

theorem mem_ownKeys {fields : List (String × V)} {key : String} :
    key ∈ ownKeys fields ↔ key ∈ fields.map Prod.fst := by
  rw [ownKeys, List.mem_map]
  simp only [(propertyOrder_perm _).mem_iff, List.mem_map, Prod.exists]
  constructor
  · rintro ⟨k, u, ⟨k', hk', heq⟩, rfl⟩
    cases heq
    simpa using hk'
  · intro h
    exact ⟨key, (), ⟨key, by simpa using h, rfl⟩, rfl⟩

theorem ownKeys_nodup (fields : List (String × V)) : (ownKeys fields).Nodup := by
  have hperm := (propertyOrder_perm ((fields.map Prod.fst).eraseDups.map fun key => (key, ()))).map Prod.fst
  have hid : (Prod.fst ∘ fun key : String => (key, ())) = id := rfl
  rw [List.map_map, hid, List.map_id] at hperm
  exact hperm.nodup_iff.2 (eraseDups_nodup _)

/-- Two objects with the same keys list as many. -/
theorem ownKeys_length_eq {W : Type} {f : List (String × V)} {g : List (String × W)}
    (h : ∀ k, k ∈ f.map Prod.fst ↔ k ∈ g.map Prod.fst) : (ownKeys f).length = (ownKeys g).length := by
  refine ((List.perm_ext_iff_of_nodup (ownKeys_nodup f) (ownKeys_nodup g)).2 fun k => ?_).length_eq
  rw [mem_ownKeys, mem_ownKeys, h]

/-- As many keys, and each of the first object's among the second's: the same
keys. -/
theorem same_keys_of_ownKeys {W : Type} {f : List (String × V)} {g : List (String × W)}
    (hlen : (ownKeys f).length = (ownKeys g).length) (hsub : ∀ k ∈ ownKeys f, k ∈ ownKeys g) (k : String) :
    k ∈ f.map Prod.fst ↔ k ∈ g.map Prod.fst := by
  have hperm := (List.subperm_of_subset (ownKeys_nodup f) hsub).perm_of_length_le (by omega)
  rw [← mem_ownKeys, ← mem_ownKeys, hperm.mem_iff]

theorem field_cons_ne {k key : String} (h : key ≠ k) (v : V) (fields : List (String × V)) :
    field ((k, v) :: fields) key = field fields key := by
  have hb : (key == k) = false := by simpa using h
  simp only [field, List.lookup_cons, hb]

theorem field_isSome {fields : List (String × V)} {key : String} :
    key ∈ fields.map Prod.fst ↔ ∃ v, field fields key = some v := by
  induction fields with
  | nil => simp [field]
  | cons f fields ih =>
    obtain ⟨k, v⟩ := f
    by_cases h : key = k
    · simp [field, h]
    · rw [List.map_cons, List.mem_cons, ih, field_cons_ne h]
      simp [h]

theorem field_mem {fields : List (String × V)} {key : String} {v : V} (h : field fields key = some v) :
    (key, v) ∈ fields := by
  induction fields with
  | nil => simp [field] at h
  | cons f fields ih =>
    obtain ⟨k, w⟩ := f
    by_cases hk : key = k
    · subst hk
      simp [field] at h
      simp [h]
    · rw [field_cons_ne hk] at h
      exact List.mem_cons_of_mem _ (ih h)

theorem field_of_mem {fields : List (String × V)} (hn : (fields.map Prod.fst).Nodup) {key : String} {v : V}
    (h : (key, v) ∈ fields) : field fields key = some v := by
  obtain ⟨w, hw⟩ := field_isSome.1 (List.mem_map_of_mem h)
  have heq := List.inj_on_of_nodup_map hn (field_mem hw) h rfl
  cases heq
  exact hw

theorem field_map {W : Type} (g : V → W) (fields : List (String × V)) (key : String) :
    field (fields.map fun f => (f.1, g f.2)) key = (field fields key).map g := by
  induction fields with
  | nil => rfl
  | cons f fields ih =>
    obtain ⟨k, v⟩ := f
    by_cases h : key = k
    · simp [field, h]
    · rw [List.map_cons, field_cons_ne h, field_cons_ne h, ih]

theorem mem_ownEntries {fields : List (String × V)} {key : String} {v : V} :
    (key, v) ∈ ownEntries fields ↔ field fields key = some v := by
  simp only [ownEntries, List.mem_filterMap, Option.map_eq_some_iff, Prod.mk.injEq]
  constructor
  · rintro ⟨k, -, w, hw, rfl, rfl⟩; exact hw
  · intro h
    exact ⟨key, mem_ownKeys.2 (field_isSome.2 ⟨v, h⟩), v, h, rfl, rfl⟩

theorem ownEntries_keys (fields : List (String × V)) : (ownEntries fields).map Prod.fst = ownKeys fields := by
  have hall : ∀ key ∈ ownKeys fields, ((field fields key).map fun v => (key, v)).map Prod.fst = some key := by
    intro key hk
    obtain ⟨v, hv⟩ := field_isSome.1 (mem_ownKeys.1 hk)
    simp [hv]
  rw [ownEntries, List.map_filterMap, List.filterMap_congr hall]
  simp

/-- Listing an object's entries keeps each of its fields. -/
theorem field_ownEntries (fields : List (String × V)) (key : String) :
    field (ownEntries fields) key = field fields key := by
  have hn : ((ownEntries fields).map Prod.fst).Nodup := ownEntries_keys fields ▸ ownKeys_nodup fields
  ext v
  exact ⟨fun h => mem_ownEntries.1 (field_mem h), fun h => field_of_mem hn (mem_ownEntries.2 h)⟩

theorem ownKeys_map {W : Type} (g : V → W) (fields : List (String × V)) :
    ownKeys (fields.map fun f => (f.1, g f.2)) = ownKeys fields := by
  rw [ownKeys, ownKeys, List.map_map]
  rfl

theorem ownEntries_map {W : Type} (g : V → W) (fields : List (String × V)) :
    ownEntries (fields.map fun f => (f.1, g f.2)) = (ownEntries fields).map fun e => (e.1, g e.2) := by
  rw [ownEntries, ownEntries, ownKeys_map, List.map_filterMap]
  refine List.filterMap_congr fun key _ => ?_
  rw [field_map]
  cases field fields key <;> rfl

end fields

/-! ## Logic variables -/

/-- The ids of logic variables as a `Map` compares them: `-0` is `0`. -/
def varKey : JsNumber → JsNumber
  | .finite d => if d.mantissa = 0 then .finite ⟨false, 0, 0, .inr ⟨rfl, rfl⟩⟩ else .finite d
  | n => n

/-- `is_logic_var`, with the id as a key. -/
def is_logic_var : Term → Option JsNumber
  | .obj fields =>
    match field fields "type", field fields "id" with
    | some (.atom (.str "logic-var")), some (.atom (.num id)) => some (varKey id)
    | _, _ => none
  | _ => none

theorem is_logic_var_obj {fields : List (String × Term)} {v : JsNumber} :
    is_logic_var (.obj fields) = some v ↔
      ∃ id, field fields "type" = some (.str "logic-var") ∧ field fields "id" = some (.atom (.num id)) ∧ varKey id = v := by
  rw [is_logic_var]
  constructor
  · intro h
    split at h
    · rename_i id htype hid
      exact ⟨id, htype, hid, Option.some.inj h⟩
    · cases h
  · rintro ⟨id, htype, hid, rfl⟩
    simp [htype, hid, Term.str]

/-- `a.id === b.id`. -/
def sameId (a b : JsNumber) : Bool := decide (a = b) && decide (a ≠ .nan)

/-- What `make_logic_var` makes. -/
structure LogicVar where
  id : ℕ
  name : Option String
  deriving DecidableEq

/-- The object of a variable. -/
def LogicVar.term (v : LogicVar) : Term :=
  .obj (("type", .str "logic-var") :: ("id", .atom (.num (.ofNat v.id))) :: (v.name.map fun n => ("name", .str n)).toList)

theorem is_logic_var_term (v : LogicVar) : is_logic_var v.term = some (.ofNat v.id) := by
  have hkey : varKey (.ofNat v.id) = .ofNat v.id := by
    simp only [JsNumber.ofNat, varKey]
    split
    · rename_i h0
      have : v.id = 0 := Decimal.eq_zero_of_mantissa h0
      rw [this]
      rfl
    · rfl
  simp [is_logic_var, LogicVar.term, field, Term.str, List.lookup_cons, hkey]

theorem sameId_eq {a b : JsNumber} (h : sameId a b = true) : a = b := by
  simp only [sameId, Bool.and_eq_true, decide_eq_true_eq] at h
  exact h.1

/-! ## Values -/

/-- Two values with the same atoms at the same places. -/
inductive Same : Value → Value → Prop where
  | atom (a : Atom) : Same (.atom a) (.atom a)
  | arr {xs ys : List Value} (length : xs.length = ys.length)
      (items : ∀ (i : ℕ) (x y : Value), xs[i]? = some x → ys[i]? = some y → Same x y) : Same (.arr xs) (.arr ys)
  | obj {f g : List (String × Value)} (keys : ∀ k, k ∈ f.map Prod.fst ↔ k ∈ g.map Prod.fst)
      (fields : ∀ (k : String) (x y : Value), field f k = some x → field g k = some y → Same x y) : Same (.obj f) (.obj g)

theorem Same.refl : ∀ v : Value, Same v v
  | .atom a => .atom a
  | .arr xs => .arr rfl fun i x y hx hy => by
    rw [hx] at hy
    cases hy
    have := List.mem_of_getElem? hx
    exact Same.refl x
  | .obj f => .obj (fun _ => Iff.rfl) fun k x y hx hy => by
    rw [hx] at hy
    cases hy
    have := List.sizeOf_lt_of_mem (field_mem hx)
    exact Same.refl x
termination_by v => sizeOf v
decreasing_by
  · have := List.sizeOf_lt_of_mem this; simp; omega
  · simp at this ⊢; omega

theorem Same.symm {v w : Value} (h : Same v w) : Same w v := by
  induction h with
  | atom a => exact .atom a
  | arr length _ ih => exact .arr length.symm fun i x y hx hy => ih i y x hy hx
  | obj keys _ ih => exact .obj (fun k => (keys k).symm) fun k x y hx hy => ih k y x hy hx

theorem Same.trans {u v w : Value} (h : Same u v) (h' : Same v w) : Same u w := by
  induction h generalizing w with
  | atom a => exact h'
  | @arr xs ys length _ ih =>
    cases h' with
    | @arr _ zs length' items' =>
      refine .arr (length.trans length') fun i x z hx hz => ?_
      have hi : i < ys.length := length ▸ (List.getElem?_eq_some_iff.1 hx).1
      exact ih i x ys[i] hx (List.getElem?_eq_getElem hi) (items' i ys[i] z (List.getElem?_eq_getElem hi) hz)
  | @obj f g keys _ ih =>
    cases h' with
    | @obj _ e keys' fields' =>
      refine .obj (fun k => (keys k).trans (keys' k)) fun k x z hx hz => ?_
      obtain ⟨y, hy⟩ := field_isSome.1 ((keys k).1 (field_isSome.2 ⟨x, hx⟩))
      exact ih k x y hx hy (fields' k y z hy hz)

theorem same_atom_iff {a b : Atom} : Same (.atom a) (.atom b) ↔ a = b := by
  constructor
  · intro h
    cases h
    rfl
  · rintro rfl
    exact .atom a

theorem Same.comm {v w : Value} : Same v w ↔ Same w v := ⟨Same.symm, Same.symm⟩

theorem not_same_atom_arr {a : Atom} {xs : List Value} : ¬ Same (.atom a) (.arr xs) := nofun

theorem not_same_atom_obj {a : Atom} {f : List (String × Value)} : ¬ Same (.atom a) (.obj f) := nofun

theorem not_same_arr_obj {xs : List Value} {f : List (String × Value)} : ¬ Same (.arr xs) (.obj f) := nofun

/-! ## Valuations -/

/-- A value for each variable id. -/
abbrev Valuation := JsNumber → Value

mutual

/-- The value of a term under values for its variables. -/
def eval (σ : Valuation) : Term → Value
  | .atom a => .atom a
  | .arr items => .arr (evalItems σ items)
  | .obj fields =>
    match is_logic_var (.obj fields) with
    | some v => σ v
    | none => .obj (evalFields σ fields)

/-- The items of an array under a valuation. -/
def evalItems (σ : Valuation) : List Term → List Value
  | [] => []
  | t :: ts => eval σ t :: evalItems σ ts

/-- The fields of an object under a valuation. -/
def evalFields (σ : Valuation) : List (String × Term) → List (String × Value)
  | [] => []
  | (k, t) :: fs => (k, eval σ t) :: evalFields σ fs

end

theorem evalItems_eq (σ : Valuation) (items : List Term) : evalItems σ items = items.map (eval σ) := by
  induction items with
  | nil => rfl
  | cons t ts ih => rw [evalItems, ih, List.map_cons]

theorem evalFields_eq (σ : Valuation) (fields : List (String × Term)) :
    evalFields σ fields = fields.map fun f => (f.1, eval σ f.2) := by
  induction fields with
  | nil => rfl
  | cons f fs ih => rw [evalFields, ih, List.map_cons]

theorem eval_var {t : Term} {v : JsNumber} (h : is_logic_var t = some v) (σ : Valuation) : eval σ t = σ v := by
  cases t with
  | atom a => cases h
  | arr items => cases h
  | obj fields => rw [eval, h]

theorem eval_atom (σ : Valuation) (a : Atom) : eval σ (.atom a) = .atom a := by rw [eval]

theorem eval_arr (σ : Valuation) (items : List Term) : eval σ (.arr items) = .arr (items.map (eval σ)) := by
  rw [eval, evalItems_eq]

theorem eval_obj {fields : List (String × Term)} (h : is_logic_var (.obj fields) = none) (σ : Valuation) :
    eval σ (.obj fields) = .obj (fields.map fun f => (f.1, eval σ f.2)) := by
  rw [eval, h, evalFields_eq]

/-- Two arrays have the same value when they have as many items and these have
the same values in pairs. -/
theorem same_arr_iff {σ : Valuation} {xs ys : List Term} :
    Same (eval σ (.arr xs)) (eval σ (.arr ys)) ↔
      xs.length = ys.length ∧ ∀ p ∈ xs.zip ys, Same (eval σ p.1) (eval σ p.2) := by
  rw [eval_arr, eval_arr]
  constructor
  · intro h
    cases h with
    | arr length items =>
      refine ⟨by simpa using length, fun p hp => ?_⟩
      obtain ⟨i, hi⟩ := List.mem_iff_getElem?.1 hp
      rw [List.getElem?_zip_eq_some] at hi
      exact items i _ _ (by rw [List.getElem?_map, hi.1]; rfl) (by rw [List.getElem?_map, hi.2]; rfl)
  · rintro ⟨hlen, hall⟩
    refine .arr (by simpa using hlen) fun i x y hx hy => ?_
    rw [List.getElem?_map, Option.map_eq_some_iff] at hx hy
    obtain ⟨t, ht, rfl⟩ := hx
    obtain ⟨u, hu, rfl⟩ := hy
    exact hall (t, u) (List.mem_iff_getElem?.2 ⟨i, List.getElem?_zip_eq_some.2 ⟨ht, hu⟩⟩)

/-- Two objects have the same value when they have the same keys and their
fields have the same values. -/
theorem same_obj_iff {σ : Valuation} {f g : List (String × Term)} (hf : is_logic_var (.obj f) = none)
    (hg : is_logic_var (.obj g) = none) :
    Same (eval σ (.obj f)) (eval σ (.obj g)) ↔ (∀ k, k ∈ f.map Prod.fst ↔ k ∈ g.map Prod.fst) ∧
      ∀ k t u, field f k = some t → field g k = some u → Same (eval σ t) (eval σ u) := by
  have hkeys : ∀ h : List (String × Term), (h.map fun e => (e.1, eval σ e.2)).map Prod.fst = h.map Prod.fst :=
    fun h => by rw [List.map_map]; rfl
  rw [eval_obj hf, eval_obj hg]
  constructor
  · intro h
    cases h with
    | obj keys fields =>
      simp only [hkeys] at keys
      refine ⟨keys, fun k t u ht hu => fields k _ _ ?_ ?_⟩
      · rw [field_map, ht]; rfl
      · rw [field_map, hu]; rfl
  · rintro ⟨keys, hall⟩
    refine .obj (by simpa only [hkeys] using keys) fun k x y hx hy => ?_
    rw [field_map, Option.map_eq_some_iff] at hx hy
    obtain ⟨t, ht, rfl⟩ := hx
    obtain ⟨u, hu, rfl⟩ := hy
    exact hall k t u ht hu

end LainLang.Tracer
