import Mathlib.Data.List.Nodup
/-!
# Insertion-ordered maps

A finite map that remembers the order in which its keys were first set: setting
a key it has keeps the key's place, setting a new one puts it last. Reading is
`get?`; every other fact about a map is stated through it.
-/

namespace LainLang.Lib

theorem eraseDups_nodup {α : Type} [DecidableEq α] (l : List α) : l.eraseDups.Nodup := by
  induction h : l.length using Nat.strongRecOn generalizing l with
  | ind n ih =>
    cases l with
    | nil => simp
    | cons x xs =>
      have hlen : (xs.filter fun b => !b == x).length < n := by
        subst h; exact Nat.lt_succ_of_le (List.length_filter_le _ _)
      rw [List.eraseDups_cons, List.nodup_cons, List.mem_eraseDups]
      exact ⟨by simp, ih _ hlen _ rfl⟩

/-- A map that lists its keys in the order in which they were first set, each once. -/
structure OrdMap (K V : Type) where
  entries : List (K × V)
  nodup : (entries.map Prod.fst).Nodup
  deriving DecidableEq

namespace OrdMap
variable {K V : Type}

@[ext] theorem ext {m m' : OrdMap K V} (h : m.entries = m'.entries) : m = m' := by
  cases m; cases m'; cases h; rfl

/-- `new Map()`. -/
def empty : OrdMap K V := ⟨[], List.nodup_nil⟩

/-- `map.keys()`. -/
def keys (m : OrdMap K V) : List K := m.entries.map Prod.fst

/-- `map.values()`. -/
def values (m : OrdMap K V) : List V := m.entries.map Prod.snd

variable [DecidableEq K]

/-- `map.get(k)`, with `none` for `undefined`. -/
def get? (m : OrdMap K V) (k : K) : Option V := (m.entries.find? (fun e => e.1 = k)).map Prod.snd

/-- `map.has(k)`. -/
def has (m : OrdMap K V) (k : K) : Bool := (m.get? k).isSome

/-! ## Setting and deleting -/

/-- A key that is there keeps its place, and a new one comes last. -/
def setEntries (k : K) (v : V) : List (K × V) → List (K × V)
  | [] => [(k, v)]
  | e :: es => if e.1 = k then (k, v) :: es else e :: setEntries k v es

theorem keys_setEntries (k : K) (v : V) (es : List (K × V)) :
    (setEntries k v es).map Prod.fst =
      if k ∈ es.map Prod.fst then es.map Prod.fst else es.map Prod.fst ++ [k] := by
  induction es with
  | nil => simp [setEntries]
  | cons e es ih =>
    by_cases h : e.1 = k
    · simp [setEntries, h]
    · simp only [setEntries, h, if_false, List.map_cons, ih, List.mem_cons, Ne.symm h, false_or]
      split <;> simp

/-- `map.set(k, v)`. -/
def set (m : OrdMap K V) (k : K) (v : V) : OrdMap K V where
  entries := setEntries k v m.entries
  nodup := by
    rw [keys_setEntries]
    split
    · exact m.nodup
    · rename_i h
      exact List.nodup_append.2 ⟨m.nodup, by simp, by
        intro x hx y hy; simp only [List.mem_singleton] at hy; subst hy; rintro rfl; exact h hx⟩

/-- `map.delete(k)`. -/
def delete (m : OrdMap K V) (k : K) : OrdMap K V where
  entries := m.entries.filter (fun e => e.1 ≠ k)
  nodup := m.nodup.sublist (List.filter_sublist.map Prod.fst)

/-- Deletes every key of a list, in order. -/
def deleteAll (m : OrdMap K V) (ks : List K) : OrdMap K V := ks.foldl delete m

/-! ## Reading -/

theorem mem_entries_iff (m : OrdMap K V) (k : K) (v : V) : (k, v) ∈ m.entries ↔ m.get? k = some v := by
  constructor
  · intro h
    cases hf : m.entries.find? (fun e => e.1 = k) with
    | none => exact absurd (List.find?_eq_none.1 hf _ h) (by simp)
    | some e =>
      have hk : e.1 = k := by simpa using List.find?_some hf
      have he : e = (k, v) := List.inj_on_of_nodup_map m.nodup (List.mem_of_find?_eq_some hf) h hk
      simp [get?, hf, he]
  · intro h
    obtain ⟨e, he, rfl⟩ := Option.map_eq_some_iff.1 h
    have hk : e.1 = k := by simpa using List.find?_some he
    subst hk
    exact List.mem_of_find?_eq_some he

theorem mem_keys_iff (m : OrdMap K V) (k : K) : k ∈ m.keys ↔ ∃ v, m.get? k = some v := by
  simp [keys, ← mem_entries_iff]

theorem mem_values_iff (m : OrdMap K V) (v : V) : v ∈ m.values ↔ ∃ k, m.get? k = some v := by
  simp [values, ← mem_entries_iff]

theorem has_iff (m : OrdMap K V) (k : K) : m.has k = true ↔ ∃ v, m.get? k = some v :=
  Option.isSome_iff_exists

theorem has_eq_false (m : OrdMap K V) (k : K) : m.has k = false ↔ m.get? k = none := by
  simp [has]

theorem has_iff_mem_keys (m : OrdMap K V) (k : K) : m.has k = true ↔ k ∈ m.keys := by
  rw [has_iff, mem_keys_iff]

@[simp] theorem get?_empty (k : K) : (empty : OrdMap K V).get? k = none := rfl

@[simp] theorem has_empty (k : K) : (empty : OrdMap K V).has k = false := rfl

theorem find?_setEntries (k k' : K) (v : V) (es : List (K × V)) :
    ((setEntries k v es).find? (fun e => e.1 = k')).map Prod.snd =
      if k' = k then some v else (es.find? (fun e => e.1 = k')).map Prod.snd := by
  induction es with
  | nil =>
    by_cases h : k' = k
    · simp [setEntries, h]
    · simp [setEntries, h, Ne.symm h]
  | cons e es ih =>
    by_cases h : e.1 = k
    · by_cases h' : k' = k
      · simp [setEntries, h, h']
      · simp [setEntries, h, h', Ne.symm h']
    · by_cases h' : e.1 = k'
      · have : k' ≠ k := fun hk => h (h'.trans hk)
        simp [setEntries, h', this]
      · simpa [setEntries, h, h', List.find?_cons] using ih

theorem setEntries_of_notMem {k : K} {es : List (K × V)} (h : k ∉ es.map Prod.fst) (v : V) :
    setEntries k v es = es ++ [(k, v)] := by
  induction es with
  | nil => rfl
  | cons e es ih =>
    simp only [List.map_cons, List.mem_cons, not_or] at h
    simp [setEntries, Ne.symm h.1, ih h.2]

@[simp] theorem get?_set (m : OrdMap K V) (k k' : K) (v : V) :
    (m.set k v).get? k' = if k' = k then some v else m.get? k' :=
  find?_setEntries k k' v m.entries

@[simp] theorem get?_delete (m : OrdMap K V) (k k' : K) :
    (m.delete k).get? k' = if k' = k then none else m.get? k' := by
  ext v
  rw [← mem_entries_iff, delete, List.mem_filter, mem_entries_iff]
  by_cases h : k' = k <;> simp [h]

@[simp] theorem has_set (m : OrdMap K V) (k k' : K) (v : V) :
    (m.set k v).has k' = (decide (k' = k) || m.has k') := by
  by_cases h : k' = k <;> simp [has, h]

@[simp] theorem has_delete (m : OrdMap K V) (k k' : K) :
    (m.delete k).has k' = (!decide (k' = k) && m.has k') := by
  by_cases h : k' = k <;> simp [has, h]

/-! ## Many keys at once -/

@[simp] theorem get?_deleteAll (m : OrdMap K V) (ks : List K) (k : K) :
    (m.deleteAll ks).get? k = if k ∈ ks then none else m.get? k := by
  unfold deleteAll
  induction ks generalizing m with
  | nil => simp
  | cons k' ks ih =>
    rw [List.foldl_cons, ih, get?_delete]
    by_cases h : k = k' <;> simp [h]

/-- Sets every pair of a list, in order. -/
def setAll (m : OrdMap K V) (es : List (K × V)) : OrdMap K V := es.foldl (fun m e => m.set e.1 e.2) m

theorem get?_setAll_of_notMem (m : OrdMap K V) {es : List (K × V)} {k : K} (h : k ∉ es.map Prod.fst) :
    (m.setAll es).get? k = m.get? k := by
  unfold setAll
  induction es generalizing m with
  | nil => rfl
  | cons e es ih =>
    simp only [List.map_cons, List.mem_cons, not_or] at h
    rw [List.foldl_cons, ih _ h.2, get?_set, if_neg h.1]

theorem get?_setAll_of_mem (m : OrdMap K V) {es : List (K × V)} (hes : (es.map Prod.fst).Nodup) {k : K} {v : V}
    (h : (k, v) ∈ es) : (m.setAll es).get? k = some v := by
  unfold setAll
  induction es generalizing m with
  | nil => cases h
  | cons e es ih =>
    rw [List.map_cons, List.nodup_cons] at hes
    rcases List.mem_cons.1 h with rfl | htail
    · rw [List.foldl_cons]
      exact (get?_setAll_of_notMem _ hes.1).trans (by simp)
    · exact ih _ hes.2 htail

end OrdMap

end LainLang.Lib
