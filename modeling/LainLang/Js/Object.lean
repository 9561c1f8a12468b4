import LainLang.Js.Text
import LainLang.Lib.OrdMap
/-!
# Plain objects

A plain object is an insertion-ordered map from strings, listed with its array
indices first, in numeric order.
-/
open LainLang.Lib

namespace LainLang.Js

variable {V : Type}

/-- The number an array-index key spells, `none` for every other key. -/
def arrayIndex (key : String) : Option ℕ :=
  let cs := key.toList
  let n := cs.foldl (fun n c => 10 * n + (c.toNat - 48)) 0
  if cs ≠ [] ∧ cs.all Char.isDigit ∧ (cs.head? = some '0' → cs = ['0']) ∧ n < 2 ^ 32 - 1 then some n else none

/-- The properties of an object in the order they are listed. -/
def propertyOrder (es : List (String × V)) : List (String × V) :=
  let indices := es.filter (fun e => (arrayIndex e.1).isSome)
  indices.insertionSort (fun a b => (arrayIndex a.1).getD 0 ≤ (arrayIndex b.1).getD 0) ++
    es.filter (fun e => !(arrayIndex e.1).isSome)

theorem propertyOrder_perm (es : List (String × V)) : (propertyOrder es).Perm es :=
  ((List.perm_insertionSort _ _).append_right _).trans (List.filter_append_perm _ es)

/-- `Object.entries(o)`. -/
def objectEntries (o : OrdMap String V) : List (String × V) := propertyOrder o.entries

/-- `Object.keys(o)`. -/
def objectKeys (o : OrdMap String V) : List String := (objectEntries o).map Prod.fst

theorem objectEntries_perm (o : OrdMap String V) : (objectEntries o).Perm o.entries := propertyOrder_perm _

theorem mem_objectEntries (o : OrdMap String V) (k : String) (v : V) :
    (k, v) ∈ objectEntries o ↔ o.get? k = some v := by
  rw [(objectEntries_perm o).mem_iff, OrdMap.mem_entries_iff]

theorem mem_objectKeys (o : OrdMap String V) (k : String) : k ∈ objectKeys o ↔ ∃ v, o.get? k = some v := by
  simp [objectKeys, mem_objectEntries]

/-- `o[key] = v`. Assigning to `__proto__` sets the prototype and no property. -/
def assignProperty (o : OrdMap String V) (key : String) (v : V) : OrdMap String V :=
  if key = "__proto__" then o else o.set key v

/-- `o[key] = v` for every pair of a list, in order. -/
def assignAll (o : OrdMap String V) (es : List (String × V)) : OrdMap String V :=
  es.foldl (fun o e => assignProperty o e.1 e.2) o

/-- Setting what an object lists overwrites what was there. -/
theorem get?_setAll_objectEntries (m o : OrdMap String V) (key : String) :
    (m.setAll (objectEntries o)).get? key = (o.get? key).or (m.get? key) := by
  have hnodup : ((objectEntries o).map Prod.fst).Nodup := ((objectEntries_perm o).map Prod.fst).nodup_iff.2 o.nodup
  cases hkey : o.get? key with
  | some v => simpa using m.get?_setAll_of_mem hnodup ((mem_objectEntries o key v).2 hkey)
  | none =>
    refine m.get?_setAll_of_notMem fun hmem => ?_
    obtain ⟨v, hv⟩ := (mem_objectKeys o key).1 hmem
    rw [hkey] at hv
    cases hv

/-- `Object.keys(o).length > 0`. -/
def hasKeys (o : OrdMap String V) : Bool := decide ((objectKeys o).length > 0)

end LainLang.Js
