import LainLang.Compiler.Hash
import LainLang.Lib.Run
/-!
# Whose entry a deletion removes

The store is keyed by content hash, so an object that is stored under the hash of
another takes its slot. `delete` and the finaliser of a collected object clear
the slot of a hash without asking who is in it. They leave the other objects'
entries alone exactly if the slot is not another live object's at that moment.
-/
open LainLang.Lib

namespace LainLang.Compiler

variable {Obj : Type} [DecidableEq Obj]

namespace HashStore

/-- The collector takes an object, and the weak map forgets it. -/
def collect (obj : Obj) (s : HashStore Obj) : HashStore Obj :=
  { s with
    objectToHash := s.objectToHash.delete obj
    collected := obj :: s.collected }

/-- The registry still has the cell, and its target was collected. -/
def mayFinalise (obj : Obj) (hash : String) (s : HashStore Obj) : Bool :=
  decide (obj ∈ s.collected) && s.registry.any fun r => decide (r.target = obj) && decide (r.heldValue = hash)

/-- The registry calls back for one of its cells, some time after its target was
collected. -/
def finalise (obj : Obj) (hash : String) (s : HashStore Obj) : HashStore Obj :=
  if s.mayFinalise obj hash then
    let registry := s.registry.eraseP fun r => decide (r.target = obj) && decide (r.heldValue = hash)
    ({ s with registry } : HashStore Obj).dropHash hash
  else s

end HashStore

/-- A call of the store, or what the collector does between calls. -/
inductive StoreStep (Obj : Type) where
  | get (hash : String)
  | has (hash : String)
  | set (hash : String) (obj : Obj)
  | get_or_set (hash : String) (created : Obj)
  | get_hash (serialized : String) (x : Obj)
  | delete (obj : Obj)
  | deleteByHash (hash : String)
  | collect (obj : Obj)
  | finalise (obj : Obj) (hash : String)

/-- One step of a run. -/
def store_step (s : HashStore Obj) : StoreStep Obj → HashStore Obj
  | .get hash => (s.get hash).2
  | .has hash => (s.has hash).2
  | .set hash obj => s.set hash obj
  | .get_or_set hash created => (s.get_or_set hash created).2
  | .get_hash serialized x => ((Compiler.get_hash serialized x).run s).2
  | .delete obj => s.delete obj
  | .deleteByHash hash => s.deleteByHash hash
  | .collect obj => s.collect obj
  | .finalise obj hash => s.finalise obj hash

/-- `eff_dispose_unfolded_closure` deletes the closure and then the template. -/
def dispose_steps (closure : Obj) (apply_closure_template : Option Obj) : List (StoreStep Obj) :=
  .delete closure :: (apply_closure_template.map .delete).toList

/-! ## Looking up a live object -/

/-- The object `get` would return. -/
def HashStore.lookup (s : HashStore Obj) (hash : String) : Option Obj := (s.get hash).1

/-- The object that a step deletes or collects. -/
def removed (s : HashStore Obj) : StoreStep Obj → Option Obj
  | .delete obj => some obj
  | .deleteByHash hash => s.lookup hash
  | .collect obj => some obj
  | .finalise obj _ => some obj
  | _ => none

/-- Deleting or collecting an object leaves the entry of every other live object. -/
def KeepsOthers (s : HashStore Obj) (step : StoreStep Obj) : Prop :=
  ∀ o, removed s step = some o → ∀ hash p, p ≠ o → s.lookup hash = some p → (store_step s step).lookup hash = some p

/-- The slot of a hash is free, or the object's own, or that of a collected object. -/
def NotAnothers (s : HashStore Obj) (hash : String) (obj : Obj) : Prop := ∀ p, s.lookup hash = some p → p = obj

/-- What a deletion or a finaliser clears is not the slot of another live object. -/
def ClearsOwn (s : HashStore Obj) : StoreStep Obj → Prop
  | .delete obj => s.remembered obj ≠ "" → NotAnothers s (s.remembered obj) obj
  | .finalise obj hash => s.mayFinalise obj hash = true → NotAnothers s hash obj
  | _ => True

/-! ### What each operation does to the lookups -/

theorem lookup_eq (s : HashStore Obj) (hash : String) : s.lookup hash = (s.hashToRef.get? hash).bind s.deref := by
  unfold HashStore.lookup HashStore.get
  cases s.hashToRef.get? hash with
  | none => rfl
  | some ref => cases h : s.deref ref <;> simp [h]

/-- The registry and what objects remember have no part in a lookup. -/
theorem lookup_congr (s s' : HashStore Obj) (hash : String) (href : s.hashToRef = s'.hashToRef)
    (hcollected : s.collected = s'.collected) : s.lookup hash = s'.lookup hash := by
  have hderef : s.deref = s'.deref := by
    funext obj
    rw [HashStore.deref, hcollected, HashStore.deref]
  rw [lookup_eq, lookup_eq, href, hderef]

theorem lookup_dropHash (s : HashStore Obj) (hash hash' : String) :
    (s.dropHash hash).lookup hash' = if hash' = hash then none else s.lookup hash' := by
  rw [lookup_eq, lookup_eq, HashStore.dropHash, OrdMap.get?_delete]
  split <;> rfl

theorem lookup_delete (s : HashStore Obj) (obj : Obj) (hash : String) :
    (s.delete obj).lookup hash =
      if s.remembered obj ≠ "" ∧ hash = s.remembered obj then none else s.lookup hash := by
  unfold HashStore.delete
  by_cases hremembered : s.remembered obj = ""
  · simp [hremembered]
  · simp only [hremembered, ne_eq, not_false_eq_true, true_and, if_false]
    rw [← lookup_dropHash]
    exact lookup_congr _ _ hash rfl rfl

theorem lookup_deleteByHash (s : HashStore Obj) (hash hash' : String) :
    (s.deleteByHash hash).lookup hash' = if hash' = hash then none else s.lookup hash' := by
  unfold HashStore.deleteByHash
  cases href : s.hashToRef.get? hash with
  | none =>
    dsimp only
    split
    · rename_i hhash
      rw [lookup_eq, hhash, href]
      rfl
    · rfl
  | some ref =>
    dsimp only
    cases s.deref ref with
    | none => exact lookup_dropHash s hash hash'
    | some obj =>
      rw [lookup_dropHash]
      exact if_congr Iff.rfl rfl (lookup_congr _ s hash' rfl rfl)

theorem lookup_collect (s : HashStore Obj) (obj : Obj) (hash : String) :
    (s.collect obj).lookup hash = (s.lookup hash).filter (· ≠ obj) := by
  rw [lookup_eq, lookup_eq]
  cases href : s.hashToRef.get? hash with
  | none => simp [HashStore.collect, href]
  | some ref =>
    simp only [HashStore.collect, href, Option.bind_some, HashStore.deref, List.mem_cons]
    by_cases hcollected : ref ∈ s.collected
    · simp [hcollected]
    · by_cases hobj : ref = obj
      · subst hobj
        simp [hcollected, Option.filter]
      · simp [hcollected, hobj, Option.filter]

theorem lookup_finalise (s : HashStore Obj) (obj : Obj) (hash hash' : String) :
    (s.finalise obj hash).lookup hash' =
      if s.mayFinalise obj hash = true ∧ hash' = hash then none else s.lookup hash' := by
  unfold HashStore.finalise
  by_cases hmay : s.mayFinalise obj hash = true
  · rw [if_pos hmay, lookup_dropHash]
    simp only [hmay, true_and]
    exact if_congr Iff.rfl rfl (lookup_congr _ s hash' rfl rfl)
  · simp [hmay]

/-! ## The frame -/

/-- Clearing the slot of a hash keeps the entries of the others exactly if the slot
is not one of theirs. -/
theorem clear_keeps_iff {s s' : HashStore Obj} {C : Prop} {cleared : String} {o : Obj} [Decidable C]
    (h : ∀ hash, s'.lookup hash = if C ∧ hash = cleared then none else s.lookup hash) :
    (∀ hash p, p ≠ o → s.lookup hash = some p → s'.lookup hash = some p) ↔ (C → NotAnothers s cleared o) := by
  constructor
  · intro hkeeps hC p hp
    by_contra hne
    have hafter := hkeeps cleared p hne hp
    rw [h, if_pos ⟨hC, rfl⟩] at hafter
    cases hafter
  · intro hown hash p hne hp
    rw [h, if_neg, hp]
    rintro ⟨hC, rfl⟩
    exact hne (hown hC p hp)

/-- One step keeps the others' entries exactly if it clears no other's slot. -/
theorem keepsOthers_iff (s : HashStore Obj) (step : StoreStep Obj) : KeepsOthers s step ↔ ClearsOwn s step := by
  cases step with
  | delete obj =>
    simp only [KeepsOthers, removed, Option.some.injEq, forall_eq', ClearsOwn]
    exact clear_keeps_iff (lookup_delete s obj)
  | deleteByHash hash =>
    -- The object deleted is the one in the slot.
    simp only [KeepsOthers, removed, ClearsOwn, iff_true]
    intro o ho
    have hclear : ∀ hash', (s.deleteByHash hash).lookup hash' = if True ∧ hash' = hash then none else s.lookup hash' := by
      simpa using lookup_deleteByHash s hash
    refine (clear_keeps_iff hclear).2 fun _ p hp => ?_
    exact Option.some.inj (hp.symm.trans ho)
  | collect obj =>
    simp only [KeepsOthers, removed, Option.some.injEq, forall_eq', ClearsOwn, iff_true]
    intro hash p hne hp
    simp [store_step, lookup_collect, hp, Option.filter, hne]
  | finalise obj hash =>
    simp only [KeepsOthers, removed, Option.some.injEq, forall_eq', ClearsOwn]
    exact clear_keeps_iff (lookup_finalise s obj hash)
  | _ => simp [KeepsOthers, removed, ClearsOwn]

/-! ## Objects with hashes of their own -/

/-- The hash and the object that a step offers to the store. -/
def offered : StoreStep Obj → Option (String × Obj)
  | .set hash obj => some (hash, obj)
  | .get_or_set hash created => some (hash, created)
  | .get_hash serialized x => some (simpleHash serialized, x)
  | _ => none

/-- The store holds, remembers and has registered only what was offered to it. -/
structure Holds (offers : Set (String × Obj)) (s : HashStore Obj) : Prop where
  slots : ∀ {hash obj}, s.hashToRef.get? hash = some obj → (hash, obj) ∈ offers
  remembered : ∀ {obj hash}, s.objectToHash.get? obj = some hash → (hash, obj) ∈ offers
  registered : ∀ r ∈ s.registry, (r.heldValue, r.target) ∈ offers

section
variable {offers : Set (String × Obj)} {s : HashStore Obj}

theorem Holds.set (h : Holds offers s) {hash : String} {obj : Obj} (hnew : (hash, obj) ∈ offers) :
    Holds offers (s.set hash obj) := by
  constructor
  · intro hash' obj' hget
    simp only [HashStore.set, HashStore.set, OrdMap.get?_set] at hget
    split at hget
    · rename_i hhash
      obtain rfl := Option.some.inj hget
      rwa [hhash]
    · exact h.slots hget
  · intro obj' hash' hget
    simp only [HashStore.set, HashStore.set, OrdMap.get?_set] at hget
    split at hget
    · rename_i hobj
      obtain rfl := Option.some.inj hget
      rwa [hobj]
    · exact h.remembered hget
  · intro r hr
    rcases List.mem_append.1 hr with hr | hr
    · exact h.registered r hr
    · rw [List.mem_singleton.1 hr]
      exact hnew

/-- An operation that only takes entries away. -/
theorem Holds.fewer {s' : HashStore Obj} (h : Holds offers s)
    (hslots : ∀ {hash obj}, s'.hashToRef.get? hash = some obj → s.hashToRef.get? hash = some obj)
    (hremembered : ∀ {obj hash}, s'.objectToHash.get? obj = some hash → s.objectToHash.get? obj = some hash)
    (hregistered : s'.registry ⊆ s.registry) : Holds offers s' where
  slots hget := h.slots (hslots hget)
  remembered hget := h.remembered (hremembered hget)
  registered r hr := h.registered r (hregistered hr)

theorem get?_delete_some {K V : Type} [DecidableEq K] {m : OrdMap K V} {k k' : K} {v : V}
    (h : (m.delete k).get? k' = some v) : m.get? k' = some v := by
  rw [OrdMap.get?_delete] at h
  split at h
  · cases h
  · exact h

theorem Holds.dropHash (h : Holds offers s) (hash : String) : Holds offers (s.dropHash hash) :=
  h.fewer get?_delete_some id (List.Subset.refl _)

theorem Holds.get (h : Holds offers s) (hash : String) : Holds offers (s.get hash).2 := by
  unfold HashStore.get
  cases s.hashToRef.get? hash with
  | none => exact h
  | some ref =>
    dsimp only
    cases s.deref ref with
    | none => exact h.dropHash hash
    | some obj => exact h

theorem Holds.delete (h : Holds offers s) (obj : Obj) : Holds offers (s.delete obj) := by
  unfold HashStore.delete
  dsimp only
  split
  · exact h
  · exact h.fewer get?_delete_some get?_delete_some List.filter_sublist.subset

theorem Holds.deleteByHash (h : Holds offers s) (hash : String) : Holds offers (s.deleteByHash hash) := by
  unfold HashStore.deleteByHash
  cases s.hashToRef.get? hash with
  | none => exact h
  | some ref =>
    dsimp only
    cases s.deref ref with
    | none => exact h.dropHash hash
    | some obj => exact h.fewer get?_delete_some get?_delete_some List.filter_sublist.subset

theorem Holds.collect (h : Holds offers s) (obj : Obj) : Holds offers (s.collect obj) :=
  h.fewer id get?_delete_some (List.Subset.refl _)

theorem Holds.finalise (h : Holds offers s) (obj : Obj) (hash : String) : Holds offers (s.finalise obj hash) := by
  unfold HashStore.finalise
  split
  · exact h.fewer get?_delete_some id List.eraseP_subset
  · exact h

theorem Holds.step (h : Holds offers s) (step : StoreStep Obj) (hoffered : ∀ e, offered step = some e → e ∈ offers) :
    Holds offers (store_step s step) := by
  cases step with
  | get hash => exact h.get hash
  | has hash => exact h.get hash
  | set hash obj => exact h.set (hoffered _ rfl)
  | get_or_set hash created =>
    have hget := h.get hash
    simp only [store_step, HashStore.get_or_set]
    cases hfound : s.get hash with
    | mk found s1 =>
      rw [hfound] at hget
      cases found with
      | none => exact hget.set (hoffered _ rfl)
      | some existing => exact hget
  | get_hash serialized x =>
    rw [store_step, get_hash_eq]
    split
    · exact h
    · rw [calculate_hash_run]
      refine Holds.set ?_ (hoffered _ rfl)
      dsimp only
      split
      · exact h.get _
      · exact (h.get _).set (hoffered _ rfl)
  | delete obj => exact h.delete obj
  | deleteByHash hash => exact h.deleteByHash hash
  | collect obj => exact h.collect obj
  | finalise obj hash => exact h.finalise obj hash

/-- Where no hash is offered for two objects, what is cleared is the object's own. -/
theorem Holds.clearsOwn (h : Holds offers s) (hown : ∀ {hash o p}, (hash, o) ∈ offers → (hash, p) ∈ offers → p = o)
    (step : StoreStep Obj) : ClearsOwn s step := by
  have hlookup : ∀ {hash p}, s.lookup hash = some p → (hash, p) ∈ offers := by
    intro hash p hp
    rw [lookup_eq] at hp
    obtain ⟨ref, href, hderef⟩ := Option.bind_eq_some_iff.1 hp
    unfold HashStore.deref at hderef
    split at hderef
    · cases hderef
    · obtain rfl := Option.some.inj hderef
      exact h.slots href
  cases step with
  | delete obj =>
    intro hremembered p hp
    cases hget : s.objectToHash.get? obj with
    | none => exact absurd (by simp [HashStore.remembered, hget]) hremembered
    | some hash =>
      have heq : s.remembered obj = hash := by simp [HashStore.remembered, hget]
      rw [heq] at hp
      exact hown (h.remembered hget) (hlookup hp)
  | finalise obj hash =>
    intro hmay p hp
    simp only [HashStore.mayFinalise, Bool.and_eq_true, List.any_eq_true, decide_eq_true_eq] at hmay
    obtain ⟨-, r, hr, htarget, hheld⟩ := hmay
    have hoffer := h.registered r hr
    rw [htarget, hheld] at hoffer
    exact hown hoffer (hlookup hp)
  | _ => trivial

end

/-- No two objects are offered under one hash in the whole run. -/
def OwnHashes (steps : List (StoreStep Obj)) : Prop :=
  ∀ step ∈ steps, ∀ step' ∈ steps, ∀ hash o p, offered step = some (hash, o) →
    offered step' = some (hash, p) → p = o

/-- Then no deletion and no finaliser touches another object's entry. -/
theorem frame_of_own_hashes (steps : List (StoreStep Obj)) (hown : OwnHashes steps) :
    Stepwise store_step HashStore.empty steps KeepsOthers := by
  let offers : Set (String × Obj) := { e | ∃ step ∈ steps, offered step = some e }
  have hinit : Holds offers HashStore.empty := by
    constructor
    · intro hash obj hget
      cases hget
    · intro obj hash hget
      cases hget
    · exact fun r hr => absurd hr List.not_mem_nil
  have hsteps : Stepwise store_step HashStore.empty steps fun _ step => step ∈ steps :=
    fun pre step hpre => hpre.subset (by simp)
  have hholds : Throughout store_step HashStore.empty steps (Holds offers) :=
    .of_step hinit (fun _ step h hmem => h.step step fun e he => ⟨step, hmem, he⟩) hsteps
  refine hholds.stepwise hsteps fun s step h _ => (keepsOthers_iff s step).2 (h.clearsOwn ?_ step)
  rintro hash o p ⟨step, hstep, ho⟩ ⟨step', hstep', hp⟩
  exact hown step hstep step' hstep' hash o p ho hp

/-! ## The frame -/

/-- A run keeps the others' entries at every deletion and collection exactly if each
delete, and each finaliser, finds the slot it clears free or its own object's. So does
each run that offers no hash for two objects. -/
theorem frame_iff_clears_own (steps : List (StoreStep Obj)) :
    (Stepwise store_step HashStore.empty steps KeepsOthers ↔
      Stepwise store_step HashStore.empty steps ClearsOwn) ∧
      (OwnHashes steps → Stepwise store_step HashStore.empty steps KeepsOthers) := by
  refine ⟨?_, frame_of_own_hashes steps⟩
  exact forall_congr' fun _ => forall_congr' fun _ => imp_congr_right fun _ => keepsOthers_iff _ _

/-- Of two closures with the same hash the second takes the slot, and disposing of
the first removes it. -/
theorem deletion_removes_another : ¬ ∀ steps : List (StoreStep ℕ),
    Stepwise store_step HashStore.empty steps KeepsOthers := by
  intro h
  have hkeeps := h ([.set "1505" 0, .set "1505" 1] ++ dispose_steps 0 none) [.set "1505" 0, .set "1505" 1] (.delete 0)
    List.prefix_rfl
  have hafter := hkeeps 0 rfl "1505" 1 (by decide) (by decide)
  exact absurd hafter (by decide)

end LainLang.Compiler
