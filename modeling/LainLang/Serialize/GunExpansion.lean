import LainLang.Serialize.GunResolve
/-!
# Full expansion

`expand env` is what an object stands for when `env` says what each node stands
for; an `Expansion` of a store says that of every node. `gun_resolve` ends with
the expansion of the object if and only if no node is referenced twice on the
way: the set of visited nodes is shared by all branches, so the second reference
to a node is `null`, whether or not there is a cycle.
-/
open LainLang.Lib LainLang.Js

namespace LainLang.Serialize

/-! ## The meaning of an object -/

mutual

/-- The object with every reference replaced, and the metadata of nodes dropped. -/
def expand (env : String → Json) : Json → Json
  | .arr items => .arr (expand_items env items)
  | .obj fields =>
    match gun_reference fields with
    | some id => env id
    | none => .obj (expand_fields env (is_gun_graph fields) fields)
  | v => v

/-- The items of an array, expanded. -/
def expand_items (env : String → Json) : List Json → List Json
  | [] => []
  | v :: vs => expand env v :: expand_items env vs

/-- The fields of an object, expanded, without the metadata of a node. -/
def expand_fields (env : String → Json) (graph : Bool) : List (String × Json) → List (String × Json)
  | [] => []
  | (key, v) :: fs =>
    if is_data graph key then (key, expand env v) :: expand_fields env graph fs else expand_fields env graph fs

end

mutual

/-- The nodes the object refers to, each followed by the nodes below it. -/
def references (below : String → List String) : Json → List String
  | .arr items => references_items below items
  | .obj fields =>
    match gun_reference fields with
    | some id => id :: below id
    | none => references_fields below (is_gun_graph fields) fields
  | _ => []

/-- The references in the items of an array. -/
def references_items (below : String → List String) : List Json → List String
  | [] => []
  | v :: vs => references below v ++ references_items below vs

/-- The references in the fields of an object. -/
def references_fields (below : String → List String) (graph : Bool) : List (String × Json) → List String
  | [] => []
  | (key, v) :: fs =>
    if is_data graph key then references below v ++ references_fields below graph fs
    else references_fields below graph fs

end

mutual

/-- The keys of the data in an object, references aside. -/
def data_keys : Json → List String
  | .arr items => data_keys_items items
  | .obj fields =>
    match gun_reference fields with
    | some _ => []
    | none => data_keys_fields (is_gun_graph fields) fields
  | _ => []

/-- The keys of data in the items of an array. -/
def data_keys_items : List Json → List String
  | [] => []
  | v :: vs => data_keys v ++ data_keys_items vs

/-- The keys of data in the fields of an object. -/
def data_keys_fields (graph : Bool) : List (String × Json) → List String
  | [] => []
  | (key, v) :: fs =>
    if is_data graph key then key :: (data_keys v ++ data_keys_fields graph fs) else data_keys_fields graph fs

end

mutual

/-- The object is nowhere deeper than the limit, counted from `depth`. -/
def fits (depth : ℕ) : Json → Prop
  | .arr items => depth ≤ maxDepth ∧ fits_items (depth + 1) items
  | .obj fields =>
    depth ≤ maxDepth ∧ match gun_reference fields with
      | some _ => True
      | none => fits_fields (is_gun_graph fields) (if is_gun_graph fields then 0 else depth + 1) fields
  | _ => depth ≤ maxDepth

/-- The items of an array stay within the depth. -/
def fits_items (depth : ℕ) : List Json → Prop
  | [] => True
  | v :: vs => fits depth v ∧ fits_items depth vs

/-- The fields of an object stay within the depth. -/
def fits_fields (graph : Bool) (depth : ℕ) : List (String × Json) → Prop
  | [] => True
  | (key, v) :: fs => (is_data graph key = true → fits depth v) ∧ fits_fields graph depth fs

end

/-- What every node of the store stands for, and the nodes below it. -/
structure Expansion (gun : GunStore) where
  env : String → Json
  below : String → List String
  env_eq : ∀ id node, read_gun_node gun id = some node → env id = expand env node
  below_eq : ∀ id node, read_gun_node gun id = some node → below id = references below node

/-! ## The meaning of a promise -/

mutual

/-- What a promise is settled with if nothing is lost. -/
def Pending.expected (env : String → Json) : Pending → Json
  | .leaf (.value v) => v
  | .leaf .failed => .null
  | .leaf (.reading id) => env id
  | .leaf (.circular id) => env id
  | .caught p => p.expected env
  | .all true items => .arr ((expecteds env items).map Prod.snd)
  | .all false items => .obj (expecteds env items)

/-- The values pending fields should settle to. -/
def expecteds (env : String → Json) : List (String × Pending) → List (String × Json)
  | [] => []
  | (key, p) :: ps => (key, p.expected env) :: expecteds env ps

end

mutual

/-- The reads that a pending value waits for. -/
def Pending.leaves : Pending → List Leaf
  | .leaf l => [l]
  | .caught p => p.leaves
  | .all _ items => leaves_items items

/-- The reads that pending fields wait for. -/
def leaves_items : List (String × Pending) → List Leaf
  | [] => []
  | (_, p) :: ps => p.leaves ++ leaves_items ps

end

mutual

/-- The keys of the objects a promise builds. -/
def Pending.keys : Pending → List String
  | .leaf _ => []
  | .caught p => p.keys
  | .all array items => (if array then [] else items.map Prod.fst) ++ keys_items items

/-- The keys of pending fields. -/
def keys_items : List (String × Pending) → List String
  | [] => []
  | (_, p) :: ps => p.keys ++ keys_items ps

end

/-- The node a leaf waits for. -/
def Leaf.waits : Leaf → Option String
  | .reading id => some id
  | _ => none

/-- The nodes a leaf stands for: the one it refers to, and those below it. -/
def Leaf.stands (below : String → List String) : Leaf → List String
  | .reading id => id :: below id
  | .circular id => id :: below id
  | _ => []

/-- The leaves `ls` of a walk that marked `visited'` from `visited` on, over an
object with the references `ids`. -/
structure Walked (below : String → List String) (visited visited' : List String) (ls : List Leaf)
    (ids : List String) : Prop where
  stands : ls.flatMap (Leaf.stands below) = ids
  marked : visited'.Perm (visited ++ ls.filterMap Leaf.waits)
  nodup : visited.Nodup → visited'.Nodup
  unfailed : .failed ∉ ls
  linear : (∀ id ∈ ids, id ∉ visited) → ids.Nodup → ∀ id, .circular id ∉ ls

variable {below : String → List String} {env : String → Json}

theorem Walked.nil (visited : List String) : Walked below visited visited [] [] where
  stands := rfl
  marked := by simp
  nodup := fun h => h
  unfailed := by simp
  linear := by simp

theorem Walked.value (visited : List String) (v : Json) : Walked below visited visited [.value v] [] where
  stands := rfl
  marked := by simp [List.filterMap_cons, Leaf.waits]
  nodup := fun h => h
  unfailed := by simp
  linear := by simp

theorem waits_subset_stands {ls : List Leaf} {id : String} (h : id ∈ ls.filterMap Leaf.waits) :
    id ∈ ls.flatMap (Leaf.stands below) := by
  obtain ⟨l, hl, hw⟩ := List.mem_filterMap.1 h
  refine List.mem_flatMap.2 ⟨l, hl, ?_⟩
  cases l <;> simp_all [Leaf.waits, Leaf.stands]

theorem Walked.append {v0 v1 v2 : List String} {ls ls' : List Leaf} {ids ids' : List String}
    (h : Walked below v0 v1 ls ids) (h' : Walked below v1 v2 ls' ids') :
    Walked below v0 v2 (ls ++ ls') (ids ++ ids') where
  stands := by rw [List.flatMap_append, h.stands, h'.stands]
  marked := by
    rw [List.filterMap_append, ← List.append_assoc]
    exact h'.marked.trans (h.marked.append_right _)
  nodup := fun hn => h'.nodup (h.nodup hn)
  unfailed := by simp [h.unfailed, h'.unfailed]
  linear := by
    intro hfresh hn id hid
    obtain ⟨hn1, hn2, hdisj⟩ := List.nodup_append.1 hn
    rcases List.mem_append.1 hid with hid | hid
    · exact h.linear (fun i hi => hfresh i (by simp [hi])) hn1 id hid
    · refine h'.linear ?_ hn2 id hid
      intro i hi hmem
      rcases List.mem_append.1 (h.marked.subset hmem) with hold | hnew
      · exact hfresh i (by simp [hi]) hold
      · -- marked on the way: then both parts refer to it
        have hmem' : i ∈ ids := by
          rw [← h.stands]
          exact waits_subset_stands hnew
        exact hdisj i hmem' i hi rfl

theorem walked_reference (visited : List String) (id : String) :
    Walked below visited (resolve_gun_reference visited id).2 (resolve_gun_reference visited id).1.leaves
      (id :: below id) := by
  by_cases h : id ∈ visited
  · rw [resolve_gun_reference, if_pos h]
    refine ⟨by simp [Pending.leaves, Leaf.stands], by simp [Pending.leaves, List.filterMap_cons, Leaf.waits], fun hn => hn,
      by simp [Pending.leaves], ?_⟩
    intro hfresh
    exact absurd h (hfresh id (by simp))
  · rw [resolve_gun_reference, if_neg h]
    refine ⟨by simp [Pending.leaves, Leaf.stands], ?_, ?_, by simp [Pending.leaves], by simp [Pending.leaves]⟩
    · simpa [Pending.leaves, List.filterMap_cons, Leaf.waits] using (List.perm_append_singleton id visited).symm
    · intro hn
      exact List.nodup_cons.2 ⟨h, hn⟩

mutual

theorem walked (depth : ℕ) (visited : List String) : ∀ v : Json, fits depth v →
    Walked below visited (resolve_gun_object depth visited v).2 (resolve_gun_object depth visited v).1.leaves
      (references below v)
  | .arr items, h => by
    simp only [fits] at h
    have ih := walked_items (depth + 1) visited items h.2
    simpa [resolve_gun_object, not_lt.2 h.1, Pending.leaves, references] using ih
  | .obj fields, h => by
    simp only [fits] at h
    cases href : gun_reference fields with
    | some id => simpa [resolve_gun_object, not_lt.2 h.1, href, references] using walked_reference visited id
    | none =>
      simp only [href] at h
      have ih := walked_fields (is_gun_graph fields) _ visited fields h.2
      simpa [resolve_gun_object, not_lt.2 h.1, href, Pending.leaves, references] using ih
  | .null, h => by
    simp only [fits] at h
    simpa [resolve_gun_object, not_lt.2 h, Pending.leaves, references] using Walked.value visited _
  | .bool b, h => by
    simp only [fits] at h
    simpa [resolve_gun_object, not_lt.2 h, Pending.leaves, references] using Walked.value visited _
  | .num n, h => by
    simp only [fits] at h
    simpa [resolve_gun_object, not_lt.2 h, Pending.leaves, references] using Walked.value visited _
  | .str s, h => by
    simp only [fits] at h
    simpa [resolve_gun_object, not_lt.2 h, Pending.leaves, references] using Walked.value visited _

theorem walked_items (depth : ℕ) (visited : List String) : ∀ vs : List Json, fits_items depth vs →
    Walked below visited (resolve_items depth visited vs).2 (leaves_items (resolve_items depth visited vs).1)
      (references_items below vs)
  | [], _ => by simpa [resolve_items, leaves_items, references_items] using Walked.nil visited
  | v :: vs, h => by
    simp only [fits_items] at h
    have ih := walked depth visited v h.1
    have ih' := walked_items depth (resolve_gun_object depth visited v).2 vs h.2
    simpa [resolve_items, leaves_items, references_items] using ih.append ih'

theorem walked_fields (graph : Bool) (depth : ℕ) (visited : List String) :
    ∀ fs : List (String × Json), fits_fields graph depth fs →
    Walked below visited (resolve_fields graph depth visited fs).2
      (leaves_items (resolve_fields graph depth visited fs).1) (references_fields below graph fs)
  | [], _ => by simpa [resolve_fields, leaves_items, references_fields] using Walked.nil visited
  | (key, v) :: fs, h => by
    simp only [fits_fields] at h
    by_cases hdata : is_data graph key = true
    · have ih := walked depth visited v (h.1 hdata)
      have ih' := walked_fields graph depth (resolve_gun_object depth visited v).2 fs h.2
      simpa [resolve_fields, leaves_items, references_fields, hdata] using ih.append ih'
    · have ih' := walked_fields graph depth visited fs h.2
      simpa [resolve_fields, leaves_items, references_fields, hdata] using ih'

end

mutual

/-- What the walk builds is the object expanded, if nothing is lost. -/
theorem expected_walk (depth : ℕ) (visited : List String) : ∀ v : Json, fits depth v →
    (resolve_gun_object depth visited v).1.expected env = expand env v
  | .arr items, h => by
    simp only [fits] at h
    have ih := expected_items (depth + 1) visited items h.2
    simpa [resolve_gun_object, not_lt.2 h.1, Pending.expected, expand] using ih
  | .obj fields, h => by
    simp only [fits] at h
    cases href : gun_reference fields with
    | some id =>
      by_cases hv : id ∈ visited
      · simp [resolve_gun_object, not_lt.2 h.1, href, expand, resolve_gun_reference, hv, Pending.expected]
      · simp [resolve_gun_object, not_lt.2 h.1, href, expand, resolve_gun_reference, hv, Pending.expected]
    | none =>
      simp only [href] at h
      have ih := expected_fields (is_gun_graph fields) _ visited fields h.2
      simpa [resolve_gun_object, not_lt.2 h.1, href, Pending.expected, expand] using ih
  | .null, h => by
    simp only [fits] at h
    simp [resolve_gun_object, not_lt.2 h, Pending.expected, expand]
  | .bool b, h => by
    simp only [fits] at h
    simp [resolve_gun_object, not_lt.2 h, Pending.expected, expand]
  | .num n, h => by
    simp only [fits] at h
    simp [resolve_gun_object, not_lt.2 h, Pending.expected, expand]
  | .str s, h => by
    simp only [fits] at h
    simp [resolve_gun_object, not_lt.2 h, Pending.expected, expand]

theorem expected_items (depth : ℕ) (visited : List String) : ∀ vs : List Json, fits_items depth vs →
    (expecteds env (resolve_items depth visited vs).1).map Prod.snd = expand_items env vs
  | [], _ => by simp [resolve_items, expecteds, expand_items]
  | v :: vs, h => by
    simp only [fits_items] at h
    have ih := expected_walk depth visited v h.1
    have ih' := expected_items depth (resolve_gun_object depth visited v).2 vs h.2
    simp [resolve_items, expecteds, expand_items, ih, ih']

theorem expected_fields (graph : Bool) (depth : ℕ) (visited : List String) :
    ∀ fs : List (String × Json), fits_fields graph depth fs →
    expecteds env (resolve_fields graph depth visited fs).1 = expand_fields env graph fs
  | [], _ => by simp [resolve_fields, expecteds, expand_fields]
  | (key, v) :: fs, h => by
    simp only [fits_fields] at h
    by_cases hdata : is_data graph key = true
    · have ih := expected_walk depth visited v (h.1 hdata)
      have ih' := expected_fields graph depth (resolve_gun_object depth visited v).2 fs h.2
      simp [resolve_fields, expecteds, expand_fields, hdata, ih, ih']
    · have ih' := expected_fields graph depth visited fs h.2
      simpa [resolve_fields, expecteds, expand_fields, hdata] using ih'

end

mutual

/-- The objects the walk builds have the keys of the data. -/
theorem keys_walk (key : String) (depth : ℕ) (visited : List String) : ∀ v : Json, fits depth v →
    (key ∈ (resolve_gun_object depth visited v).1.keys ↔ key ∈ data_keys v)
  | .arr items, h => by
    simp only [fits] at h
    have ih := keys_items_walk key (depth + 1) visited items h.2
    simpa [resolve_gun_object, not_lt.2 h.1, Pending.keys, data_keys] using ih
  | .obj fields, h => by
    simp only [fits] at h
    cases href : gun_reference fields with
    | some id =>
      by_cases hv : id ∈ visited
      · simp [resolve_gun_object, not_lt.2 h.1, href, data_keys, resolve_gun_reference, hv, Pending.keys]
      · simp [resolve_gun_object, not_lt.2 h.1, href, data_keys, resolve_gun_reference, hv, Pending.keys]
    | none =>
      simp only [href] at h
      have ih := keys_fields_walk key (is_gun_graph fields) _ visited fields h.2
      simpa [resolve_gun_object, not_lt.2 h.1, href, Pending.keys, data_keys] using ih
  | .null, h => by
    simp only [fits] at h
    simp [resolve_gun_object, not_lt.2 h, Pending.keys, data_keys]
  | .bool b, h => by
    simp only [fits] at h
    simp [resolve_gun_object, not_lt.2 h, Pending.keys, data_keys]
  | .num n, h => by
    simp only [fits] at h
    simp [resolve_gun_object, not_lt.2 h, Pending.keys, data_keys]
  | .str s, h => by
    simp only [fits] at h
    simp [resolve_gun_object, not_lt.2 h, Pending.keys, data_keys]

theorem keys_items_walk (key : String) (depth : ℕ) (visited : List String) : ∀ vs : List Json, fits_items depth vs →
    (key ∈ keys_items (resolve_items depth visited vs).1 ↔ key ∈ data_keys_items vs)
  | [], _ => by simp [resolve_items, keys_items, data_keys_items]
  | v :: vs, h => by
    simp only [fits_items] at h
    have ih := keys_walk key depth visited v h.1
    have ih' := keys_items_walk key depth (resolve_gun_object depth visited v).2 vs h.2
    simp [resolve_items, keys_items, data_keys_items, ih, ih']

theorem keys_fields_walk (key : String) (graph : Bool) (depth : ℕ) (visited : List String) :
    ∀ fs : List (String × Json), fits_fields graph depth fs →
    (key ∈ (resolve_fields graph depth visited fs).1.map Prod.fst ++ keys_items (resolve_fields graph depth visited fs).1 ↔
      key ∈ data_keys_fields graph fs)
  | [], _ => by simp [resolve_fields, keys_items, data_keys_fields]
  | (k, v) :: fs, h => by
    simp only [fits_fields] at h
    by_cases hdata : is_data graph k = true
    · have ih := keys_walk key depth visited v (h.1 hdata)
      have ih' := keys_fields_walk key graph depth (resolve_gun_object depth visited v).2 fs h.2
      simp only [List.mem_append] at ih'
      simp only [resolve_fields, keys_items, data_keys_fields, hdata, if_true, List.map_cons, List.cons_append,
        List.mem_cons, List.mem_append, ih, ← ih']
      grind
    · have ih' := keys_fields_walk key graph depth visited fs h.2
      simpa [resolve_fields, keys_items, data_keys_fields, hdata] using ih'

end

end LainLang.Serialize
