import LainLang.Serialize.GunSharing
/-!
# Every run ends

On any store, cyclic or not, and at any depth, a walk marks what it waits for and
waits for nothing that was marked. So no node is read twice in a run, the nodes
read are among the finitely many that the object and the store refer to, and a
run that has nothing to wait for has a value or has failed at the depth limit.
-/
open LainLang.Lib LainLang.Js

namespace LainLang.Serialize

variable {gun : GunStore}

/-! ## What a walk marks -/

/-- The leaves `ls` of a walk that marked `visited'` from `visited` on, over an
object with the direct references `refs`. -/
structure Marks (visited visited' : List String) (ls : List Leaf) (refs : List String) : Prop where
  marked : visited'.Perm (visited ++ ls.filterMap Leaf.waits)
  nodup : visited.Nodup → visited'.Nodup
  referred : ls.filterMap Leaf.waits ⊆ refs

theorem Marks.idle (visited : List String) {ls : List Leaf} (refs : List String) (h : ls.filterMap Leaf.waits = []) :
    Marks visited visited ls refs where
  marked := by simp [h]
  nodup := fun hn => hn
  referred := by simp [h]

theorem Marks.append {v0 v1 v2 : List String} {ls ls' : List Leaf} {refs refs' : List String}
    (h : Marks v0 v1 ls refs) (h' : Marks v1 v2 ls' refs') : Marks v0 v2 (ls ++ ls') (refs ++ refs') where
  marked := by
    rw [List.filterMap_append, ← List.append_assoc]
    exact h'.marked.trans (h.marked.append_right _)
  nodup := fun hn => h'.nodup (h.nodup hn)
  referred := by
    rw [List.filterMap_append]
    exact List.append_subset.2 ⟨List.subset_append_of_subset_left _ h.referred,
      List.subset_append_of_subset_right _ h'.referred⟩

theorem marks_reference (visited : List String) (id : String) :
    Marks visited (resolve_gun_reference visited id).2 (resolve_gun_reference visited id).1.leaves [id] := by
  by_cases h : id ∈ visited
  · rw [resolve_gun_reference, if_pos h]
    exact .idle visited _ rfl
  · rw [resolve_gun_reference, if_neg h]
    refine ⟨(List.perm_append_singleton id visited).symm, fun hn => List.nodup_cons.2 ⟨h, hn⟩, ?_⟩
    exact List.Subset.refl _

mutual

/-- The walk marks as it goes, whatever the depth. -/
theorem marks_walk (depth : ℕ) (visited : List String) : ∀ v : Json,
    Marks visited (resolve_gun_object depth visited v).2 (resolve_gun_object depth visited v).1.leaves
      (direct_references v)
  | .arr items => by
    rw [resolve_gun_object]
    split
    · exact .idle visited _ rfl
    · simpa [Pending.leaves, direct_references, references] using marks_items (depth + 1) visited items
  | .obj fields => by
    rw [resolve_gun_object]
    split
    · exact .idle visited _ rfl
    · cases href : gun_reference fields with
      | some id => simpa [direct_references, references, href] using marks_reference visited id
      | none =>
        simpa [Pending.leaves, direct_references, references, href] using
          marks_fields (is_gun_graph fields) (if is_gun_graph fields then 0 else depth + 1) visited fields
  | .null => by
    rw [resolve_gun_object]
    · split <;> exact .idle visited _ rfl
    all_goals simp
  | .bool b => by
    rw [resolve_gun_object]
    · split <;> exact .idle visited _ rfl
    all_goals simp
  | .num n => by
    rw [resolve_gun_object]
    · split <;> exact .idle visited _ rfl
    all_goals simp
  | .str s => by
    rw [resolve_gun_object]
    · split <;> exact .idle visited _ rfl
    all_goals simp

theorem marks_items (depth : ℕ) (visited : List String) : ∀ vs : List Json,
    Marks visited (resolve_items depth visited vs).2 (leaves_items (resolve_items depth visited vs).1)
      (references_items (fun _ => []) vs)
  | [] => .idle visited _ rfl
  | v :: vs => by
    rw [resolve_items, references_items]
    exact (marks_walk depth visited v).append (marks_items depth (resolve_gun_object depth visited v).2 vs)

theorem marks_fields (graph : Bool) (depth : ℕ) (visited : List String) : ∀ fs : List (String × Json),
    Marks visited (resolve_fields graph depth visited fs).2 (leaves_items (resolve_fields graph depth visited fs).1)
      (references_fields (fun _ => []) graph fs)
  | [] => .idle visited _ rfl
  | (key, v) :: fs => by
    rw [resolve_fields, references_fields]
    split
    · exact (marks_walk depth visited v).append (marks_fields graph depth (resolve_gun_object depth visited v).2 fs)
    · exact marks_fields graph depth visited fs

end

/-! ## Runs -/

/-- The references of the object and of the nodes of the store. -/
def known_references (gun : GunStore) (obj : Json) : List String :=
  direct_references obj ++ gun.values.flatMap direct_references

/-- What was marked has been read or is waited for, each node once, and is referred
to somewhere. -/
structure ReadOnce (gun : GunStore) (obj : Json) (ids visited : List String) (p : Pending) : Prop where
  marked : visited.Perm (ids ++ p.leaves.filterMap Leaf.waits)
  nodup : visited.Nodup
  referred : visited ⊆ known_references gun obj

theorem ReadOnce.start (gun : GunStore) (obj : Json) :
    ReadOnce gun obj [] (resolve_gun_object 0 [] obj).2 (resolve_gun_object 0 [] obj).1 := by
  have hwalk := marks_walk 0 [] obj
  refine ⟨hwalk.marked, hwalk.nodup List.nodup_nil, fun id hid => ?_⟩
  exact List.mem_append_left _ (hwalk.referred (hwalk.marked.subset hid))

theorem read_gun_node_mem {id : String} {node : Json} (h : read_gun_node gun id = some node) : node ∈ gun.values := by
  rw [OrdMap.mem_values_iff]
  unfold read_gun_node at h
  cases hget : gun.get? id with
  | none => simp [hget] at h
  | some data =>
    rw [hget] at h
    exact ⟨id, by split at h <;> simp_all⟩

/-- A read that comes back walks on with marks of its own. -/
theorem marks_continue (visited : List String) (id : String) :
    ∃ refs, Marks visited (continue_reading gun visited id).2 (continue_reading gun visited id).1.leaves refs ∧
      refs ⊆ gun.values.flatMap direct_references := by
  cases hread : read_gun_node gun id with
  | none =>
    rw [continue_reading, hread]
    exact ⟨[], .idle visited _ rfl, List.nil_subset _⟩
  | some node =>
    rw [continue_present hread]
    refine ⟨direct_references node, marks_walk 0 visited node, fun r hr => ?_⟩
    exact List.mem_flatMap.2 ⟨node, read_gun_node_mem hread, hr⟩

theorem ReadOnce.step {obj : Json} {ids visited visited' : List String} {p p' : Pending} {id : String}
    (h : ReadOnce gun obj ids visited p) (hstep : Step gun visited p id visited' p') :
    ReadOnce gun obj (ids ++ [id]) visited' p' := by
  obtain ⟨before, after, hleaves, hleaves', rfl⟩ := step_leaves hstep
  obtain ⟨refs, hwalk, hrefs⟩ := @marks_continue gun visited id
  have hmarked := h.marked
  rw [hleaves, List.filterMap_append, waits_cons] at hmarked
  refine ⟨?_, hwalk.nodup h.nodup, fun r hr => ?_⟩
  · rw [hleaves']
    exact marked_after_read hmarked hwalk.marked
  · rcases List.mem_append.1 (hwalk.marked.subset hr) with hr | hr
    · exact h.referred hr
    · exact List.mem_append_right _ (hrefs (hwalk.referred hr))

theorem readOnce_run {obj : Json} {ids visited : List String} {p : Pending} (h : Reaches gun obj ids visited p) :
    ReadOnce gun obj ids visited p := by
  induction h with
  | start => exact .start gun obj
  | step _ hstep ih => exact ih.step hstep

/-! ## What a promise waits for -/

theorem promise_all_eq_none {key : String} {o : Option (Option Json)} {os : Option (Option (List (String × Json)))}
    (h : promise_all key o os = none) : o = none ∨ os = none := by
  rcases o with _ | _ | v
  · exact .inl rfl
  · cases h
  · rcases os with _ | _ | vs
    · exact .inr rfl
    · cases h
    · cases h

theorem promise_all_rejected {key : String} {o : Option (Option Json)} {os : Option (Option (List (String × Json)))}
    (h : promise_all key o os = some none) : o = some none ∨ os = some none := by
  rcases o with _ | _ | v
  · rcases os with _ | _ | vs
    · cases h
    · exact .inr rfl
    · cases h
  · exact .inl rfl
  · rcases os with _ | _ | vs
    · cases h
    · exact .inr rfl
    · cases h

mutual

/-- A promise that is not settled waits for a read. -/
theorem waits_of_pending : ∀ p : Pending, outcome p = none → ∃ id, .reading id ∈ p.leaves
  | .leaf (.reading id), _ => ⟨id, by simp [Pending.leaves]⟩
  | .leaf (.value v), h => by simp [outcome] at h
  | .leaf .failed, h => by simp [outcome] at h
  | .leaf (.circular id), h => by simp [outcome] at h
  | .caught p, h => waits_of_pending p (by simpa [outcome] using h)
  | .all array items, h => waits_of_pending_items items (by simpa [outcome] using h)

theorem waits_of_pending_items : ∀ ps : List (String × Pending), outcomes ps = none →
    ∃ id, .reading id ∈ leaves_items ps
  | [], h => by simp [outcomes] at h
  | (key, p) :: ps, h => by
    rw [outcomes] at h
    rcases promise_all_eq_none h with hp | hps
    · obtain ⟨id, hid⟩ := waits_of_pending p hp
      exact ⟨id, List.mem_append_left _ hid⟩
    · obtain ⟨id, hid⟩ := waits_of_pending_items ps hps
      exact ⟨id, List.mem_append_right _ hid⟩

end

mutual

/-- Nothing but the depth limit rejects a promise. -/
theorem failed_of_rejected : ∀ p : Pending, outcome p = some none → .failed ∈ p.leaves
  | .leaf (.reading id), h => by simp [outcome] at h
  | .leaf (.value v), h => by simp [outcome] at h
  | .leaf .failed, _ => by simp [Pending.leaves]
  | .leaf (.circular id), h => by simp [outcome] at h
  | .caught p, h => by simp [outcome] at h
  | .all array items, h => failed_of_rejected_items items (by simpa [outcome] using h)

theorem failed_of_rejected_items : ∀ ps : List (String × Pending), outcomes ps = some none → .failed ∈ leaves_items ps
  | [], h => by simp [outcomes] at h
  | (key, p) :: ps, h => by
    rw [outcomes] at h
    rcases promise_all_rejected h with hp | hps
    · exact List.mem_append_left _ (failed_of_rejected p hp)
    · exact List.mem_append_right _ (failed_of_rejected_items ps hps)

end

/-- A run reads every node at most once, in all branches together, so there is a
bound on its reads; and a run that cannot go on has a value or the depth error. -/
theorem gun_resolution_terminates (gun : GunStore) (obj : Json) :
    (∀ ids visited p, Reaches gun obj ids visited p → (ids ++ p.leaves.filterMap Leaf.waits).Nodup) ∧
      (∀ ids visited p, Reaches gun obj ids visited p → ids.length ≤ (known_references gun obj).length) ∧
      ∀ ids visited p, Reaches gun obj ids visited p → (¬ ∃ id visited' p', Step gun visited p id visited' p') →
        (∃ v, outcome p = some (some v)) ∨ outcome p = some none ∧ .failed ∈ p.leaves := by
  refine ⟨fun ids visited p h => ?_, fun ids visited p h => ?_, fun ids visited p h hend => ?_⟩
  · exact (readOnce_run h).marked.nodup_iff.1 (readOnce_run h).nodup
  · have hreads := readOnce_run h
    have hids : ids ⊆ visited := fun id hid => hreads.marked.symm.subset (List.mem_append_left _ hid)
    have hnodup : ids.Nodup := (hreads.marked.nodup_iff.1 hreads.nodup).sublist (List.sublist_append_left _ _)
    exact (hnodup.subperm (List.Subset.trans hids hreads.referred)).length_le
  · rcases hout : outcome p with _ | _ | v
    · obtain ⟨id, hid⟩ := waits_of_pending p hout
      obtain ⟨visited', p', hstep⟩ := step_exists gun visited id p hid
      exact absurd ⟨id, visited', p', hstep⟩ hend
    · exact .inr ⟨rfl, failed_of_rejected p hout⟩
    · exact .inl ⟨v, rfl⟩

end LainLang.Serialize
