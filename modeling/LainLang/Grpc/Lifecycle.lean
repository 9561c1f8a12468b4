import LainLang.Grpc.CardMetadata
import LainLang.Lib.Effect
/-!
# What each card operation can do

One evaluation lemma for each way a card operation reads the registry. A card
operation throws before it changes anything, or not at all; the exception, a
connect at a slot the card does not have, is never asked for by a diff.
-/
open LainLang.Lib LainLang.Js

namespace LainLang.Grpc

variable {lib : CellLibrary}

/-! ## Reading the registry -/

theorem guarantee_get_card_metadata_some {id : String} {w : CardWorld lib} {metadata : CardMetadata lib}
    (h : w.card_metadata_storage.get? id = some metadata) :
    guarantee_get_card_metadata id w = .ok metadata w := by
  rw [guarantee_get_card_metadata, bind_of_ok (get_apply w), h]; rfl

theorem guarantee_get_card_metadata_none {id : String} {w : CardWorld lib}
    (h : w.card_metadata_storage.get? id = none) :
    guarantee_get_card_metadata id w = .error (.card_metadata_not_found id) w := by
  rw [guarantee_get_card_metadata, bind_of_ok (get_apply w), h]; rfl

/-- Looking a card up changes nothing. -/
theorem guarantee_get_card_metadata_ok {id : String} {w w' : CardWorld lib} {metadata : CardMetadata lib}
    (h : guarantee_get_card_metadata id w = .ok metadata w') :
    w' = w ∧ w.card_metadata_storage.get? id = some metadata := by
  cases hg : w.card_metadata_storage.get? id with
  | none => rw [guarantee_get_card_metadata_none hg] at h; cases h
  | some md => rw [guarantee_get_card_metadata_some hg] at h; cases h; exact ⟨rfl, rfl⟩

theorem guarantee_get_card_metadata_error {id : String} {w w' : CardWorld lib} {e : CardError}
    (h : guarantee_get_card_metadata id w = .error e w') : w' = w := by
  cases hg : w.card_metadata_storage.get? id with
  | none => rw [guarantee_get_card_metadata_none hg] at h; cases h; rfl
  | some md => rw [guarantee_get_card_metadata_some hg] at h; cases h

theorem guarantee_get_some {tracker : TrackedCells lib.Cell} {key : String} {cell : lib.Cell}
    (h : tracker.get? key = some cell) (w : CardWorld lib) : guarantee_get tracker key w = .ok cell w := by
  rw [guarantee_get, h]; rfl

/-- The connector links of a stored card are replaced; nothing else changes. -/
theorem modify_connector_links_some {id : String} {w : CardWorld lib} {metadata : CardMetadata lib}
    (h : w.card_metadata_storage.get? id = some metadata)
    (f : OrdMap String (List lib.Cell) → OrdMap String (List lib.Cell)) :
    modify_connector_links id f w = .ok ⟨⟩
      { w with card_metadata_storage :=
          w.card_metadata_storage.set id { metadata with connector_links := f metadata.connector_links } } := by
  rw [modify_connector_links, bind_of_ok (get_apply w), h]; rfl

/-! ## Slots -/

theorem directional_cases {slot : String} (h : slot ∈ directional_slots) :
    slot = slot_left ∨ slot = slot_right ∨ slot = slot_above ∨ slot = slot_below := by
  simpa [directional_slots] using h

theorem tracked_of_directional (tracker : TrackedCells lib.Cell) {slot : String} (h : slot ∈ directional_slots) :
    ∃ cell, tracker.get? slot = some cell := by
  rcases directional_cases h with rfl | rfl | rfl | rfl
  · exact ⟨tracker.left, rfl⟩
  · exact ⟨tracker.right, rfl⟩
  · exact ⟨tracker.above, rfl⟩
  · exact ⟨tracker.below, rfl⟩

theorem inverse_slot_directional {slot : String} (h : slot ∈ directional_slots) :
    ∃ inv ∈ directional_slots, inverse_slot slot = some inv := by
  rcases directional_cases h with rfl | rfl | rfl | rfl
  · exact ⟨slot_right, by decide, rfl⟩
  · exact ⟨slot_left, by decide, rfl⟩
  · exact ⟨slot_below, by decide, rfl⟩
  · exact ⟨slot_above, by decide, rfl⟩

theorem declaredEdge_some {key : String} {ref : CardRefData} {e : StructuralEdge}
    (h : declaredEdge key ref = some e) :
    e.from_id = (key_to_card_and_slot key).card_id ∧ e.from_slot = (key_to_card_and_slot key).slot ∧
      extract_card_id_ref ref = some e.to_id ∧ inverse_slot e.from_slot = some e.to_slot ∧
      e.from_slot ∈ directional_slots ∧ e.to_slot ∈ directional_slots := by
  unfold declaredEdge at h
  dsimp only at h
  split at h
  · cases h
  · rename_i hd
    rw [not_not] at hd
    split at h
    · cases h
    · rename_i to_id hto
      split at h
      · cases h
      · obtain ⟨inv, hinv, he⟩ := inverse_slot_directional hd
        rw [he, Option.map_some, Option.some.injEq] at h
        subst h
        exact ⟨rfl, rfl, hto, he, hd, hinv⟩

/-! ## The cards of a slot map -/

theorem collect_card_ids_nodup (slot_map : CompileRequestData) : (collect_card_ids slot_map).Nodup :=
  eraseDups_nodup _

theorem mem_collect_card_ids {slot_map : CompileRequestData} {id : String} :
    id ∈ collect_card_ids slot_map ↔
      ∃ key ref, slot_map.get? key = some ref ∧ (key_to_card_and_slot key).card_id = id ∧ id.length > 0 := by
  rw [collect_card_ids, List.mem_eraseDups, List.mem_filter, List.mem_map, decide_eq_true_eq]
  constructor
  · rintro ⟨⟨key, hkey, rfl⟩, hlen⟩
    obtain ⟨ref, href⟩ := (mem_objectKeys ..).1 hkey
    exact ⟨key, ref, href, rfl, hlen⟩
  · rintro ⟨key, ref, href, rfl, hlen⟩
    exact ⟨⟨key, (mem_objectKeys ..).2 ⟨ref, href⟩, rfl⟩, hlen⟩

/-! ## The connections of a slot map -/

/-- The body of the loop of `collect_edges`. -/
def collectStep (out : OrdMap String StructuralEdge) (entry : String × CardRefData) : OrdMap String StructuralEdge :=
  match declaredEdge entry.1 entry.2 with
  | none => out
  | some direct => out.set (canonical_key direct) (canonical_edge direct)

theorem foldl_collectStep_get? (entries : List (String × CardRefData)) (out : OrdMap String StructuralEdge)
    {k : String} {e : StructuralEdge} (h : (entries.foldl collectStep out).get? k = some e) :
    out.get? k = some e ∨ ∃ entry ∈ entries, ∃ direct, declaredEdge entry.1 entry.2 = some direct ∧
      k = canonical_key direct ∧ e = canonical_edge direct := by
  induction entries generalizing out with
  | nil => exact .inl h
  | cons entry entries ih =>
    rcases ih (collectStep out entry) h with hout | ⟨entry', hm, hd⟩
    · unfold collectStep at hout
      cases hde : declaredEdge entry.1 entry.2 with
      | none => rw [hde] at hout; exact .inl hout
      | some direct =>
        rw [hde] at hout
        simp only [OrdMap.get?_set] at hout
        split at hout
        · rename_i hk
          cases hout
          exact .inr ⟨entry, List.mem_cons_self, direct, hde, hk, rfl⟩
        · exact .inl hout
    · exact .inr ⟨entry', List.mem_cons_of_mem _ hm, hd⟩

/-- Every collected connection is declared by a slot, read from one end or the other. -/
theorem collect_edges_get? {slot_map : CompileRequestData} {k : String} {e : StructuralEdge}
    (h : (collect_edges slot_map).get? k = some e) :
    ∃ key ref direct, slot_map.get? key = some ref ∧ declaredEdge key ref = some direct ∧
      k = canonical_key direct ∧ e = canonical_edge direct := by
  rcases foldl_collectStep_get? _ _ h with h | ⟨⟨key, ref⟩, hm, direct, hd⟩
  · simp at h
  · exact ⟨key, ref, direct, (mem_objectEntries ..).1 hm, hd⟩

theorem canonical_edge_cases (e : StructuralEdge) : canonical_edge e = e ∨ canonical_edge e = reverseEdge e := by
  unfold canonical_edge; split
  · exact .inl rfl
  · exact .inr rfl

theorem collect_edges_directional {slot_map : CompileRequestData} {k : String} {e : StructuralEdge}
    (h : (collect_edges slot_map).get? k = some e) :
    e.from_slot ∈ directional_slots ∧ e.to_slot ∈ directional_slots := by
  obtain ⟨key, ref, direct, -, hd, -, rfl⟩ := collect_edges_get? h
  obtain ⟨-, -, -, -, hf, ht⟩ := declaredEdge_some hd
  rcases canonical_edge_cases direct with h | h <;> rw [h]
  · exact ⟨hf, ht⟩
  · exact ⟨ht, hf⟩

/-! ## Operations that cannot throw -/

theorem callHeap_noThrow {α : Type} (f : lib.Heap → α × lib.Heap) : NoThrow (callHeap f) := fun _ => ⟨_, _, rfl⟩

theorem onHeap_noThrow (f : lib.Heap → lib.Heap) : NoThrow (onHeap f) := fun _ => ⟨_, _, rfl⟩

theorem modify_connector_links_noThrow (id : String)
    (f : OrdMap String (List lib.Cell) → OrdMap String (List lib.Cell)) : NoThrow (modify_connector_links id f) := by
  intro w
  cases h : w.card_metadata_storage.get? id with
  | none => exact ⟨⟨⟩, w, by rw [modify_connector_links, bind_of_ok (get_apply w), h]; rfl⟩
  | some md => exact ⟨_, _, modify_connector_links_some h f⟩

theorem guarantee_get_noThrow {tracker : TrackedCells lib.Cell} {key : String}
    (h : ∃ cell, tracker.get? key = some cell) : NoThrow (guarantee_get tracker key : CardIO lib lib.Cell) := by
  obtain ⟨cell, hc⟩ := h
  exact fun w => ⟨cell, w, guarantee_get_some hc w⟩

theorem disconnect_links_noThrow (name : String) (links : List lib.Cell) :
    NoThrow (disconnect_links name links : CardIO lib Unit) := fun _ => ⟨_, _, rfl⟩

theorem construct_card_metadata_noThrow (id : String) :
    NoThrow (construct_card_metadata id : CardIO lib (CardMetadata lib)) :=
  fun _ => ⟨_, _, rfl⟩

theorem clear_previous_connection_noThrow (metadataA metadataB : CardMetadata lib) :
    NoThrow (clear_previous_connection metadataA metadataB) := by
  unfold clear_previous_connection
  dsimp only
  split
  · exact .pure _
  · exact (disconnect_links_noThrow _ _).bind fun _ =>
      (modify_connector_links_noThrow _ _).bind fun _ => modify_connector_links_noThrow _ _

theorem card_metadata_connect_noThrow (metadataA metadataB : CardMetadata lib) {keyA keyB : String}
    (hA : keyA ∈ directional_slots) (hB : keyB ∈ directional_slots) :
    NoThrow (card_metadata_connect metadataA metadataB keyA keyB) := by
  have link : ∀ name, NoThrow (callHeap (lib.source_constant_cell name)) := fun _ => callHeap_noThrow _
  have call : ∀ f : lib.Heap → lib.Heap, NoThrow (onHeap f) := onHeap_noThrow
  have setLinks := @modify_connector_links_noThrow lib
  refine (clear_previous_connection_noThrow _ _).bind fun _ => ?_
  refine (guarantee_get_noThrow (tracked_of_directional _ hA)).bind fun _ => ?_
  refine (guarantee_get_noThrow (tracked_of_directional _ hB)).bind fun _ => ?_
  refine (guarantee_get_noThrow ⟨_, rfl⟩).bind fun _ => (guarantee_get_noThrow ⟨_, rfl⟩).bind fun _ => ?_
  refine (link _).bind fun _ => (link _).bind fun _ => (link _).bind fun _ => (link _).bind fun _ => ?_
  refine (call _).bind fun _ => (call _).bind fun _ => (call _).bind fun _ => (call _).bind fun _ => ?_
  refine (call _).bind fun _ => (call _).bind fun _ => (call _).bind fun _ => (call _).bind fun _ => ?_
  exact (setLinks _ _).bind fun _ => setLinks _ _

theorem card_metadata_remove_noThrow (metadata : CardMetadata lib) : NoThrow (card_metadata_remove metadata) :=
  (onHeap_noThrow _).bind fun _ => (NoThrow.forM (fun _ => disconnect_links_noThrow _ _) _).bind fun _ =>
    (modify_connector_links_noThrow _ _).bind fun _ => .modify _

theorem card_metadata_update_noThrow (metadata : CardMetadata lib) (current : Option Json) :
    NoThrow (card_metadata_update metadata current) := by
  refine (guarantee_get_noThrow ⟨_, rfl⟩).bind fun this_cell => (guarantee_get_noThrow ⟨_, rfl⟩).bind fun _ =>
    NoThrow.get.bind fun w => ?_
  split
  · exact .pure _
  · exact (onHeap_noThrow _).bind fun _ => .pure _

/-! ## Operations that register no card -/

/-- No card is stored under `id`. -/
def Unregistered (id : String) (w : CardWorld lib) : Prop := w.card_metadata_storage.get? id = none

theorem callHeap_unregistered {α : Type} (id : String) (f : lib.Heap → α × lib.Heap) :
    Preserves (Unregistered id) (callHeap f) := fun _ h => h

theorem onHeap_unregistered (id : String) (f : lib.Heap → lib.Heap) : Preserves (Unregistered id) (onHeap f) :=
  fun _ h => h

theorem set_card_metadata_unregistered {id id' : String} (hne : id ≠ id') (metadata : CardMetadata lib) :
    Preserves (Unregistered id) (set_card_metadata id' metadata) :=
  .modify fun w h => by simpa [Unregistered, hne] using h

theorem remove_card_metadata_unregistered (id id' : String) :
    Preserves (Unregistered id) (remove_card_metadata id' : CardIO lib Unit) :=
  .modify fun w h => by
    rw [Unregistered, OrdMap.get?_delete]
    split
    · rfl
    · exact h

theorem guarantee_get_card_metadata_keeps {P : CardWorld lib → Prop} (id : String) :
    Preserves P (guarantee_get_card_metadata id) :=
  .bind .get fun w => by split <;> first | exact .throw _ | exact .pure _

theorem guarantee_get_keeps {P : CardWorld lib → Prop} (tracker : TrackedCells lib.Cell) (key : String) :
    Preserves P (guarantee_get tracker key) := by
  unfold guarantee_get
  split
  · exact .pure _
  · exact .throw _

theorem modify_connector_links_unregistered (id id' : String)
    (f : OrdMap String (List lib.Cell) → OrdMap String (List lib.Cell)) :
    Preserves (Unregistered id) (modify_connector_links id' f) := by
  intro w h
  cases hg : w.card_metadata_storage.get? id' with
  | none => rw [modify_connector_links, bind_of_ok (get_apply w), hg]; exact h
  | some md =>
    rw [modify_connector_links_some hg]
    have hne : id ≠ id' := by rintro rfl; rw [h] at hg; cases hg
    simpa [Unregistered, hne] using h

theorem disconnect_links_unregistered (id name : String) (links : List lib.Cell) :
    Preserves (Unregistered id) (disconnect_links name links) := fun _ h => h

theorem clear_previous_connection_unregistered (id : String) (metadataA metadataB : CardMetadata lib) :
    Preserves (Unregistered id) (clear_previous_connection metadataA metadataB) := by
  unfold clear_previous_connection
  dsimp only
  split
  · exact .pure _
  · exact (disconnect_links_unregistered _ _ _).bind fun _ =>
      (modify_connector_links_unregistered _ _ _).bind fun _ => modify_connector_links_unregistered _ _ _

theorem card_metadata_connect_unregistered (id : String) (metadataA metadataB : CardMetadata lib)
    (keyA keyB : String) : Preserves (Unregistered id) (card_metadata_connect metadataA metadataB keyA keyB) := by
  have link : ∀ name, Preserves (Unregistered id) (callHeap (lib.source_constant_cell name)) :=
    fun _ => callHeap_unregistered _ _
  have call : ∀ f : lib.Heap → lib.Heap, Preserves (Unregistered id) (onHeap f) := onHeap_unregistered id
  have setLinks := @modify_connector_links_unregistered lib id
  refine (clear_previous_connection_unregistered _ _ _).bind fun _ => ?_
  refine (guarantee_get_keeps _ _).bind fun _ => (guarantee_get_keeps _ _).bind fun _ => ?_
  refine (guarantee_get_keeps _ _).bind fun _ => (guarantee_get_keeps _ _).bind fun _ => ?_
  refine (link _).bind fun _ => (link _).bind fun _ => (link _).bind fun _ => (link _).bind fun _ => ?_
  refine (call _).bind fun _ => (call _).bind fun _ => (call _).bind fun _ => (call _).bind fun _ => ?_
  refine (call _).bind fun _ => (call _).bind fun _ => (call _).bind fun _ => (call _).bind fun _ => ?_
  exact (setLinks _ _).bind fun _ => setLinks _ _

theorem card_metadata_detach_unregistered (id : String) (metadataA metadataB : CardMetadata lib) :
    Preserves (Unregistered id) (card_metadata_detach metadataA metadataB) := by
  cases hg : metadataA.connector_links.get? (linkKey metadataA.id metadataB.id) with
  | none => simp only [card_metadata_detach, hg]; exact .throw _
  | some links =>
    simp only [card_metadata_detach, hg]
    exact (disconnect_links_unregistered _ _ _).bind fun _ =>
      (modify_connector_links_unregistered _ _ _).bind fun _ => modify_connector_links_unregistered _ _ _

theorem card_metadata_remove_unregistered (id : String) (metadata : CardMetadata lib) :
    Preserves (Unregistered id) (card_metadata_remove metadata) :=
  (onHeap_unregistered _ _).bind fun _ =>
    (Preserves.forM _ fun _ _ => disconnect_links_unregistered _ _ _).bind fun _ =>
      (modify_connector_links_unregistered _ _ _).bind fun _ => remove_card_metadata_unregistered _ _

theorem card_metadata_update_unregistered (id : String) (metadata : CardMetadata lib) (current : Option Json) :
    Preserves (Unregistered id) (card_metadata_update metadata current) := by
  refine (guarantee_get_keeps _ _).bind fun _ => (guarantee_get_keeps _ _).bind fun _ => Preserves.get.bind fun w => ?_
  split
  · exact .pure _
  · exact (onHeap_unregistered _ _).bind fun _ => .pure _

/-- A card is registered by its own add event only. -/
theorem apply_card_api_event_unregistered {id : String} {ev : CardApiEvent} (hne : ev ≠ .card_add id) :
    Preserves (Unregistered id) (apply_card_api_event ev : CardIO lib Unit) := by
  cases ev with
  | card_detach a b =>
    exact (guarantee_get_card_metadata_keeps a).bind fun _ => (guarantee_get_card_metadata_keeps b).bind fun _ =>
      card_metadata_detach_unregistered _ _ _
  | card_remove a =>
    exact (guarantee_get_card_metadata_keeps a).bind fun _ => card_metadata_remove_unregistered _ _
  | card_add a =>
    have ha : id ≠ a := fun h => hne (h ▸ rfl)
    exact fun w h => set_card_metadata_unregistered ha _ _ h
  | card_connect a s b t =>
    exact (guarantee_get_card_metadata_keeps a).bind fun _ => (guarantee_get_card_metadata_keeps b).bind fun _ =>
      card_metadata_connect_unregistered _ _ _ _ _
  | card_update a v =>
    exact ((guarantee_get_card_metadata_keeps a).bind fun _ => card_metadata_update_unregistered _ _ _).bind
      fun _ => .pure _

/-! ## An event that throws changes nothing -/

/-- The slots a connect event names are slots every card has. -/
def CardApiEvent.directional : CardApiEvent → Prop
  | .card_connect _ from_slot _ to_slot => from_slot ∈ directional_slots ∧ to_slot ∈ directional_slots
  | _ => True

theorem card_metadata_detach_error {metadataA metadataB : CardMetadata lib} {w w' : CardWorld lib} {e : CardError}
    (h : card_metadata_detach metadataA metadataB w = .error e w') : w' = w := by
  cases hg : metadataA.connector_links.get? (linkKey metadataA.id metadataB.id) with
  | none => simp only [card_metadata_detach, hg, throw_apply] at h; cases h; rfl
  | some links =>
    simp only [card_metadata_detach, hg] at h
    exact absurd h (((disconnect_links_noThrow _ _).bind fun _ =>
      (modify_connector_links_noThrow _ _).bind fun _ => modify_connector_links_noThrow _ _).ne_error)

theorem apply_card_api_event_error {ev : CardApiEvent} (hd : ev.directional) {w w' : CardWorld lib} {e : CardError}
    (h : apply_card_api_event ev w = .error e w') : w' = w := by
  cases ev with
  | card_detach a b =>
    rcases bind_eq_error h with h | ⟨mdA, w₁, hA, h₁⟩
    · exact guarantee_get_card_metadata_error h
    obtain ⟨rfl, -⟩ := guarantee_get_card_metadata_ok hA
    rcases bind_eq_error h₁ with h | ⟨mdB, w₂, hB, h₂⟩
    · exact guarantee_get_card_metadata_error h
    obtain ⟨rfl, -⟩ := guarantee_get_card_metadata_ok hB
    exact card_metadata_detach_error h₂
  | card_remove a =>
    rcases bind_eq_error h with h | ⟨mdA, w₁, hA, h⟩
    · exact guarantee_get_card_metadata_error h
    · exact absurd h (card_metadata_remove_noThrow _).ne_error
  | card_add a =>
    exact absurd h (((construct_card_metadata_noThrow a).bind fun _ => .pure _).bind fun _ => .pure _).ne_error
  | card_connect a s b t =>
    rcases bind_eq_error h with h | ⟨mdA, w₁, hA, h₁⟩
    · exact guarantee_get_card_metadata_error h
    obtain ⟨rfl, -⟩ := guarantee_get_card_metadata_ok hA
    rcases bind_eq_error h₁ with h | ⟨mdB, w₂, hB, h₂⟩
    · exact guarantee_get_card_metadata_error h
    · exact absurd h₂ (card_metadata_connect_noThrow _ _ hd.1 hd.2).ne_error
  | card_update a v =>
    rcases bind_eq_error h with h | ⟨b, w₁, -, h⟩
    · rcases bind_eq_error h with h | ⟨mdA, w₁, hA, h⟩
      · exact guarantee_get_card_metadata_error h
      · exact absurd h (card_metadata_update_noThrow _ _).ne_error
    · cases h

/-! ## The events of a diff -/

theorem mem_detachEvents {prev next : OrdMap String StructuralEdge} {ev : CardApiEvent} :
    ev ∈ detachEvents prev next ↔
      ∃ k e, prev.get? k = some e ∧ next.get? k = none ∧ ev = .card_detach e.from_id e.to_id := by
  simp only [detachEvents, List.mem_filterMap, Prod.exists, OrdMap.mem_entries_iff]
  refine exists_congr fun k => exists_congr fun e => and_congr_right fun _ => ?_
  cases h : next.get? k <;> simp [OrdMap.has, h, eq_comm]

theorem mem_connectEvents {prev next : OrdMap String StructuralEdge} {ev : CardApiEvent} :
    ev ∈ connectEvents prev next ↔ ∃ k e, next.get? k = some e ∧ prev.get? k = none ∧
      ev = .card_connect e.from_id e.from_slot e.to_id e.to_slot := by
  simp only [connectEvents, List.mem_filterMap, Prod.exists, OrdMap.mem_entries_iff]
  refine exists_congr fun k => exists_congr fun e => and_congr_right fun _ => ?_
  cases h : prev.get? k <;> simp [OrdMap.has, h, eq_comm]

theorem mem_removeEvents {prev next : List String} {ev : CardApiEvent} :
    ev ∈ removeEvents prev next ↔ ∃ id ∈ prev, id ∉ next ∧ ev = .card_remove id := by
  simp only [removeEvents, List.mem_map, List.mem_filter, decide_eq_true_eq, and_assoc, eq_comm (a := ev)]

theorem mem_addEvents {prev next : List String} {ev : CardApiEvent} :
    ev ∈ addEvents prev next ↔ ∃ id ∈ next, id ∉ prev ∧ ev = .card_add id := by
  simp only [addEvents, List.mem_map, mem_sortStrings, List.mem_filter, decide_eq_true_eq, and_assoc, eq_comm (a := ev)]

theorem mem_sync_code_slots {prev next : CompileRequestData} {ev : CardApiEvent}
    (h : ev ∈ sync_code_slots prev next) :
    ∃ key ref, next.get? key = some ref ∧ (key_to_card_and_slot key).slot = slot_code ∧
      ev = .card_update (key_to_card_and_slot key).card_id ref.value := by
  obtain ⟨⟨key, ref⟩, hm, hev⟩ := List.mem_filterMap.1 h
  refine ⟨key, ref, (mem_objectEntries ..).1 hm, ?_⟩
  dsimp only at hev
  split at hev
  · cases hev
  · rename_i hs
    refine ⟨not_not.1 hs, ?_⟩
    split at hev
    · split at hev
      · cases hev
      · exact (Option.some.inj hev).symm
    · exact (Option.some.inj hev).symm

/-- A card is added at most once by a diff. -/
theorem addEvents_nodup {prev next : List String} (h : next.Nodup) : (addEvents prev next).Nodup :=
  ((sortStrings_perm _).nodup_iff.2 (h.filter _)).map fun _ _ he => CardApiEvent.card_add.inj he

theorem diff_directional {prev next : CompileRequestData} {ev : CardApiEvent}
    (h : ev ∈ diff_slot_maps_to_card_api_events prev next) : ev.directional := by
  simp only [diff_slot_maps_to_card_api_events, List.mem_append] at h
  rcases h with (((h | h) | h) | h) | h
  · obtain ⟨k, e, -, -, rfl⟩ := mem_detachEvents.1 h; trivial
  · obtain ⟨id, -, -, rfl⟩ := mem_removeEvents.1 h; trivial
  · obtain ⟨id, -, -, rfl⟩ := mem_addEvents.1 h; trivial
  · obtain ⟨k, e, he, -, rfl⟩ := mem_connectEvents.1 h; exact collect_edges_directional he
  · obtain ⟨key, ref, -, -, rfl⟩ := mem_sync_code_slots h; trivial

end LainLang.Grpc
