import LainLang.Lib.Run
import LainLang.Grpc.Operations
/-!
# The two ends of a connection

A connection is recorded twice, in the link maps of both of its cards. Connect
and detach write both ends. Removing a card writes its own end only, and so does
adding a card that is registered already, which starts it over without links;
the connected cards keep theirs.
-/
open LainLang.Lib LainLang.Js

namespace LainLang.Grpc

/-! ## Tables read from both ends -/

section tables
variable {α β : Type}

/-- A table that reads the same from both sides. -/
def TwoSided (t : α → α → Option β) : Prop := ∀ a b, t a b = t b a

variable [DecidableEq α]

/-- The entry of a pair is written at both ends. -/
def setPair (a b : α) (v : Option β) (t : α → α → Option β) : α → α → Option β :=
  fun x y => if x = a ∧ y = b ∨ x = b ∧ y = a then v else t x y

/-- Everything recorded at one end is dropped. -/
def clearRow (a : α) (t : α → α → Option β) : α → α → Option β :=
  fun x y => if x = a then none else t x y

variable {t : α → α → Option β}

theorem TwoSided.setPair (h : TwoSided t) (a b : α) (v : Option β) : TwoSided (setPair a b v t) := by
  intro x y
  unfold Grpc.setPair
  rw [h x y]
  exact if_congr (by tauto) rfl rfl

theorem twoSided_clearRow (h : TwoSided t) (a : α) :
    TwoSided (clearRow a t) ↔ ∀ b, b ≠ a → t a b = none := by
  constructor
  · intro hclear b hb
    have hab := hclear b a
    simp only [clearRow, if_neg hb, if_true] at hab
    rw [h a b, hab]
  · intro hnone x y
    unfold clearRow
    by_cases hx : x = a
    · by_cases hy : y = a
      · simp [hx, hy]
      · subst hx
        rw [if_pos rfl, if_neg hy, h y x, hnone y hy]
    · by_cases hy : y = a
      · subst hy
        rw [if_neg hx, if_pos rfl, h x y, hnone x hx]
      · rw [if_neg hx, if_neg hy, h x y]

theorem setPair_setPair (a b : α) (u v : Option β) : setPair a b v (setPair a b u t) = setPair a b v t := by
  funext x y
  unfold Grpc.setPair
  split <;> rfl

end tables

variable {lib : CellLibrary}

/-- Every link list of a registered card is recorded by the card at its other
end as well, which is registered. -/
def ConnectorSymmetry (w : CardWorld lib) : Prop :=
  ∀ a metadataA, w.card_metadata_storage.get? a = some metadataA → ∀ b links,
    metadataA.connector_links.get? (linkKey a b) = some links ↔
      ∃ metadataB, w.card_metadata_storage.get? b = some metadataB ∧
        metadataB.connector_links.get? (linkKey b a) = some links

theorem connectorSymmetry_iff (w : CardWorld lib) : ConnectorSymmetry w ↔ TwoSided (linksAt w) := by
  have hreads : ∀ a b links, linksAt w b a = some links ↔
      ∃ metadataB, w.card_metadata_storage.get? b = some metadataB ∧
        metadataB.connector_links.get? (linkKey b a) = some links :=
    fun a b links => Option.bind_eq_some_iff
  constructor
  · intro h a b
    apply Option.ext
    intro links
    constructor
    · intro hab
      obtain ⟨mdA, hA, hlinks⟩ := (hreads b a links).1 hab
      exact (hreads a b links).2 ((h a mdA hA b links).1 hlinks)
    · intro hba
      obtain ⟨mdB, hB, hlinks⟩ := (hreads a b links).1 hba
      exact (hreads b a links).2 ((h b mdB hB a links).1 hlinks)
  · intro h a mdA hA b links
    rw [← hreads a b links, ← h a b, hreads b a links]
    simp [hA]

/-! ## Calls -/

/-- A call of the card API. -/
inductive CardCall where
  | add_card (id : String)
  | connect_cards (idA idB connector_keyA connector_keyB : String)
  | detach_cards_by_key (cardA_key cardB_key : String)
  | remove_card (id : String)

/-- The call. -/
def CardCall.run : CardCall → CardIO lib Unit
  | .add_card id => do let _ ← Grpc.add_card id
  | .connect_cards idA idB connector_keyA connector_keyB =>
    Grpc.connect_cards idA idB connector_keyA connector_keyB
  | .detach_cards_by_key cardA_key cardB_key => Grpc.detach_cards_by_key cardA_key cardB_key
  | .remove_card id => Grpc.remove_card id

/-- The world a call leaves, whether it completed or threw. -/
def callStep (w : CardWorld lib) (call : CardCall) : CardWorld lib := stateAfter (call.run w)

/-- The call does not take away or start over a card that is connected to another. -/
def KeepsConnected (w : CardWorld lib) : CardCall → Prop
  | .add_card id | .remove_card id => ∀ other, other ≠ id → linksAt w id other = none
  | .connect_cards .. | .detach_cards_by_key .. => True

/-! ## What each call does to the links -/

theorem linksAt_heap (w : CardWorld lib) (heap : lib.Heap) : linksAt { w with heap } = linksAt w := rfl

theorem Filed.heap {w : CardWorld lib} (hw : Filed w) (heap : lib.Heap) : Filed { w with heap } := ⟨hw.ids, hw.keyed⟩

theorem linksAt_none {w : CardWorld lib} {id : String} (h : w.card_metadata_storage.get? id = none) (other : String) :
    linksAt w id other = none := by
  rw [linksAt, h, Option.bind_none]

theorem linksAt_delete_pair (a b : String) (w : CardWorld lib) :
    linksAt (relink b (·.delete (linkKey b a)) (relink a (·.delete (linkKey a b)) w)) = setPair a b none (linksAt w) := by
  funext x y
  rw [linksAt_relink_delete, linksAt_relink_delete, setPair]
  split_ifs <;> tauto

theorem linksAt_set_pair {a b : String} {w : CardWorld lib} (ha : w.card_metadata_storage.has a = true)
    (hb : w.card_metadata_storage.has b = true) (links : List lib.Cell) :
    linksAt (relink b (·.set (linkKey b a) links) (relink a (·.set (linkKey a b) links) w)) =
      setPair a b (some links) (linksAt w) := by
  funext x y
  have hb' : (relink a (·.set (linkKey a b) links) w).card_metadata_storage.has b = true :=
    (sameRegistered_relink _ _ _ _).trans hb
  rw [linksAt_relink_set hb', linksAt_relink_set ha, setPair]
  split_ifs <;> tauto

/-- What a call does to a registry that is filed: it stays filed, and the table
of links becomes `t`. -/
structure Leaves (w w' : CardWorld lib) (t : String → String → Option (List lib.Cell)) : Prop where
  filed : Filed w → Filed w'
  links : Filed w → linksAt w' = t

theorem Leaves.same (w : CardWorld lib) (heap : lib.Heap) : Leaves w { w with heap } (linksAt w) :=
  ⟨fun hw => hw.heap heap, fun _ => rfl⟩

theorem add_card_leaves (id : String) (w : CardWorld lib) :
    Leaves w (callStep w (.add_card id)) (clearRow id (linksAt w)) := by
  obtain ⟨md, heap, hstep, hid, hnone⟩ : ∃ md heap,
      callStep w (.add_card id) = ⟨heap, w.card_metadata_storage.set id md⟩ ∧ md.id = id ∧
        md.connector_links = .empty := ⟨_, _, rfl, rfl, rfl⟩
  rw [hstep]
  refine ⟨fun hw => ⟨fun id' md' h => ?_, fun id' md' k links h hk => ?_⟩, fun _ => ?_⟩
  · simp only [OrdMap.get?_set] at h
    split at h
    · rename_i hi
      cases h
      rw [hid, hi]
    · exact hw.ids id' md' h
  · simp only [OrdMap.get?_set] at h
    split at h
    · cases h
      rw [hnone] at hk
      simp at hk
    · exact hw.keyed id' md' k links h hk
  · funext x y
    simp only [linksAt, clearRow, OrdMap.get?_set]
    by_cases hx : x = id
    · simp [hx, hnone]
    · simp [hx]

/-- Pointing links away does nothing to the registry. -/
theorem disconnect_all_apply (entries : List (String × List lib.Cell)) (w : CardWorld lib) :
    ∃ heap, entries.forM (fun e => disconnect_links ("disconnected:" ++ e.1) e.2) w = .ok ⟨⟩ { w with heap } := by
  induction entries generalizing w with
  | nil => exact ⟨w.heap, rfl⟩
  | cons e entries ih =>
    obtain ⟨heap, hrest⟩ := ih { w with heap := disconnected lib ("disconnected:" ++ e.1) e.2 w.heap }
    exact ⟨heap, (forM_cons_of_ok (fun e : String × List lib.Cell => disconnect_links ("disconnected:" ++ e.1) e.2)
      (disconnect_links_apply ("disconnected:" ++ e.1) e.2 w) entries).trans hrest⟩

theorem remove_card_leaves (id : String) (w : CardWorld lib) :
    Leaves w (callStep w (.remove_card id)) (clearRow id (linksAt w)) := by
  cases hid : w.card_metadata_storage.get? id with
  | none =>
    have hstep : callStep w (.remove_card id) = w := by
      rw [callStep, CardCall.run, Grpc.remove_card, bind_of_error (guarantee_get_card_metadata_none hid), stateAfter_error]
    rw [hstep]
    refine ⟨fun hw => hw, fun _ => ?_⟩
    funext x y
    unfold clearRow
    split
    · rename_i hx
      rw [hx, linksAt_none hid]
    · rfl
  | some md =>
    let heap := md.tracking_propagators.values.foldl (fun heap p => lib.dispose_propagator p heap) w.heap
    have hdispose : onHeap (fun heap => md.tracking_propagators.values.foldl
        (fun heap p => lib.dispose_propagator p heap) heap) w = .ok () { w with heap } := rfl
    obtain ⟨heap', hdisconnect⟩ := disconnect_all_apply md.connector_links.entries { w with heap }
    have hstep : callStep w (.remove_card id) =
        ⟨heap', (relink md.id (fun _ => .empty) { w with heap := heap' }).card_metadata_storage.delete md.id⟩ := by
      rw [callStep, CardCall.run, Grpc.remove_card, bind_of_ok (guarantee_get_card_metadata_some hid), card_metadata_remove,
        bind_of_ok hdispose, bind_of_ok hdisconnect, bind_of_ok (modify_connector_links_apply ..),
        remove_card_metadata, modify_apply, relink_heap, stateAfter_ok]
    have hget : Filed w → ∀ id', (callStep w (.remove_card id)).card_metadata_storage.get? id' =
        if id' = id then none else w.card_metadata_storage.get? id' := by
      intro hw id'
      rw [hstep, hw.ids id md hid, OrdMap.get?_delete, get?_relink]
      by_cases hi : id' = id
      · rw [if_pos hi, if_pos hi]
      · simp [hi]
    refine ⟨fun hw => ⟨fun id' md' h => ?_, fun id' md' k links h hk => ?_⟩, fun hw => ?_⟩
    · rw [hget hw] at h
      split at h
      · cases h
      · exact hw.ids id' md' h
    · rw [hget hw] at h
      split at h
      · cases h
      · exact hw.keyed id' md' k links h hk
    · funext x y
      rw [linksAt, hget hw, clearRow]
      by_cases hx : x = id
      · simp [hx]
      · simp [hx, linksAt]

/-- A call on two cards throws before it does anything, or finds both. -/
theorem on_two_cards (a b : String) (f : CardMetadata lib → CardMetadata lib → CardIO lib Unit) (w : CardWorld lib) :
    stateAfter ((do
        let metadataA ← guarantee_get_card_metadata a
        let metadataB ← guarantee_get_card_metadata b
        f metadataA metadataB) w) = w ∨
      ∃ metadataA metadataB, w.card_metadata_storage.get? a = some metadataA ∧
        w.card_metadata_storage.get? b = some metadataB ∧
        (do
          let metadataA ← guarantee_get_card_metadata a
          let metadataB ← guarantee_get_card_metadata b
          f metadataA metadataB) w = f metadataA metadataB w := by
  cases hA : w.card_metadata_storage.get? a with
  | none =>
    rw [bind_of_error (guarantee_get_card_metadata_none hA)]
    exact .inl rfl
  | some mdA =>
    rw [bind_of_ok (guarantee_get_card_metadata_some hA)]
    cases hB : w.card_metadata_storage.get? b with
    | none =>
      rw [bind_of_error (guarantee_get_card_metadata_none hB)]
      exact .inl rfl
    | some mdB =>
      rw [bind_of_ok (guarantee_get_card_metadata_some hB)]
      exact .inr ⟨mdA, mdB, rfl, rfl, rfl⟩

theorem detach_leaves (a b : String) (w : CardWorld lib) :
    Leaves w (callStep w (.detach_cards_by_key a b)) (linksAt w) ∨
      Leaves w (callStep w (.detach_cards_by_key a b)) (setPair a b none (linksAt w)) := by
  rw [callStep, CardCall.run, Grpc.detach_cards_by_key]
  rcases on_two_cards a b card_metadata_detach w with hthrew | ⟨mdA, mdB, hA, hB, hcall⟩
  · rw [hthrew]
    exact .inl (.same w w.heap)
  · rw [hcall]
    cases hlinks : mdA.connector_links.get? (linkKey mdA.id mdB.id) with
    | none =>
      simp only [card_metadata_detach, hlinks, throw_apply]
      exact .inl (.same w w.heap)
    | some links =>
      rw [card_metadata_detach_apply hlinks, stateAfter_ok, detached]
      right
      refine ⟨fun hw => ((hw.heap _).delete _ _).delete _ _, fun hw => ?_⟩
      rw [hw.ids a mdA hA, hw.ids b mdB hB, linksAt_delete_pair, linksAt_heap]

theorem clear_previous_connection_leaves (mdA mdB : CardMetadata lib) (w : CardWorld lib) :
    ∃ w', clear_previous_connection mdA mdB w = .ok ⟨⟩ w' ∧ SameRegistered w w' ∧
      (Leaves w w' (linksAt w) ∨ Leaves w w' (setPair mdA.id mdB.id none (linksAt w))) := by
  unfold clear_previous_connection
  cases hlinks : mdA.connector_links.get? (linkKey mdA.id mdB.id) with
  | none => exact ⟨w, rfl, fun _ => rfl, .inl (.same w w.heap)⟩
  | some links =>
    dsimp only
    rw [bind_of_ok (disconnect_links_apply ..), bind_of_ok (modify_connector_links_apply ..),
      modify_connector_links_apply]
    refine ⟨_, rfl, fun id => ?_, .inr ⟨fun hw => ((hw.heap _).delete _ _).delete _ _, fun _ => ?_⟩⟩
    · rw [sameRegistered_relink, sameRegistered_relink]
    · rw [linksAt_delete_pair, linksAt_heap]

theorem guarantee_get_cases (tracker : TrackedCells lib.Cell) (key : String) (w : CardWorld lib) :
    (∃ cell, guarantee_get tracker key w = .ok cell w) ∨
      guarantee_get tracker key w = .error (.key_not_found key) w := by
  cases h : tracker.get? key with
  | none => right; rw [guarantee_get, h]; rfl
  | some cell => exact .inl ⟨cell, guarantee_get_some h w⟩

/-- A connect that has cleared the previous links throws at a missing slot, or
stores the new links at both ends. -/
theorem connect_after_clear {mdA mdB : CardMetadata lib} {w w' : CardWorld lib} (keyA keyB : String)
    (hclear : clear_previous_connection mdA mdB w = .ok ⟨⟩ w') :
    stateAfter (card_metadata_connect mdA mdB keyA keyB w) = w' ∨ ∃ links heap,
      stateAfter (card_metadata_connect mdA mdB keyA keyB w) =
        relink mdB.id (·.set (linkKey mdB.id mdA.id) links)
          (relink mdA.id (·.set (linkKey mdA.id mdB.id) links) { w' with heap }) := by
  have hAthis : mdA.tracking_internal_cells.get? slot_this = some mdA.tracking_internal_cells.this := rfl
  have hBthis : mdB.tracking_internal_cells.get? slot_this = some mdB.tracking_internal_cells.this := rfl
  rw [card_metadata_connect, bind_of_ok hclear]
  rcases guarantee_get_cases mdA.tracking_internal_cells keyA w' with ⟨kA, hA⟩ | hA
  · rw [bind_of_ok hA]
    rcases guarantee_get_cases mdB.tracking_internal_cells keyB w' with ⟨kB, hB⟩ | hB
    · rw [bind_of_ok hB, bind_of_ok (guarantee_get_some hAthis w'), bind_of_ok (guarantee_get_some hBthis w')]
      simp only [bind_apply, callHeap, onHeap, modify_connector_links_apply]
      exact .inr ⟨_, _, rfl⟩
    · rw [bind_of_error hB]
      exact .inl rfl
  · rw [bind_of_error hA]
    exact .inl rfl

theorem connect_leaves (a b keyA keyB : String) (w : CardWorld lib) :
    Leaves w (callStep w (.connect_cards a b keyA keyB)) (linksAt w) ∨
      ∃ v, Leaves w (callStep w (.connect_cards a b keyA keyB)) (setPair a b v (linksAt w)) := by
  rw [callStep, CardCall.run, Grpc.connect_cards]
  rcases on_two_cards a b (fun mdA mdB => card_metadata_connect mdA mdB keyA keyB) w with
    hthrew | ⟨mdA, mdB, hA, hB, hcall⟩
  · rw [hthrew]
    exact .inl (.same w w.heap)
  · rw [hcall]
    obtain ⟨w', hclear, hreg, hleaves⟩ := clear_previous_connection_leaves mdA mdB w
    rcases connect_after_clear keyA keyB hclear with hthrew | ⟨links, heap, hset⟩
    · -- A slot is missing: the links that were there are gone at both ends.
      rw [hthrew]
      rcases hleaves with h | h
      · exact .inl h
      · exact .inr ⟨none, h.filed, fun hw => by rw [h.links hw, hw.ids a mdA hA, hw.ids b mdB hB]⟩
    · rw [hset]
      refine .inr ⟨some links, fun hw => ?_, fun hw => ?_⟩
      · have hw' : Filed w' := hleaves.elim (fun h => h.filed hw) (fun h => h.filed hw)
        exact ((hw'.heap heap).set _ _ _).set _ _ _
      · have hregA : ({ w' with heap } : CardWorld lib).card_metadata_storage.has a = true :=
          (hreg a).trans ((OrdMap.has_iff ..).2 ⟨mdA, hA⟩)
        have hregB : ({ w' with heap } : CardWorld lib).card_metadata_storage.has b = true :=
          (hreg b).trans ((OrdMap.has_iff ..).2 ⟨mdB, hB⟩)
        rw [hw.ids a mdA hA, hw.ids b mdB hB] at hleaves ⊢
        rw [linksAt_set_pair hregA hregB, linksAt_heap]
        rcases hleaves with h | h
        · rw [h.links hw]
        · rw [h.links hw, setPair_setPair]

theorem callStep_filed {w : CardWorld lib} (hw : Filed w) (call : CardCall) : Filed (callStep w call) := by
  cases call with
  | add_card id => exact (add_card_leaves id w).filed hw
  | remove_card id => exact (remove_card_leaves id w).filed hw
  | detach_cards_by_key a b =>
    rcases detach_leaves a b w with h | h
    · exact h.filed hw
    · exact h.filed hw
  | connect_cards a b keyA keyB =>
    rcases connect_leaves a b keyA keyB w with h | ⟨v, h⟩
    · exact h.filed hw
    · exact h.filed hw

/-- A call keeps the two ends the same exactly when it keeps connected cards. -/
theorem callStep_symmetry {w : CardWorld lib} (hw : Filed w) (h : ConnectorSymmetry w) (call : CardCall) :
    ConnectorSymmetry (callStep w call) ↔ KeepsConnected w call := by
  rw [connectorSymmetry_iff] at h ⊢
  cases call with
  | add_card id => rw [(add_card_leaves id w).links hw, twoSided_clearRow h]; rfl
  | remove_card id => rw [(remove_card_leaves id w).links hw, twoSided_clearRow h]; rfl
  | detach_cards_by_key a b =>
    refine iff_of_true ?_ trivial
    rcases detach_leaves a b w with hl | hl
    · rw [hl.links hw]; exact h
    · rw [hl.links hw]; exact h.setPair a b none
  | connect_cards a b keyA keyB =>
    refine iff_of_true ?_ trivial
    rcases connect_leaves a b keyA keyB w with hl | ⟨v, hl⟩
    · rw [hl.links hw]; exact h
    · rw [hl.links hw]; exact h.setPair a b v

/-! ## Runs of calls -/

/-- No card is registered. -/
def emptyRegistry (heap : lib.Heap) : CardWorld lib := ⟨heap, .empty⟩

theorem filed_empty (heap : lib.Heap) : Filed (emptyRegistry heap) where
  ids id md h := by simp [emptyRegistry] at h
  keyed id md k links h := by simp [emptyRegistry] at h

theorem symmetry_empty (heap : lib.Heap) : ConnectorSymmetry (emptyRegistry heap) := by
  intro a md h
  simp [emptyRegistry] at h

/-- From the empty registry, the two ends of every connection are the same all
along the run exactly when no call of the run takes away or starts over a card
that is connected to another. -/
theorem connector_symmetry_iff (heap : lib.Heap) (calls : List CardCall) :
    Throughout callStep (emptyRegistry heap) calls ConnectorSymmetry ↔
      Stepwise callStep (emptyRegistry heap) calls KeepsConnected := by
  have hfiled : ∀ ls : List CardCall, Throughout callStep (emptyRegistry heap) ls Filed := fun ls =>
    .of_invariant (filed_empty heap) fun w call hw => callStep_filed hw call
  have hiff := @throughout_iff_stepwise _ _ callStep (emptyRegistry heap) calls
    (fun w => Filed w ∧ ConnectorSymmetry w) KeepsConnected ⟨filed_empty heap, symmetry_empty heap⟩
    fun w call hw => (and_iff_right (callStep_filed hw.1 call)).trans (callStep_symmetry hw.1 hw.2 call)
  rw [← hiff]
  exact ⟨fun h pre hpre => ⟨hfiled calls pre hpre, h pre hpre⟩, fun h => h.mono fun w hw => hw.2⟩

/-- Card `a` is connected to `b` and removed. -/
def removeConnected : List CardCall :=
  [.add_card "a", .add_card "b", .connect_cards "a" "b" slot_right slot_left, .remove_card "a"]

theorem removed_card_still_linked :
    ¬ Throughout callStep (emptyRegistry RecordedHeap.empty : CardWorld recorder) removeConnected
      ConnectorSymmetry := by
  intro h
  have hsame := (connectorSymmetry_iff _).1 h.last "a" "b"
  have hb : (linksAt (run callStep (emptyRegistry RecordedHeap.empty : CardWorld recorder) removeConnected)
      "b" "a").isSome = true := by decide +kernel
  have ha : (linksAt (run callStep (emptyRegistry RecordedHeap.empty : CardWorld recorder) removeConnected)
      "a" "b").isSome = false := by decide +kernel
  rw [hsame, hb] at ha
  cases ha

end LainLang.Grpc
