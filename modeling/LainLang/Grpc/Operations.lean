import LainLang.Grpc.Wiring
/-!
# What each card operation does to the wiring

One theorem for each card event: from a wired registry it returns, and the
wiring it leaves is the one the event asks for.
-/
open LainLang.Lib LainLang.Js

namespace LainLang.Grpc

variable {lib : CellLibrary}

/-- The same cards are registered. -/
def SameRegistered (w w' : CardWorld lib) : Prop :=
  ∀ id, w'.card_metadata_storage.has id = w.card_metadata_storage.has id

/-! ## Connector links -/

/-- The registry with the connector links of one card replaced. -/
def relink (id : String) (f : OrdMap String (List lib.Cell) → OrdMap String (List lib.Cell)) (w : CardWorld lib) :
    CardWorld lib :=
  match w.card_metadata_storage.get? id with
  | none => w
  | some metadata =>
    { w with card_metadata_storage :=
        w.card_metadata_storage.set id { metadata with connector_links := f metadata.connector_links } }

section relink
variable (id : String) (f : OrdMap String (List lib.Cell) → OrdMap String (List lib.Cell)) (w : CardWorld lib)

theorem modify_connector_links_apply : modify_connector_links id f w = .ok ⟨⟩ (relink id f w) := by
  cases h : w.card_metadata_storage.get? id with
  | none => rw [modify_connector_links, bind_of_ok (get_apply w), relink, h]; rfl
  | some md => rw [modify_connector_links_some h, relink, h]

@[simp] theorem relink_heap : (relink id f w).heap = w.heap := by
  unfold relink; split <;> rfl

theorem get?_relink (id' : String) : (relink id f w).card_metadata_storage.get? id' =
    (w.card_metadata_storage.get? id').map (fun metadata =>
      if id' = id then { metadata with connector_links := f metadata.connector_links } else metadata) := by
  unfold relink
  cases h : w.card_metadata_storage.get? id with
  | none =>
    by_cases hi : id' = id
    · subst hi; simp [h]
    · simp [hi]
  | some md =>
    by_cases hi : id' = id
    · subst hi; simp [h]
    · simp [hi]

theorem sameRegistered_relink : SameRegistered w (relink id f w) := by
  intro id'
  rw [OrdMap.has, get?_relink, Option.isSome_map, OrdMap.has]

@[simp] theorem cellOf_relink (p : Place) : cellOf (relink id f w) p = cellOf w p := by
  rw [cellOf, get?_relink, cellOf]
  cases w.card_metadata_storage.get? p.1 with
  | none => rfl
  | some md => simp only [Option.map_some, Option.bind_some]; split <;> rfl

theorem linksAt_relink (a b : String) : linksAt (relink id f w) a b =
    (w.card_metadata_storage.get? a).bind (fun metadata =>
      (if a = id then f metadata.connector_links else metadata.connector_links).get? (linkKey a b)) := by
  rw [linksAt, get?_relink]
  cases w.card_metadata_storage.get? a with
  | none => rfl
  | some md => simp only [Option.map_some, Option.bind_some]; split <;> rfl

end relink

theorem linksAt_relink_delete (a b x y : String) (w : CardWorld lib) :
    linksAt (relink a (·.delete (linkKey a b)) w) x y = if x = a ∧ y = b then none else linksAt w x y := by
  rw [linksAt_relink, linksAt]
  cases w.card_metadata_storage.get? x with
  | none => simp
  | some md =>
    simp only [Option.bind_some]
    by_cases hx : x = a
    · subst hx
      by_cases hy : y = b
      · simp [hy]
      · have hk : linkKey x y ≠ linkKey x b := fun h => hy (linkKey_inj h)
        simp [hy, hk]
    · simp [hx]

theorem linksAt_relink_set {a : String} {w : CardWorld lib} (h : w.card_metadata_storage.has a = true)
    (b x y : String) (links : List lib.Cell) :
    linksAt (relink a (·.set (linkKey a b) links) w) x y = if x = a ∧ y = b then some links else linksAt w x y := by
  rw [linksAt_relink, linksAt]
  by_cases hx : x = a
  · subst hx
    obtain ⟨md, hmd⟩ := (OrdMap.has_iff ..).1 h
    rw [hmd]
    simp only [Option.bind_some, if_true, OrdMap.get?_set, true_and]
    by_cases hy : y = b
    · simp [hy]
    · have hk : linkKey x y ≠ linkKey x b := fun h => hy (linkKey_inj h)
      simp [hy, hk]
  · simp [hx]

/-- Links set or deleted under keys of the card's own connections keep the
registry filed. -/
theorem Filed.relinked {w : CardWorld lib} (hw : Filed w) {id : String}
    {f : OrdMap String (List lib.Cell) → OrdMap String (List lib.Cell)}
    (hf : ∀ m k links, (f m).get? k = some links → m.get? k = some links ∨ ∃ other, k = linkKey id other) :
    Filed (relink id f w) where
  ids id' md h := by
    rw [get?_relink] at h
    obtain ⟨md', hmd, rfl⟩ := Option.map_eq_some_iff.1 h
    have := hw.ids id' md' hmd
    split <;> exact this
  keyed id' md k links h hk := by
    rw [get?_relink] at h
    obtain ⟨md', hmd, rfl⟩ := Option.map_eq_some_iff.1 h
    split at hk
    · rename_i hi
      rcases hf _ _ _ hk with hk | ⟨other, rfl⟩
      · exact hw.keyed id' md' k links hmd hk
      · exact ⟨other, hi ▸ rfl⟩
    · exact hw.keyed id' md' k links hmd hk

theorem Filed.delete {w : CardWorld lib} (hw : Filed w) (id k : String) : Filed (relink id (·.delete k) w) :=
  hw.relinked fun m k' links h => by
    rw [OrdMap.get?_delete] at h
    split at h
    · cases h
    · exact .inl h

theorem Filed.set {w : CardWorld lib} (hw : Filed w) (id other : String) (links : List lib.Cell) :
    Filed (relink id (·.set (linkKey id other) links) w) :=
  hw.relinked fun m k' links' h => by
    rw [OrdMap.get?_set] at h
    split at h
    · rename_i hk; exact .inr ⟨other, hk⟩
    · exact .inl h

/-- A pair of cards is joined when it is the pair of the connection, in either
order. -/
theorem ite_joins {α : Type} (e : StructuralEdge) (x y : String) (u v : α) :
    (if x = e.to_id ∧ y = e.from_id then u else if x = e.from_id ∧ y = e.to_id then u else v) =
      if Joins e x y then u else v := by
  by_cases hback : x = e.to_id ∧ y = e.from_id
  · rw [if_pos hback, if_pos (.inr ⟨hback.2.symm, hback.1.symm⟩)]
  · rw [if_neg hback]
    by_cases hforth : x = e.from_id ∧ y = e.to_id
    · rw [if_pos hforth, if_pos (.inl ⟨hforth.1.symm, hforth.2.symm⟩)]
    · have hnot : ¬ Joins e x y := by
        rintro (⟨h, h'⟩ | ⟨h, h'⟩)
        · exact hforth ⟨h.symm, h'.symm⟩
        · exact hback ⟨h'.symm, h.symm⟩
      rw [if_neg hforth, if_neg hnot]

/-! ## Detaching -/

/-- The heap once every link points at a throwaway cell. -/
def disconnected (lib : CellLibrary) (name : String) (links : List lib.Cell) (h : lib.Heap) : lib.Heap :=
  lib.pointAll (links.map fun link => (link, (lib.construct_cell name h).1)) (lib.construct_cell name h).2

theorem disconnect_links_apply (name : String) (links : List lib.Cell) (w : CardWorld lib) :
    disconnect_links name links w = .ok ⟨⟩ { w with heap := disconnected lib name links w.heap } := by
  rw [disconnected, CellLibrary.pointAll, List.foldl_map]; rfl

theorem redirects_disconnected (hl : lib.Lawful) (name : String) {h : lib.Heap} {links : List lib.Cell}
    (hk : ∀ l ∈ links, lib.known h l) : Redirects lib h (disconnected lib name links h) links := by
  have hr := hl.construct_cell name h
  have hmap : (links.map fun link => (link, (lib.construct_cell name h).1)).map Prod.fst = links := by
    rw [List.map_map]; exact List.map_id links
  refine ⟨fun c hc => hl.pointAll_known _ (hr.frame.known c hc), fun x l => ?_, fun c hc hn => ?_, fun l hm _ => ?_⟩
  · exact (hl.pointAll_synced _ _ x l).trans (hr.frame.synced x l)
  · exact (hl.pointAll_other _ (hr.frame.known c hc) (by rwa [hmap])).trans (hr.frame.target c hc)
  · have hall : ∀ p ∈ links.map (fun link => (link, (lib.construct_cell name h).1)),
        lib.known (lib.construct_cell name h).2 p.1 ∧ lib.known (lib.construct_cell name h).2 p.2 := by
      intro p hp
      obtain ⟨l', hl', rfl⟩ := List.mem_map.1 hp
      exact ⟨hr.frame.known _ (hk l' hl'), hr.known⟩
    obtain ⟨v, hv, ht⟩ := hl.pointAll_target _ hall (hmap.symm ▸ hm)
    obtain ⟨l', -, heq⟩ := List.mem_map.1 hv
    cases heq
    exact ⟨_, ht, hr.unknown⟩

/-- The card that stores a connection's links, as detach and connect read it. -/
theorem Wired.card {w : CardWorld lib} {E : Set StructuralEdge} (hw : Wired w E) {a b : String}
    {links : List lib.Cell} (h : linksAt w a b = some links) :
    ∃ metadata, w.card_metadata_storage.get? a = some metadata ∧ metadata.id = a ∧
      metadata.connector_links.get? (linkKey a b) = some links := by
  obtain ⟨md, hmd, hlinks⟩ := Option.bind_eq_some_iff.1 h
  exact ⟨md, hmd, hw.filed.ids a md hmd, hlinks⟩

/-- The world after the links between `a` and `b` were disconnected and dropped. -/
def detached (a b : String) (links : List lib.Cell) (w : CardWorld lib) : CardWorld lib :=
  relink b (·.delete (linkKey b a)) (relink a (·.delete (linkKey a b))
    { w with heap := disconnected lib ("disconnected:" ++ linkKey a b) links w.heap })

theorem card_metadata_detach_apply {mdA mdB : CardMetadata lib} {links : List lib.Cell}
    (h : mdA.connector_links.get? (linkKey mdA.id mdB.id) = some links) (w : CardWorld lib) :
    card_metadata_detach mdA mdB w = .ok ⟨⟩ (detached mdA.id mdB.id links w) := by
  simp only [card_metadata_detach, h]
  rw [bind_of_ok (disconnect_links_apply ..), bind_of_ok (modify_connector_links_apply ..),
    modify_connector_links_apply, detached]

/-- A detach takes its connection away and leaves the rest. -/
theorem detach_wired (hl : lib.Lawful) {w : CardWorld lib} {E : Set StructuralEdge} (hw : Wired w E)
    {e : StructuralEdge} (he : e ∈ E) :
    ∃ w', detach_cards_by_key e.from_id e.to_id w = .ok ⟨⟩ w' ∧ Wired w' (E \ {e}) ∧ SameRegistered w w' := by
  obtain ⟨links, h1, h2, -⟩ := hw.linked e he
  obtain ⟨mdA, hA, hidA, hlinksA⟩ := hw.card h1
  obtain ⟨mdB, hB, hidB, -⟩ := hw.card h2
  have hknown : ∀ l ∈ links, lib.known w.heap l := by
    intro l hm
    obtain ⟨flow, -, x, y, -, -, hs, -⟩ := (hw.linked e he).carries h1 hm
    exact (hl.synced_known _ _ _ hs).2
  have hr := redirects_disconnected hl ("disconnected:" ++ linkKey e.from_id e.to_id) hknown
  rw [← hidA, ← hidB] at hlinksA
  have hrun := card_metadata_detach_apply hlinksA w
  rw [hidA, hidB] at hrun
  refine ⟨detached e.from_id e.to_id links w, ?_, ?_, ?_⟩
  · rw [detach_cards_by_key, bind_of_ok (guarantee_get_card_metadata_some hA),
      bind_of_ok (guarantee_get_card_metadata_some hB)]
    exact hrun
  · have hfiled : Filed { w with heap := disconnected lib ("disconnected:" ++ linkKey e.from_id e.to_id) links w.heap } :=
      ⟨hw.filed.ids, hw.filed.keyed⟩
    refine hw.unlink hl he ((hfiled.delete _ _).delete _ _) (fun p => ?_) (fun x y => ?_) h1 ?_
    · rw [detached, cellOf_relink, cellOf_relink]; rfl
    · rw [detached, linksAt_relink_delete, linksAt_relink_delete, ite_joins]; rfl
    · rw [detached, relink_heap, relink_heap]; exact hr
  · intro id
    rw [detached, sameRegistered_relink, sameRegistered_relink]

/-! ## Connecting -/

/-- The four wires of a connection: from each slot to the other card's this
cell, and back. -/
def wiresOf {Cell : Type} (kA kB Athis Bthis l1 l2 l3 l4 : Cell) : List (Wire Cell) :=
  [⟨kA, l1, Bthis⟩, ⟨Bthis, l2, kA⟩, ⟨kB, l3, Athis⟩, ⟨Athis, l4, kB⟩]

/-- The heap once every wire is synced, then pointed. -/
def wired (lib : CellLibrary) (wires : List (Wire lib.Cell)) (h : lib.Heap) : lib.Heap :=
  lib.pointAll (wires.map fun wire => (wire.link, wire.target))
    (lib.syncAll (wires.map fun wire => (wire.source, wire.link)) h)

/-- The world after the wires between `a` and `b` were put in and stored. -/
def connected (a b : String) (wires : List (Wire lib.Cell)) (heap : lib.Heap) (w : CardWorld lib) : CardWorld lib :=
  relink b (·.set (linkKey b a) (wires.map Wire.link)) (relink a (·.set (linkKey a b) (wires.map Wire.link))
    { w with heap := wired lib wires heap })

theorem installs_wired (hl : lib.Lawful) {h h' : lib.Heap} {wires : List (Wire lib.Cell)}
    (ha : lib.Allocates h h' (wires.map Wire.link))
    (hends : ∀ wire ∈ wires, lib.known h wire.source ∧ lib.known h wire.target) :
    Installs lib h (wired lib wires h') wires := by
  have hlink : ∀ wire ∈ wires, lib.known h' wire.link := fun wire hm => ha.known _ (List.mem_map_of_mem hm)
  have hsync : ∀ p ∈ wires.map (fun wire => (wire.source, wire.link)), lib.known h' p.1 ∧ lib.known h' p.2 := by
    intro p hp
    obtain ⟨wire, hm, rfl⟩ := List.mem_map.1 hp
    exact ⟨ha.frame.known _ (hends wire hm).1, hlink wire hm⟩
  have hpoint : ∀ p ∈ wires.map (fun wire => (wire.link, wire.target)),
      lib.known (lib.syncAll (wires.map fun wire => (wire.source, wire.link)) h') p.1 ∧
        lib.known (lib.syncAll (wires.map fun wire => (wire.source, wire.link)) h') p.2 := by
    intro p hp
    obtain ⟨wire, hm, rfl⟩ := List.mem_map.1 hp
    exact ⟨hl.syncAll_known _ (hlink wire hm), hl.syncAll_known _ (ha.frame.known _ (hends wire hm).2)⟩
  have hmap : (wires.map fun wire => (wire.link, wire.target)).map Prod.fst = wires.map Wire.link := by
    rw [List.map_map]; rfl
  refine
    { known := fun c hc => hl.pointAll_known _ (hl.syncAll_known _ (ha.frame.known c hc))
      old := fun c hc => ?_
      fresh := fun wire hm => ha.unknown _ (List.mem_map_of_mem hm)
      nodup := ha.nodup
      synced := fun x l => ?_
      target := fun wire hm => ?_ }
  · have hc' := ha.frame.known c hc
    have hnot : c ∉ wires.map Wire.link := fun hm => ha.unknown c hm hc
    exact ((hl.pointAll_other _ (hl.syncAll_known _ hc') (by rwa [hmap])).trans (hl.syncAll_target _ hc')).trans
      (ha.frame.target c hc)
  · rw [wired, hl.pointAll_synced, hl.syncAll_synced _ hsync, ha.frame.synced]
    refine or_congr_right ⟨fun hm => ?_, ?_⟩
    · obtain ⟨wire, hm', heq⟩ := List.mem_map.1 hm
      cases heq
      exact ⟨wire, hm', rfl, rfl⟩
    · rintro ⟨wire, hm, rfl, rfl⟩
      exact List.mem_map_of_mem hm
  · obtain ⟨v, hv, ht⟩ := hl.pointAll_target _ hpoint (hmap.symm ▸ List.mem_map_of_mem hm)
    obtain ⟨wire', hm', heq⟩ := List.mem_map.1 hv
    have hww : wire' = wire := List.inj_on_of_nodup_map ha.nodup hm' hm (Prod.ext_iff.1 heq).1
    subst hww
    cases heq
    exact ht

/-- A connect that finds no links between its cards puts in four new ones. -/
theorem card_metadata_connect_apply (hl : lib.Lawful) {mdA mdB : CardMetadata lib} {keyA keyB : String}
    {kA kB : lib.Cell} (hclear : mdA.connector_links.get? (linkKey mdA.id mdB.id) = none)
    (hA : mdA.tracking_internal_cells.get? keyA = some kA) (hB : mdB.tracking_internal_cells.get? keyB = some kB)
    (w : CardWorld lib) :
    ∃ l1 l2 l3 l4 heap, lib.Allocates w.heap heap [l1, l2, l3, l4] ∧
      card_metadata_connect mdA mdB keyA keyB w = .ok ⟨⟩ (connected mdA.id mdB.id
        (wiresOf kA kB mdA.tracking_internal_cells.this mdB.tracking_internal_cells.this l1 l2 l3 l4) heap w) := by
  have hAthis : mdA.tracking_internal_cells.get? slot_this = some mdA.tracking_internal_cells.this := rfl
  have hBthis : mdB.tracking_internal_cells.get? slot_this = some mdB.tracking_internal_cells.this := rfl
  have hskip : clear_previous_connection mdA mdB w = .ok ⟨⟩ w := by
    simp only [clear_previous_connection, hclear, pure_apply]
  let link := fun flow => lib.source_constant_cell ("link:" ++ linkKey mdA.id mdB.id ++ flow)
  let r1 := link ":kA→Bthis" w.heap
  let r2 := link ":Bthis→kA" r1.2
  let r3 := link ":kB→Athis" r2.2
  let r4 := link ":Athis→kB" r3.2
  refine ⟨r1.1, r2.1, r3.1, r4.1, r4.2, ?_, ?_⟩
  · have hfresh : ∀ flow h, lib.Fresh h (link flow h) := fun _ _ => hl.source_constant_cell _ _
    exact ((((CellLibrary.Allocates.refl w.heap).make (hfresh _ _)).make (hfresh _ _)).make (hfresh _ _)).make
      (hfresh _ _)
  · rw [card_metadata_connect, bind_of_ok hskip, bind_of_ok (guarantee_get_some hA w),
      bind_of_ok (guarantee_get_some hB w), bind_of_ok (guarantee_get_some hAthis w),
      bind_of_ok (guarantee_get_some hBthis w)]
    simp only [bind_apply, callHeap, onHeap, modify_connector_links_apply]
    rfl

/-- A connect puts its connection in, between registered cards that no
connection joins. -/
theorem connect_wired (hl : lib.Lawful) {w : CardWorld lib} {E : Set StructuralEdge} (hw : Wired w E)
    {e : StructuralEdge} (hfrom : w.card_metadata_storage.has e.from_id = true)
    (hto : w.card_metadata_storage.has e.to_id = true) (hdir : e.from_slot ∈ directional_slots)
    (hdir' : e.to_slot ∈ directional_slots) (hapart : ∀ e' ∈ E, ¬ SameCards e e') :
    ∃ w', connect_cards e.from_id e.to_id e.from_slot e.to_slot w = .ok ⟨⟩ w' ∧ Wired w' (insert e E) ∧
      SameRegistered w w' := by
  obtain ⟨mdA, hA⟩ := (OrdMap.has_iff ..).1 hfrom
  obtain ⟨mdB, hB⟩ := (OrdMap.has_iff ..).1 hto
  have hidA := hw.filed.ids _ _ hA
  have hidB := hw.filed.ids _ _ hB
  obtain ⟨kA, hkA⟩ := tracked_of_directional mdA.tracking_internal_cells hdir
  obtain ⟨kB, hkB⟩ := tracked_of_directional mdB.tracking_internal_cells hdir'
  have hclear : mdA.connector_links.get? (linkKey mdA.id mdB.id) = none := by
    rw [hidA, hidB]
    cases h : mdA.connector_links.get? (linkKey e.from_id e.to_id) with
    | none => rfl
    | some links =>
      have hlinks : linksAt w e.from_id e.to_id = some links := by rw [linksAt, hA, Option.bind_some, h]
      obtain ⟨e', he', hj⟩ := hw.stored _ _ _ hlinks
      exact absurd (Joins.sameCards (.inl ⟨rfl, rfl⟩) hj) (hapart e' he')
  obtain ⟨l1, l2, l3, l4, heap, ha, hrun⟩ := card_metadata_connect_apply hl hclear hkA hkB w
  rw [hidA, hidB] at hrun
  have hcA : ∀ slot, cellOf w (e.from_id, slot) = mdA.tracking_internal_cells.get? slot := fun slot => by
    rw [cellOf, hA, Option.bind_some]
  have hcB : ∀ slot, cellOf w (e.to_id, slot) = mdB.tracking_internal_cells.get? slot := fun slot => by
    rw [cellOf, hB, Option.bind_some]
  have hkA' := (hcA _).trans hkA
  have hkB' := (hcB _).trans hkB
  have hAthis : cellOf w (e.from_id, slot_this) = some mdA.tracking_internal_cells.this := hcA _
  have hBthis : cellOf w (e.to_id, slot_this) = some mdB.tracking_internal_cells.this := hcB _
  let wires := wiresOf kA kB mdA.tracking_internal_cells.this mdB.tracking_internal_cells.this l1 l2 l3 l4
  have hends : List.Forall₂
      (fun wire flow => cellOf w flow.1 = some (Wire.source wire) ∧ cellOf w flow.2 = some (Wire.target wire))
      wires (flows e) :=
    .cons ⟨hkA', hBthis⟩ (.cons ⟨hBthis, hkA'⟩ (.cons ⟨hkB', hAthis⟩ (.cons ⟨hAthis, hkB'⟩ .nil)))
  have hknown : ∀ wire ∈ wires, lib.known w.heap wire.source ∧ lib.known w.heap wire.target := by
    intro wire hm
    obtain ⟨i, hlt, rfl⟩ := List.getElem_of_mem hm
    obtain ⟨hx, hy⟩ := hends.get hlt (hends.length_eq ▸ hlt)
    exact ⟨hw.known _ _ hx, hw.known _ _ hy⟩
  have hi : Installs lib w.heap (wired lib wires heap) wires := installs_wired hl ha hknown
  refine ⟨connected e.from_id e.to_id wires heap w, ?_, ?_, ?_⟩
  · rw [connect_cards, bind_of_ok (guarantee_get_card_metadata_some hA),
      bind_of_ok (guarantee_get_card_metadata_some hB)]
    exact hrun
  · have hfiled : Filed { w with heap := wired lib wires heap } := ⟨hw.filed.ids, hw.filed.keyed⟩
    refine hw.link hl hapart ((hfiled.set _ _ _).set _ _ _) (fun p => ?_) hends (fun x y => ?_) ?_
    · rw [connected, cellOf_relink, cellOf_relink]; rfl
    · have hto' : (relink e.from_id (·.set (linkKey e.from_id e.to_id) (wires.map Wire.link))
          { w with heap := wired lib wires heap }).card_metadata_storage.has e.to_id = true :=
        (sameRegistered_relink _ _ _ _).trans hto
      have hfrom' : ({ w with heap := wired lib wires heap } : CardWorld lib).card_metadata_storage.has e.from_id
          = true := hfrom
      rw [connected, linksAt_relink_set hto', linksAt_relink_set hfrom', ite_joins]; rfl
    · rw [connected, relink_heap, relink_heap]; exact hi
  · intro id
    rw [connected, sameRegistered_relink, sameRegistered_relink]

/-! ## Removing, adding and updating -/

theorem dispose_all_frame (hl : lib.Lawful) (ps : List lib.Propagator) (h : lib.Heap) :
    lib.Frame h (ps.foldl (fun heap propagator => lib.dispose_propagator propagator heap) h) := by
  induction ps generalizing h with
  | nil => exact .refl h
  | cons p ps ih => exact (hl.dispose_propagator p h).trans (ih _)

/-- A card that no connection joins stores no links. -/
theorem Wired.no_links {w : CardWorld lib} {E : Set StructuralEdge} (hw : Wired w E) {id : String}
    (halone : ∀ e ∈ E, e.from_id ≠ id ∧ e.to_id ≠ id) {metadata : CardMetadata lib}
    (hm : w.card_metadata_storage.get? id = some metadata) : metadata.connector_links.entries = [] := by
  refine List.eq_nil_iff_forall_not_mem.2 fun ⟨k, links⟩ hk => ?_
  rw [OrdMap.mem_entries_iff] at hk
  obtain ⟨other, rfl⟩ := hw.filed.keyed id metadata k links hm hk
  have hlinks : linksAt w id other = some links := by rw [linksAt, hm, Option.bind_some, hk]
  obtain ⟨e, he, hj⟩ := hw.stored _ _ _ hlinks
  rcases hj with ⟨h, -⟩ | ⟨-, h⟩
  · exact (halone e he).1 h
  · exact (halone e he).2 h

/-- A card that no connection joins is removed without touching the others. -/
theorem remove_wired (hl : lib.Lawful) {w : CardWorld lib} {E : Set StructuralEdge} (hw : Wired w E) {id : String}
    (hid : w.card_metadata_storage.has id = true) (halone : ∀ e ∈ E, e.from_id ≠ id ∧ e.to_id ≠ id) :
    ∃ w', remove_card id w = .ok ⟨⟩ w' ∧ Wired w' E ∧
      ∀ id', w'.card_metadata_storage.has id' = (!decide (id' = id) && w.card_metadata_storage.has id') := by
  obtain ⟨md, hmd⟩ := (OrdMap.has_iff ..).1 hid
  have hmid := hw.filed.ids _ _ hmd
  let heap := md.tracking_propagators.values.foldl (fun heap p => lib.dispose_propagator p heap) w.heap
  have hframe : lib.Frame w.heap heap := dispose_all_frame hl _ _
  refine ⟨⟨heap, (relink id (fun _ => .empty) { w with heap }).card_metadata_storage.delete id⟩, ?_, ?_, fun id' => ?_⟩
  · have hdispose : onHeap (fun heap => md.tracking_propagators.values.foldl
        (fun heap p => lib.dispose_propagator p heap) heap) w = .ok () { w with heap } := rfl
    rw [remove_card, bind_of_ok (guarantee_get_card_metadata_some hmd), card_metadata_remove, bind_of_ok hdispose,
      hw.no_links halone hmd, hmid, bind_of_ok (forM_nil_apply _ _), bind_of_ok (modify_connector_links_apply ..),
      remove_card_metadata, modify_apply, relink_heap]
  · refine (hw.frame hl hframe).dropCard halone rfl fun id' => ?_
    rw [OrdMap.get?_delete, get?_relink]
    by_cases hi : id' = id
    · rw [if_pos hi, if_pos hi]
    · simp [hi]
  · rw [OrdMap.has_delete, sameRegistered_relink]

theorem construct_card_metadata_apply (hl : lib.Lawful) (id : String) (w : CardWorld lib) :
    ∃ metadata heap, construct_card_metadata id w = .ok metadata ⟨heap, w.card_metadata_storage.set id metadata⟩ ∧
      metadata.id = id ∧ metadata.connector_links = .empty ∧
      lib.Allocates w.heap heap metadata.tracking_internal_cells.cells := by
  refine ⟨_, _, rfl, rfl, rfl, ?_⟩
  have hcell := hl.construct_cell
  have hpropagator := hl.construct_propagator
  -- The card's own cell and its compile source are made first, then the tracked cells.
  have hslots := ((((((((CellLibrary.Allocates.refl w.heap).then (hcell ("CARD|" ++ id) _).frame).then
    (hl.seed (lib.construct_cell ("CARD|" ++ id) w.heap).1 _)).then (hl.source_constant_cell ("card-compile:" ++ id) _).frame).make
    (hcell ("CARD|" ++ id ++ "|" ++ slot_this) _)).make (hcell ("CARD|" ++ id ++ "|" ++ slot_left) _)).make
    (hcell ("CARD|" ++ id ++ "|" ++ slot_right) _)).make (hcell ("CARD|" ++ id ++ "|" ++ slot_above) _)).make
    (hcell ("CARD|" ++ id ++ "|" ++ slot_below) _)
  exact (((((((hslots.then (hpropagator _ _ _ _)).then (hl.execute _)).make (hcell _ _)).make (hcell _ _)).then
    (hpropagator _ _ _ _)).then (hpropagator _ _ _ _)).then (hl.execute _))

/-- An unregistered card is added without touching the others. -/
theorem add_wired (hl : lib.Lawful) {w : CardWorld lib} {E : Set StructuralEdge} (hw : Wired w E) {id : String}
    (hid : w.card_metadata_storage.has id = false) :
    ∃ w', apply_card_api_event (.card_add id) w = .ok ⟨⟩ w' ∧ Wired w' E ∧
      ∀ id', w'.card_metadata_storage.has id' = (decide (id' = id) || w.card_metadata_storage.has id') := by
  obtain ⟨md, heap, hrun, hmid, hnone, ha⟩ := construct_card_metadata_apply hl id w
  refine ⟨⟨heap, w.card_metadata_storage.set id md⟩, ?_, ?_, fun id' => OrdMap.has_set ..⟩
  · have hadd : (add_card id : CardIO lib String) w = .ok id ⟨heap, w.card_metadata_storage.set id md⟩ := by
      rw [add_card, bind_of_ok hrun]; rfl
    rw [apply_card_api_event, bind_of_ok hadd]; rfl
  · exact hw.addCard hl ha ((OrdMap.has_eq_false ..).1 hid) hmid hnone

/-- A registered card is updated without touching any wiring. -/
theorem update_wired (hl : lib.Lawful) {w : CardWorld lib} {E : Set StructuralEdge} (hw : Wired w E) {id : String}
    (hid : w.card_metadata_storage.has id = true) (value : Option Json) :
    ∃ w', apply_card_api_event (.card_update id value) w = .ok ⟨⟩ w' ∧ Wired w' E ∧ SameRegistered w w' := by
  obtain ⟨md, hmd⟩ := (OrdMap.has_iff ..).1 hid
  have hthis : md.tracking_internal_cells.get? slot_this = some md.tracking_internal_cells.this := rfl
  have hupdater : md.tracking_internal_cells.get? "updater" = some md.tracking_internal_cells.updater := rfl
  have hupdate : update_card id value w =
      if lib.holds_base_value md.tracking_internal_cells.this value w.heap then .ok false w
      else .ok true { w with heap :=
        lib.update_specialized_reactive_value md.tracking_internal_cells.updater md.id value w.heap } := by
    rw [update_card, bind_of_ok (guarantee_get_card_metadata_some hmd), card_metadata_update,
      bind_of_ok (guarantee_get_some hthis w), bind_of_ok (guarantee_get_some hupdater w), bind_of_ok (get_apply w)]
    split <;> rfl
  by_cases hsame : lib.holds_base_value md.tracking_internal_cells.this value w.heap = true
  · rw [if_pos hsame] at hupdate
    exact ⟨w, by rw [apply_card_api_event, bind_of_ok hupdate]; rfl, hw, fun _ => rfl⟩
  · rw [if_neg hsame] at hupdate
    exact ⟨_, (bind_of_ok hupdate _).trans rfl, hw.frame hl (hl.update_value ..), fun _ => rfl⟩

end LainLang.Grpc
