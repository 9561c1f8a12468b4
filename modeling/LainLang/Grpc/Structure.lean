import LainLang.Grpc.Operations
import LainLang.Grpc.Requests
/-!
# The structure of a session's cards

A push whose next slot map joins no two cards twice turns the wiring of the
previous slot map into that of the next one, phase by phase. Two connections
between the same two cards share one entry of `connector_links`, so the second
takes the first one's links away.
-/
open LainLang.Lib LainLang.Js

namespace LainLang.Grpc

variable {lib : CellLibrary}

/-! ## The connections of a slot map, as a set -/

/-- The edges of a slot map. -/
def edgesOf (slot_map : CompileRequestData) : Set StructuralEdge := { e | e ∈ (collect_edges slot_map).values }

theorem canonical_key_eq (direct : StructuralEdge) : canonical_key direct = edgeKey (canonical_edge direct) := by
  unfold canonical_key canonical_edge
  split <;> rfl

/-- A connection is filed under its own key. -/
theorem key_of_collected {slot_map : CompileRequestData} {k : String} {e : StructuralEdge}
    (h : (collect_edges slot_map).get? k = some e) : k = edgeKey e := by
  obtain ⟨-, -, direct, -, -, rfl, rfl⟩ := collect_edges_get? h
  exact canonical_key_eq direct

theorem mem_edgesOf {slot_map : CompileRequestData} {e : StructuralEdge} :
    e ∈ edgesOf slot_map ↔ (collect_edges slot_map).get? (edgeKey e) = some e := by
  refine (OrdMap.mem_values_iff ..).trans ⟨?_, fun h => ⟨_, h⟩⟩
  rintro ⟨k, h⟩
  rwa [key_of_collected h] at h

theorem values_nodup (slot_map : CompileRequestData) : (collect_edges slot_map).values.Nodup := by
  have hkeys : (collect_edges slot_map).values.map edgeKey = (collect_edges slot_map).keys := by
    rw [OrdMap.values, OrdMap.keys, List.map_map]
    refine List.map_congr_left fun p hp => ?_
    exact (key_of_collected ((OrdMap.mem_entries_iff _ p.1 p.2).1 hp)).symm
  refine List.Nodup.of_map edgeKey ?_
  rw [hkeys]
  exact (collect_edges slot_map).nodup

/-! ## Well-formed slot maps -/

/-- Card ids are not empty, and every directional slot names a card that has a
key of its own. -/
def SlotMapWellFormed (slot_map : CompileRequestData) : Prop :=
  ∀ entry ∈ slot_map.entries, (key_to_card_and_slot entry.1).card_id.length > 0 ∧
    ((key_to_card_and_slot entry.1).slot ∈ directional_slots →
      ∃ to_id ∈ collect_card_ids slot_map, extract_card_id_ref entry.2 = some to_id)

/-- No two connections join the same two cards. -/
def JoinedOnce (slot_map : CompileRequestData) : Prop :=
  ∀ e ∈ (collect_edges slot_map).values, ∀ e' ∈ (collect_edges slot_map).values, SameCards e e' → e = e'

/-- A key both slot maps file a connection under stands for the same connection. -/
def KeysAgree (prev next : CompileRequestData) : Prop :=
  ∀ entry ∈ (collect_edges prev).entries, ∀ e ∈ (collect_edges next).get? entry.1, e = entry.2

instance (e e' : StructuralEdge) : Decidable (SameCards e e') := inferInstanceAs (Decidable (Joins ..))

instance (slot_map : CompileRequestData) : Decidable (SlotMapWellFormed slot_map) :=
  inferInstanceAs (Decidable (∀ entry ∈ slot_map.entries, _))

instance (slot_map : CompileRequestData) : Decidable (JoinedOnce slot_map) :=
  inferInstanceAs (Decidable (∀ e ∈ (collect_edges slot_map).values, _))

instance (prev next : CompileRequestData) : Decidable (KeysAgree prev next) :=
  inferInstanceAs (Decidable (∀ entry ∈ (collect_edges prev).entries, _))

theorem SlotMapWellFormed.card_mem {slot_map : CompileRequestData} (h : SlotMapWellFormed slot_map) {key : String}
    {ref : CardRefData} (hk : slot_map.get? key = some ref) :
    (key_to_card_and_slot key).card_id ∈ collect_card_ids slot_map :=
  mem_collect_card_ids.2 ⟨key, ref, hk, rfl, (h (key, ref) ((OrdMap.mem_entries_iff ..).2 hk)).1⟩

/-- Both ends of a connection are cards of the slot map. -/
theorem SlotMapWellFormed.ends {slot_map : CompileRequestData} (h : SlotMapWellFormed slot_map) {e : StructuralEdge}
    (he : e ∈ edgesOf slot_map) :
    e.from_id ∈ collect_card_ids slot_map ∧ e.to_id ∈ collect_card_ids slot_map := by
  obtain ⟨key, ref, direct, hk, hd, -, rfl⟩ := collect_edges_get? (mem_edgesOf.1 he)
  obtain ⟨hfrom, hslot, hto, -, hdir, -⟩ := declaredEdge_some hd
  have hmem := (OrdMap.mem_entries_iff ..).2 hk
  obtain ⟨to_id, hcard, heq⟩ := (h _ hmem).2 (hslot ▸ hdir)
  have hfromCard : direct.from_id ∈ collect_card_ids slot_map := hfrom ▸ h.card_mem hk
  have htoCard : direct.to_id ∈ collect_card_ids slot_map := by
    rw [hto] at heq
    exact Option.some.inj heq ▸ hcard
  rcases canonical_edge_cases direct with hc | hc <;> rw [hc]
  · exact ⟨hfromCard, htoCard⟩
  · exact ⟨htoCard, hfromCard⟩

/-! ## One phase of a diff -/

theorem detach_all (hl : lib.Lawful) {es : List StructuralEdge} {w : CardWorld lib} {E : Set StructuralEdge}
    (hw : Wired w E) (hn : es.Nodup) (hes : ∀ e ∈ es, e ∈ E) :
    ∃ w', (es.map fun e => CardApiEvent.card_detach e.from_id e.to_id).forM apply_card_api_event w = .ok ⟨⟩ w' ∧
      Wired w' (E \ { e | e ∈ es }) ∧ SameRegistered w w' := by
  induction es generalizing w E with
  | nil => exact ⟨w, rfl, by simpa using hw, fun _ => rfl⟩
  | cons e es ih =>
    obtain ⟨hnew, hn⟩ := List.nodup_cons.1 hn
    obtain ⟨w₁, hrun, hw₁, hr₁⟩ := detach_wired hl hw (hes e List.mem_cons_self)
    obtain ⟨w₂, hrun₂, hw₂, hr₂⟩ := ih hw₁ hn fun e' he' =>
      ⟨hes e' (List.mem_cons_of_mem _ he'), fun heq => hnew (heq ▸ he')⟩
    refine ⟨w₂, ?_, ?_, fun id => (hr₂ id).trans (hr₁ id)⟩
    · rw [List.map_cons, forM_cons_of_ok _ (show apply_card_api_event (.card_detach e.from_id e.to_id) w = _ from hrun)]
      exact hrun₂
    · have hset : (E \ {e}) \ { e' | e' ∈ es } = E \ { e' | e' ∈ e :: es } := by
        ext e'
        simp [and_assoc]
      rwa [hset] at hw₂

theorem remove_all (hl : lib.Lawful) {ids : List String} {w : CardWorld lib} {E : Set StructuralEdge}
    (hw : Wired w E) (hn : ids.Nodup) (hids : ∀ id ∈ ids, w.card_metadata_storage.has id = true)
    (halone : ∀ id ∈ ids, ∀ e ∈ E, e.from_id ≠ id ∧ e.to_id ≠ id) :
    ∃ w', (ids.map CardApiEvent.card_remove).forM apply_card_api_event w = .ok ⟨⟩ w' ∧ Wired w' E ∧
      ∀ id, w'.card_metadata_storage.has id = true ↔ id ∉ ids ∧ w.card_metadata_storage.has id = true := by
  induction ids generalizing w with
  | nil => exact ⟨w, rfl, hw, fun id => by simp⟩
  | cons id ids ih =>
    obtain ⟨hnew, hn⟩ := List.nodup_cons.1 hn
    obtain ⟨w₁, hrun, hw₁, hr₁⟩ := remove_wired hl hw (hids id List.mem_cons_self) (halone id List.mem_cons_self)
    obtain ⟨w₂, hrun₂, hw₂, hr₂⟩ := ih hw₁ hn
      (fun id' hid' => by
        have hne : id' ≠ id := fun heq => hnew (heq ▸ hid')
        rw [hr₁, hids id' (List.mem_cons_of_mem _ hid')]
        simp [hne])
      fun id' hid' => halone id' (List.mem_cons_of_mem _ hid')
    refine ⟨w₂, ?_, hw₂, fun id' => ?_⟩
    · rw [List.map_cons, forM_cons_of_ok _ (show apply_card_api_event (.card_remove id) w = _ from hrun)]
      exact hrun₂
    · rw [hr₂, hr₁]
      simp only [Bool.and_eq_true, Bool.not_eq_true', decide_eq_false_iff_not, List.mem_cons, not_or]
      grind

theorem add_all (hl : lib.Lawful) {ids : List String} {w : CardWorld lib} {E : Set StructuralEdge}
    (hw : Wired w E) (hn : ids.Nodup) (hids : ∀ id ∈ ids, w.card_metadata_storage.has id = false) :
    ∃ w', (ids.map CardApiEvent.card_add).forM apply_card_api_event w = .ok ⟨⟩ w' ∧ Wired w' E ∧
      ∀ id, w'.card_metadata_storage.has id = true ↔ id ∈ ids ∨ w.card_metadata_storage.has id = true := by
  induction ids generalizing w with
  | nil => exact ⟨w, rfl, hw, fun id => by simp⟩
  | cons id ids ih =>
    obtain ⟨hnew, hn⟩ := List.nodup_cons.1 hn
    obtain ⟨w₁, hrun, hw₁, hr₁⟩ := add_wired hl hw (hids id List.mem_cons_self)
    obtain ⟨w₂, hrun₂, hw₂, hr₂⟩ := ih hw₁ hn fun id' hid' => by
      have hne : id' ≠ id := fun heq => hnew (heq ▸ hid')
      rw [hr₁, hids id' (List.mem_cons_of_mem _ hid')]
      simp [hne]
    refine ⟨w₂, ?_, hw₂, fun id' => ?_⟩
    · rw [List.map_cons, forM_cons_of_ok _ hrun]
      exact hrun₂
    · rw [hr₂, hr₁]
      simp only [Bool.or_eq_true, decide_eq_true_eq, List.mem_cons]
      grind

theorem connect_all (hl : lib.Lawful) {es : List StructuralEdge} {w : CardWorld lib} {E : Set StructuralEdge}
    (hw : Wired w E) (hn : es.Nodup)
    (hends : ∀ e ∈ es, w.card_metadata_storage.has e.from_id = true ∧ w.card_metadata_storage.has e.to_id = true)
    (hdir : ∀ e ∈ es, e.from_slot ∈ directional_slots ∧ e.to_slot ∈ directional_slots)
    (hnew : ∀ e ∈ es, e ∉ E) (honce : ∀ e ∈ es, ∀ e', e' ∈ E ∨ e' ∈ es → SameCards e e' → e = e') :
    ∃ w', (es.map fun e => CardApiEvent.card_connect e.from_id e.from_slot e.to_id e.to_slot).forM
        apply_card_api_event w = .ok ⟨⟩ w' ∧ Wired w' (E ∪ { e | e ∈ es }) ∧ SameRegistered w w' := by
  induction es generalizing w E with
  | nil => exact ⟨w, rfl, by simpa using hw, fun _ => rfl⟩
  | cons e es ih =>
    obtain ⟨hout, hn⟩ := List.nodup_cons.1 hn
    obtain ⟨hfrom, hto⟩ := hends e List.mem_cons_self
    obtain ⟨hdf, hdt⟩ := hdir e List.mem_cons_self
    have hapart : ∀ e' ∈ E, ¬ SameCards e e' := fun e' he' hs =>
      hnew e List.mem_cons_self (honce e List.mem_cons_self e' (.inl he') hs ▸ he')
    obtain ⟨w₁, hrun, hw₁, hr₁⟩ := connect_wired hl hw hfrom hto hdf hdt hapart
    obtain ⟨w₂, hrun₂, hw₂, hr₂⟩ := ih hw₁ hn
      (fun e' he' => by rw [hr₁, hr₁]; exact hends e' (List.mem_cons_of_mem _ he'))
      (fun e' he' => hdir e' (List.mem_cons_of_mem _ he'))
      (fun e' he' hin => by
        rcases hin with rfl | hin
        · exact hout he'
        · exact hnew e' (List.mem_cons_of_mem _ he') hin)
      (fun e' he' e'' hin hs => by
        refine honce e' (List.mem_cons_of_mem _ he') e'' ?_ hs
        rcases hin with (rfl | hin) | hin
        · exact .inr List.mem_cons_self
        · exact .inl hin
        · exact .inr (List.mem_cons_of_mem _ hin))
    refine ⟨w₂, ?_, ?_, fun id => (hr₂ id).trans (hr₁ id)⟩
    · rw [List.map_cons, forM_cons_of_ok _
        (show apply_card_api_event (.card_connect e.from_id e.from_slot e.to_id e.to_slot) w = _ from hrun)]
      exact hrun₂
    · have hset : insert e E ∪ { e' | e' ∈ es } = E ∪ { e' | e' ∈ e :: es } := by
        ext e'
        simp only [Set.mem_union, Set.mem_insert_iff, Set.mem_ofPred_eq, List.mem_cons]
        grind
      rwa [hset] at hw₂

theorem update_all (hl : lib.Lawful) {evs : List CardApiEvent} {w : CardWorld lib} {E : Set StructuralEdge}
    (hw : Wired w E)
    (hevs : ∀ ev ∈ evs, ∃ id value, ev = .card_update id value ∧ w.card_metadata_storage.has id = true) :
    ∃ w', evs.forM apply_card_api_event w = .ok ⟨⟩ w' ∧ Wired w' E ∧ SameRegistered w w' := by
  induction evs generalizing w with
  | nil => exact ⟨w, rfl, hw, fun _ => rfl⟩
  | cons ev evs ih =>
    obtain ⟨id, value, rfl, hid⟩ := hevs ev List.mem_cons_self
    obtain ⟨w₁, hrun, hw₁, hr₁⟩ := update_wired hl hw hid value
    obtain ⟨w₂, hrun₂, hw₂, hr₂⟩ := ih hw₁ fun ev' hev' => by
      obtain ⟨id', value', heq, hid'⟩ := hevs ev' (List.mem_cons_of_mem _ hev')
      exact ⟨id', value', heq, (hr₁ id').trans hid'⟩
    exact ⟨w₂, by rw [forM_cons_of_ok _ hrun]; exact hrun₂, hw₂, fun id => (hr₂ id).trans (hr₁ id)⟩

/-! ## A whole diff -/

/-- The connections of the first slot map whose key the second one does not have. -/
def onlyIn (m m' : OrdMap String StructuralEdge) : List StructuralEdge :=
  m.entries.filterMap (fun entry => if m'.has entry.1 then none else some entry.2)

theorem mem_onlyIn {m m' : CompileRequestData} {e : StructuralEdge} :
    e ∈ onlyIn (collect_edges m) (collect_edges m') ↔
      e ∈ edgesOf m ∧ (collect_edges m').get? (edgeKey e) = none := by
  rw [onlyIn, List.mem_filterMap, mem_edgesOf]
  constructor
  · rintro ⟨⟨k, e'⟩, hm, hif⟩
    rw [OrdMap.mem_entries_iff] at hm
    split at hif
    · cases hif
    · rename_i hhas
      cases hif
      rw [← key_of_collected hm]
      exact ⟨hm, (OrdMap.has_eq_false ..).1 (by simpa using hhas)⟩
  · rintro ⟨hm, hnone⟩
    refine ⟨(edgeKey e, e), (OrdMap.mem_entries_iff ..).2 hm, ?_⟩
    rw [if_neg]
    simp [OrdMap.has, hnone]

theorem onlyIn_nodup (m : CompileRequestData) (m' : OrdMap String StructuralEdge) :
    (onlyIn (collect_edges m) m').Nodup := by
  have hsub : (onlyIn (collect_edges m) m').Sublist (collect_edges m).values := by
    rw [onlyIn, OrdMap.values]
    induction (collect_edges m).entries with
    | nil => exact .slnil
    | cons entry entries ih =>
      rw [List.filterMap_cons, List.map_cons]
      split
      · exact ih.cons _
      · rename_i e he
        split at he <;> cases he
        exact ih.cons_cons _
  exact (values_nodup m).sublist hsub

theorem detachEvents_eq (prev next : OrdMap String StructuralEdge) :
    detachEvents prev next = (onlyIn prev next).map fun e => .card_detach e.from_id e.to_id := by
  rw [detachEvents, onlyIn, List.map_filterMap]
  refine List.filterMap_congr fun entry _ => ?_
  split <;> rfl

theorem connectEvents_eq (prev next : OrdMap String StructuralEdge) : connectEvents prev next =
    (onlyIn next prev).map fun e => .card_connect e.from_id e.from_slot e.to_id e.to_slot := by
  rw [connectEvents, onlyIn, List.map_filterMap]
  refine List.filterMap_congr fun entry _ => ?_
  split <;> rfl

/-- A diff between two slot maps applies without throwing and leaves the wiring
and the cards of the second one. -/
theorem diff_wired (hl : lib.Lawful) {prev next : CompileRequestData} {w : CardWorld lib} (hw : Wired w (edgesOf prev))
    (hcards : ∀ id, w.card_metadata_storage.has id = true ↔ id ∈ collect_card_ids prev)
    (hwf : SlotMapWellFormed next) (honce : JoinedOnce next) (hkeys : KeysAgree prev next) :
    ∃ w', apply_card_api_events_io (diff_slot_maps_to_card_api_events prev next) w = .ok ⟨⟩ w' ∧
      Wired w' (edgesOf next) ∧ ∀ id, w'.card_metadata_storage.has id = true ↔ id ∈ collect_card_ids next := by
  -- The connections that stay are connections of the next slot map.
  have hstay : ∀ e ∈ edgesOf prev \ { e | e ∈ onlyIn (collect_edges prev) (collect_edges next) }, e ∈ edgesOf next := by
    rintro e ⟨he, hnot⟩
    cases hg : (collect_edges next).get? (edgeKey e) with
    | none => exact absurd (mem_onlyIn.2 ⟨he, hg⟩) hnot
    | some e' =>
      have hee : e' = e := hkeys _ ((OrdMap.mem_entries_iff ..).2 (mem_edgesOf.1 he)) e' hg
      exact mem_edgesOf.2 (hee ▸ hg)
  obtain ⟨w₁, hrun₁, hw₁, hr₁⟩ := detach_all hl hw (onlyIn_nodup prev (collect_edges next))
    fun e he => (mem_onlyIn.1 he).1
  have hcards₁ : ∀ id, w₁.card_metadata_storage.has id = true ↔ id ∈ collect_card_ids prev :=
    fun id => by rw [hr₁]; exact hcards id
  obtain ⟨w₂, hrun₂, hw₂, hr₂⟩ := remove_all hl hw₁
    ((collect_card_ids_nodup prev).filter (fun id => id ∉ collect_card_ids next))
    (fun id hid => (hcards₁ id).2 (List.mem_filter.1 hid).1)
    (fun id hid e he => by
      have hgone : id ∉ collect_card_ids next := by simpa using (List.mem_filter.1 hid).2
      obtain ⟨hfrom, hto⟩ := hwf.ends (hstay e he)
      exact ⟨fun heq => hgone (heq ▸ hfrom), fun heq => hgone (heq ▸ hto)⟩)
  have hadds : (sortStrings ((collect_card_ids next).filter (fun id => id ∉ collect_card_ids prev))).Nodup :=
    (sortStrings_perm _).nodup_iff.2 ((collect_card_ids_nodup next).filter _)
  obtain ⟨w₃, hrun₃, hw₃, hr₃⟩ := add_all hl hw₂ hadds fun id hid => by
    have hnew : id ∉ collect_card_ids prev := by
      simpa using (List.mem_filter.1 ((mem_sortStrings ..).1 hid)).2
    refine Bool.eq_false_iff.2 fun hhas => hnew ((hcards₁ id).1 ((hr₂ id).1 hhas).2)
  have hcards₃ : ∀ id, w₃.card_metadata_storage.has id = true ↔ id ∈ collect_card_ids next := by
    intro id
    rw [hr₃, hr₂, hcards₁, mem_sortStrings, List.mem_filter, List.mem_filter, decide_eq_true_eq, decide_eq_true_eq]
    grind
  obtain ⟨w₄, hrun₄, hw₄, hr₄⟩ := connect_all hl hw₃ (onlyIn_nodup next (collect_edges prev))
    (fun e he => by
      obtain ⟨hfrom, hto⟩ := hwf.ends (mem_onlyIn.1 he).1
      exact ⟨(hcards₃ _).2 hfrom, (hcards₃ _).2 hto⟩)
    (fun e he => collect_edges_directional (mem_edgesOf.1 (mem_onlyIn.1 he).1))
    (fun e he hin => by
      have hprev := mem_edgesOf.1 hin.1
      rw [(mem_onlyIn.1 he).2] at hprev
      cases hprev)
    (fun e he e' hin => honce e (mem_onlyIn.1 he).1 e' (hin.elim (hstay e') fun he' => (mem_onlyIn.1 he').1))
  have hcards₄ : ∀ id, w₄.card_metadata_storage.has id = true ↔ id ∈ collect_card_ids next :=
    fun id => by rw [hr₄]; exact hcards₃ id
  have hupdates : ∀ ev ∈ sync_code_slots prev next, ∃ id value, ev = .card_update id value ∧
      w₄.card_metadata_storage.has id = true := by
    intro ev hev
    obtain ⟨key, ref, hk, -, rfl⟩ := mem_sync_code_slots hev
    exact ⟨_, _, rfl, (hcards₄ _).2 (hwf.card_mem hk)⟩
  obtain ⟨w₅, hrun₅, hw₅, hr₅⟩ := update_all hl hw₄ hupdates
  refine ⟨w₅, ?_, ?_, fun id => by rw [hr₅]; exact hcards₄ id⟩
  · rw [apply_card_api_events_io, diff_slot_maps_to_card_api_events, List.append_assoc, List.append_assoc,
      List.append_assoc, detachEvents_eq, connectEvents_eq, forM_append_of_ok _ hrun₁, removeEvents,
      forM_append_of_ok _ hrun₂, addEvents, forM_append_of_ok _ hrun₃, forM_append_of_ok _ hrun₄, hrun₅]
  · have hset : edgesOf prev \ { e | e ∈ onlyIn (collect_edges prev) (collect_edges next) } ∪
        { e | e ∈ onlyIn (collect_edges next) (collect_edges prev) } = edgesOf next := by
      ext e
      refine ⟨fun h => h.elim (hstay e) fun he => (mem_onlyIn.1 he).1, fun he => ?_⟩
      cases hg : (collect_edges prev).get? (edgeKey e) with
      | none => exact .inr (mem_onlyIn.2 ⟨he, hg⟩)
      | some e' =>
        have hee : e = e' := hkeys _ ((OrdMap.mem_entries_iff ..).2 hg) e (mem_edgesOf.1 he)
        refine .inl ⟨mem_edgesOf.2 (hee ▸ hg), fun hin => ?_⟩
        have hnone := (mem_onlyIn.1 hin).2
        rw [mem_edgesOf.1 he] at hnone
        cases hnone
    rwa [hset] at hw₅

/-! ## The pushes of a session -/

/-- The registry holds the cards of the session's slot map, exactly its
connections are linked, and no other live link joins two cards. -/
structure StructureInvariant (sessionId : String) (s : Server lib) : Prop where
  cards : ∀ id, s.cards.card_metadata_storage.has id = true ↔ id ∈ collect_card_ids (sessionSlotMap sessionId s)
  linked : ∀ e, Linked s.cards e ↔ e ∈ edgesOf (sessionSlotMap sessionId s)
  live : ∀ link flow, Carries s.cards link flow → ∃ e ∈ edgesOf (sessionSlotMap sessionId s), flow ∈ flows e

/-- The first and the third link of a connection carry the flows out of its two slots. -/
theorem slot_flows {w : CardWorld lib} {e : StructuralEdge} {links : List lib.Cell}
    (h : List.Forall₂ (Carries w) links (flows e)) : ∃ l1 l2 l3 l4, links = [l1, l2, l3, l4] ∧
      Carries w l1 ((e.from_id, e.from_slot), (e.to_id, slot_this)) ∧
      Carries w l3 ((e.to_id, e.to_slot), (e.from_id, slot_this)) := by
  unfold flows at h
  rcases h with _ | ⟨c1, _ | ⟨c2, _ | ⟨c3, _ | ⟨c4, ⟨⟩⟩⟩⟩⟩
  exact ⟨_, _, _, _, rfl, c1, c3⟩

/-- A pair of slots is linked exactly when it is a connection. -/
theorem Wired.linked_iff {w : CardWorld lib} {E : Set StructuralEdge} (hw : Wired w E) (e : StructuralEdge) :
    Linked w e ↔ e ∈ E := by
  refine ⟨fun h => ?_, hw.linked e⟩
  obtain ⟨links, h1, h2, hf⟩ := h
  obtain ⟨e', he', hj⟩ := hw.stored _ _ _ h1
  obtain ⟨links', h1', -, hf'⟩ := hw.linked e' he'
  have hsame : links' = links := by
    rcases hj with ⟨hfrom, hto⟩ | ⟨hfrom, hto⟩
    · rw [hfrom, hto, h1] at h1'; exact (Option.some.inj h1').symm
    · rw [hfrom, hto, h2] at h1'; exact (Option.some.inj h1').symm
  subst hsame
  obtain ⟨l1, l2, l3, l4, rfl, c1, c3⟩ := slot_flows hf
  obtain ⟨_, _, _, _, heq, c1', c3'⟩ := slot_flows hf'
  cases heq
  have hee : e = e' := by
    have hfirst := hw.flow_unique c1 c1'
    have hthird := hw.flow_unique c3 c3'
    cases e
    cases e'
    simp_all
  exact hee ▸ he'

/-- What the pushes of a session keep. -/
structure SessionWired (sessionId : String) (s : Server lib) : Prop where
  wired : Wired s.cards (edgesOf (sessionSlotMap sessionId s))
  cards : ∀ id, s.cards.card_metadata_storage.has id = true ↔ id ∈ collect_card_ids (sessionSlotMap sessionId s)
  state : ∀ state, get_session sessionId s = some state → state < s.states.length

theorem SessionWired.structureInvariant {sessionId : String} {s : Server lib} (h : SessionWired sessionId s) :
    StructureInvariant sessionId s where
  cards := h.cards
  linked := h.wired.linked_iff
  live link flow hc := by
    obtain ⟨e, he, -, -, -, hf⟩ := h.wired.carried link flow hc
    exact ⟨e, he, hf⟩

theorem SessionWired.init (sessionId : String) (heap : lib.Heap) : SessionWired sessionId (Server.init heap) where
  wired :=
    { filed := ⟨fun _ _ h => (nomatch h), fun _ _ _ _ h => (nomatch h)⟩
      known := fun _ _ h => (nomatch h)
      place := fun _ _ _ h => (nomatch h)
      source := fun _ _ _ _ h => (nomatch h)
      pairs := fun _ h => (nomatch h)
      linked := fun _ h => (nomatch h)
      stored := fun _ _ _ h => (nomatch h)
      carried := fun _ _ ⟨_, _, h, _⟩ => (nomatch h) }
  cards id := by
    refine iff_of_false (by simp [Server.init]) fun h => ?_
    obtain ⟨key, ref, hk, -⟩ := mem_collect_card_ids.1 h
    cases hk
  state state h := nomatch h

/-- The slot maps a push compares: card ids and directional slots of the next
one are in order. -/
def PushWellFormed (sessionId : String) (s : Server lib) (delta : CardsDeltaData) : Prop :=
  SlotMapWellFormed (nextSlotMap sessionId s delta)

/-- The next slot map joins no two cards twice, and its keys agree with those of
the slot map before. -/
def PushSeparates (sessionId : String) (s : Server lib) (delta : CardsDeltaData) : Prop :=
  JoinedOnce (nextSlotMap sessionId s delta) ∧ KeysAgree (sessionSlotMap sessionId s) (nextSlotMap sessionId s delta)

/-- The push applies without throwing. -/
def PushApplies (sessionId : String) (s : Server lib) (delta : CardsDeltaData) : Prop :=
  ∃ s', push_deltas_apply_io sessionId delta s = .ok ⟨⟩ s'

/-- The pushes of one session, one after the other. -/
def push (sessionId : String) (s : Server lib) (delta : CardsDeltaData) : Server lib :=
  serve s (.pushDeltas sessionId delta)

theorem resolvedState_lt {sessionId : String} {s : Server lib}
    (h : ∀ state, get_session sessionId s = some state → state < s.states.length) :
    resolvedState sessionId s < (registered sessionId .empty s).states.length := by
  unfold resolvedState registered
  cases hg : get_session sessionId s with
  | some state => exact h state hg
  | none => simp

/-- A push binds the next slot map to its session. -/
theorem SessionWired.bound {sessionId : String} {s : Server lib} (h : SessionWired sessionId s)
    {slotMap : CompileRequestData} {cards : CardWorld lib} (hw : Wired cards (edgesOf slotMap))
    (hcards : ∀ id, cards.card_metadata_storage.has id = true ↔ id ∈ collect_card_ids slotMap) :
    SessionWired sessionId (bound sessionId slotMap cards s) := by
  have hlt := resolvedState_lt h.state
  have hget : get_session sessionId (Grpc.bound sessionId slotMap cards s) = some (resolvedState sessionId s) :=
    (get_session_registered ..).trans (if_pos rfl)
  have hslot : sessionSlotMap sessionId (Grpc.bound sessionId slotMap cards s) = slotMap := by
    rw [sessionSlotMap, hget]
    simp [slotMapAt, Grpc.bound, List.getElem?_eq_getElem hlt]
  refine ⟨by rw [hslot]; exact hw, by rw [hslot]; exact hcards, fun state hs => ?_⟩
  rw [hget, Option.some.injEq] at hs
  subst hs
  simpa [Grpc.bound] using hlt

theorem push_wired (hl : lib.Lawful) {sessionId : String} {s : Server lib} (h : SessionWired sessionId s)
    {delta : CardsDeltaData} (hwf : PushWellFormed sessionId s delta) (hsep : PushSeparates sessionId s delta) :
    ∃ s', push_deltas_apply_io sessionId delta s = .ok ⟨⟩ s' ∧ SessionWired sessionId s' := by
  obtain ⟨w, hrun, hw, hcards⟩ := diff_wired hl h.wired h.cards hwf hsep.1 hsep.2
  refine ⟨bound sessionId (nextSlotMap sessionId s delta) w s, ?_, h.bound hw hcards⟩
  rw [push_deltas_apply_io_eq, pushEvents, hrun]

/-- Every run of pushes from the empty registry, with well-formed slot maps that
join no two cards twice, applies without throwing and keeps the structure. -/
theorem pushes_keep_structure (hl : lib.Lawful) (heap : lib.Heap) (sessionId : String) (deltas : List CardsDeltaData)
    (hwf : Stepwise (push sessionId) (Server.init heap) deltas (PushWellFormed sessionId))
    (hsep : Stepwise (push sessionId) (Server.init heap) deltas (PushSeparates sessionId)) :
    Throughout (push sessionId) (Server.init heap) deltas (StructureInvariant sessionId) ∧
      Stepwise (push sessionId) (Server.init heap) deltas (PushApplies sessionId) := by
  have hboth : Stepwise (push sessionId) (Server.init heap) deltas
      (fun s delta => PushWellFormed sessionId s delta ∧ PushSeparates sessionId s delta) :=
    fun pre delta hpre => ⟨hwf pre delta hpre, hsep pre delta hpre⟩
  have hwired : Throughout (push sessionId) (Server.init heap) deltas (SessionWired sessionId) := by
    refine .of_step (.init sessionId heap) (fun s delta h hc => ?_) hboth
    obtain ⟨s', hrun, h'⟩ := push_wired hl h hc.1 hc.2
    rw [push, serve, handle, hrun]
    exact h'
  refine ⟨hwired.mono fun s h => h.structureInvariant, hwired.stepwise hboth fun s delta h hc => ?_⟩
  obtain ⟨s', hrun, -⟩ := push_wired hl h hc.1 hc.2
  exact ⟨s', hrun⟩

/-- A reference with nothing but its id. -/
def ref (id : String) : CardRefData := ⟨id, none⟩

/-- Two cards side by side. -/
def sideBySide : CardsDeltaData := ⟨(OrdMap.empty.set "a::right" (ref "b")).set "bcode" (ref "b"), []⟩

/-- The first card moves below the second. -/
def moveBelow : CardsDeltaData := ⟨OrdMap.empty.set "a::above" (ref "b"), ["a::right"]⟩

theorem pushes_keep_structure_move :
    Throughout (push "s") recorderServer [sideBySide, moveBelow] (StructureInvariant "s") ∧
      Stepwise (push "s") recorderServer [sideBySide, moveBelow] (PushApplies "s") := by
  have hwf₁ : SlotMapWellFormed (nextSlotMap "s" recorderServer sideBySide) := by decide +kernel
  have hwf₂ : SlotMapWellFormed (nextSlotMap "s" (push "s" recorderServer sideBySide) moveBelow) := by decide +kernel
  have honce₁ : JoinedOnce (nextSlotMap "s" recorderServer sideBySide) := by decide +kernel
  have honce₂ : JoinedOnce (nextSlotMap "s" (push "s" recorderServer sideBySide) moveBelow) := by decide +kernel
  have hkeys₁ : KeysAgree (sessionSlotMap "s" recorderServer) (nextSlotMap "s" recorderServer sideBySide) := by
    decide +kernel
  have hkeys₂ : KeysAgree (sessionSlotMap "s" (push "s" recorderServer sideBySide))
      (nextSlotMap "s" (push "s" recorderServer sideBySide) moveBelow) := by decide +kernel
  exact pushes_keep_structure recorder_lawful RecordedHeap.empty "s" [sideBySide, moveBelow]
    (stepwise_cons.2 ⟨hwf₁, stepwise_cons.2 ⟨hwf₂, stepwise_nil _⟩⟩)
    (stepwise_cons.2 ⟨⟨honce₁, hkeys₁⟩, stepwise_cons.2 ⟨⟨honce₂, hkeys₂⟩, stepwise_nil _⟩⟩)

/-- Every well-formed run keeps the structure, whatever its connections. -/
def StructureKept (lib : CellLibrary) : Prop :=
  ∀ (heap : lib.Heap) (sessionId : String) (deltas : List CardsDeltaData),
    Stepwise (push sessionId) (Server.init heap) deltas (PushWellFormed sessionId) →
      Throughout (push sessionId) (Server.init heap) deltas (StructureInvariant sessionId) ∧
        Stepwise (push sessionId) (Server.init heap) deltas (PushApplies sessionId)

/-- The first card stands left of the second and below it. -/
def joinedTwice : CardsDeltaData :=
  ⟨((OrdMap.empty.set "a::right" (ref "b")).set "a::above" (ref "b")).set "bcode" (ref "b"), []⟩

/-- Two slots of one card are removed at once. -/
def dropBoth : CardsDeltaData := ⟨.empty, ["a::right", "a::above"]⟩

/-- Dropping both connections detaches the pair of cards twice, and the second
detach throws. -/
theorem structure_not_kept : ¬ StructureKept recorder := by
  intro h
  have hwf₁ : SlotMapWellFormed (nextSlotMap "s" recorderServer joinedTwice) := by decide +kernel
  have hwf₂ : SlotMapWellFormed (nextSlotMap "s" (push "s" recorderServer joinedTwice) dropBoth) := by decide +kernel
  have happlies := (h RecordedHeap.empty "s" [joinedTwice, dropBoth]
    (stepwise_cons.2 ⟨hwf₁, stepwise_cons.2 ⟨hwf₂, stepwise_nil _⟩⟩)).2
  obtain ⟨s', hs'⟩ := (stepwise_cons.1 (stepwise_cons.1 happlies).2).1
  have hthrows : thrown (push_deltas_apply_io "s" dropBoth (push "s" recorderServer joinedTwice)) =
      some (.connector_not_found "a" "b") := by decide +kernel
  have hok : thrown (push_deltas_apply_io "s" dropBoth (push "s" recorderServer joinedTwice)) = none := by
    have := congrArg thrown hs'
    exact this
  rw [hok] at hthrows
  cases hthrows

end LainLang.Grpc
