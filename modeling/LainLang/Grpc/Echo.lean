import LainLang.Grpc.SlotKeys
import LainLang.Lib.Run
/-!
# The echo of a delta

The session route applies a delta to its slot map, removals first, and echoes it
to the client, slots first. A client that replays the echo keeps to the server's
map as long as no delta has the last word on a key that it both sets and removes.
-/
open LainLang.Lib LainLang.Js

namespace LainLang.Grpc

/-- Heartbeat and card updates from a delta. -/
def delta_to_server_messages (decoded : CardsDeltaData) : List ServerMessage :=
  to_heartbeat_message :: ((objectEntries decoded.slots).map (fun e => to_card_update_message e.1 (some e.2)) ++
    decoded.remove.map (fun key => to_card_update_message key none))

/-- What `handle_session_route` leaves: the slot map, and the messages yielded. -/
structure SessionRoute where
  slotMap : CompileRequestData
  yielded : List ServerMessage

/-- One turn of the loop of `handle_session_route`. -/
def handle_session_route (s : SessionRoute) (decoded : CardsDeltaData) : SessionRoute where
  slotMap := apply_cards_delta_to_slot_map decoded s.slotMap
  yielded := s.yielded ++ delta_to_server_messages decoded

/-! ## The client's copy -/

/-- A ref sets the slot, a missing one deletes it. -/
def client_receive (map : CompileRequestData) : ServerMessage → CompileRequestData
  | .heartbeat => map
  | .cardUpdate card_id slot (some ref) => map.set (card_id ++ slot) ref
  | .cardUpdate card_id slot none => map.delete (card_id ++ slot)

/-- The client applies the messages in their order. -/
def client_replay (map : CompileRequestData) (messages : List ServerMessage) : CompileRequestData :=
  messages.foldl client_receive map

/-- Both maps hold the same id at the key. -/
def AgreeAt (key : String) (map map' : CompileRequestData) : Prop :=
  (map.get? key).map CardRefData.id = (map'.get? key).map CardRefData.id

/-- The same keys, with the same ids. -/
def SameSlots (map map' : CompileRequestData) : Prop := ∀ key, AgreeAt key map map'

/-- Every key is a card id without colons and a slot. -/
def SlotKeyed (delta : CardsDeltaData) : Prop :=
  ∀ key, delta.slots.has key = true ∨ key ∈ delta.remove → ∃ id slot, CleanId id ∧ slot ∈ card_slots ∧ key = id ++ slot

/-- The delta sets or removes the key. -/
def Mentions (delta : CardsDeltaData) (key : String) : Prop := delta.slots.has key = true ∨ key ∈ delta.remove

/-- The key is both set and removed. -/
def Contradicts (delta : CardsDeltaData) (key : String) : Prop := delta.slots.has key = true ∧ key ∈ delta.remove

/-- No delta that both sets and removes the key is the last one to mention it. -/
def LastWordClear (deltas : List CardsDeltaData) (key : String) : Prop :=
  ∀ before delta after, deltas = before ++ delta :: after → Contradicts delta key → ∃ later ∈ after, Mentions later key

/-! ## One delta -/

theorem slotKey_ne_proto {id slot : String} (h : slot ∈ card_slots) : id ++ slot ≠ "__proto__" := by
  intro heq
  have hsuffix : slot.toList <:+ "__proto__".toList := by
    rw [← heq, String.toList_append]
    exact List.suffix_append ..
  simp only [card_slots, List.mem_cons, List.not_mem_nil, or_false] at h
  rcases h with rfl | rfl | rfl | rfl | rfl | rfl <;> exact absurd hsuffix (by decide)

theorem SlotKeyed.ne_proto {delta : CardsDeltaData} (h : SlotKeyed delta) {key : String}
    (hkey : delta.slots.has key = true) : key ≠ "__proto__" := by
  obtain ⟨id, slot, -, hslot, rfl⟩ := h key (.inl hkey)
  exact slotKey_ne_proto hslot

theorem assignAll_eq_setAll {V : Type} {es : List (String × V)} (h : ∀ e ∈ es, e.1 ≠ "__proto__") (o : OrdMap String V) :
    assignAll o es = o.setAll es := by
  unfold assignAll OrdMap.setAll
  induction es generalizing o with
  | nil => rfl
  | cons e es ih =>
    rw [List.foldl_cons, List.foldl_cons, assignProperty, if_neg (h e List.mem_cons_self)]
    exact ih (fun e' he' => h e' (List.mem_cons_of_mem _ he')) _

/-- On the server a slot that is set stays, removed or not. -/
theorem apply_cards_delta_get? {delta : CardsDeltaData} (h : SlotKeyed delta) (map : CompileRequestData) (key : String) :
    (apply_cards_delta_to_slot_map delta map).get? key =
      (delta.slots.get? key).or (if key ∈ delta.remove then none else map.get? key) := by
  have hproto : ∀ e ∈ objectEntries delta.slots, e.1 ≠ "__proto__" := by
    intro e he
    exact h.ne_proto ((delta.slots.has_iff e.1).2 ⟨e.2, (mem_objectEntries delta.slots e.1 e.2).1 he⟩)
  rw [apply_cards_delta_to_slot_map, assignAll_eq_setAll hproto, get?_setAll_objectEntries, OrdMap.get?_deleteAll]

theorem client_receive_update (map : CompileRequestData) (key : String) (ref : CardRefData) :
    client_receive map (to_card_update_message key (some ref)) = map.set key ref := by
  rw [to_card_update_message, client_receive, key_to_card_and_slot_append]

theorem client_receive_removal (map : CompileRequestData) (key : String) :
    client_receive map (to_card_update_message key none) = map.delete key := by
  rw [to_card_update_message, client_receive, key_to_card_and_slot_append]

/-- The client hears of the removals last. -/
theorem client_replay_delta (map : CompileRequestData) (delta : CardsDeltaData) :
    client_replay map (delta_to_server_messages delta) =
      (map.setAll (objectEntries delta.slots)).deleteAll delta.remove := by
  unfold client_replay delta_to_server_messages OrdMap.setAll OrdMap.deleteAll
  rw [List.foldl_cons, List.foldl_append, List.foldl_map, List.foldl_map]
  simp only [client_receive_update, client_receive_removal]
  rfl

theorem client_replay_get? (map : CompileRequestData) (delta : CardsDeltaData) (key : String) :
    (client_replay map (delta_to_server_messages delta)).get? key =
      if key ∈ delta.remove then none else (delta.slots.get? key).or (map.get? key) := by
  rw [client_replay_delta, OrdMap.get?_deleteAll, get?_setAll_objectEntries]

/-- After a delta the two maps agree at a key unless the delta contradicts itself
there; without a word on the key they agree if they did before. -/
theorem agree_delta {delta : CardsDeltaData} (h : SlotKeyed delta) (client server : CompileRequestData) (key : String) :
    AgreeAt key (client_replay client (delta_to_server_messages delta)) (apply_cards_delta_to_slot_map delta server) ↔
      ¬ Contradicts delta key ∧ (Mentions delta key ∨ AgreeAt key client server) := by
  unfold AgreeAt Contradicts Mentions OrdMap.has
  rw [client_replay_get?, apply_cards_delta_get? h]
  by_cases hremove : key ∈ delta.remove
  · cases delta.slots.get? key <;> simp [hremove]
  · cases delta.slots.get? key <;> simp [hremove]

/-! ## A session -/

theorem lastWordClear_append {deltas : List CardsDeltaData} {delta : CardsDeltaData} {key : String} :
    LastWordClear (deltas ++ [delta]) key ↔ ¬ Contradicts delta key ∧ (Mentions delta key ∨ LastWordClear deltas key) := by
  constructor
  · intro h
    refine ⟨fun hboth => ?_, ?_⟩
    · obtain ⟨later, hlater, -⟩ := h deltas delta [] rfl hboth
      cases hlater
    · by_cases hmentions : Mentions delta key
      · exact .inl hmentions
      · right
        intro before d after hsplit hboth
        obtain ⟨later, hlater, hkey⟩ := h before d (after ++ [delta]) (by simp [hsplit]) hboth
        rcases List.mem_append.1 hlater with hlater | hlater
        · exact ⟨later, hlater, hkey⟩
        · rw [List.mem_singleton] at hlater
          subst hlater
          exact absurd hkey hmentions
  · rintro ⟨hclear, hbefore⟩ before d after hsplit hboth
    rcases List.eq_nil_or_concat after with rfl | ⟨after, last, rfl⟩
    · -- The contradiction would be that of the last delta.
      obtain ⟨-, hlast⟩ := List.append_inj' hsplit rfl
      obtain rfl := List.singleton_inj.1 hlast
      exact absurd hboth hclear
    · have hsplit' : deltas ++ [delta] = (before ++ d :: after) ++ [last] := by simp [hsplit]
      obtain ⟨hdeltas, hlast⟩ := List.append_inj' hsplit' rfl
      obtain rfl := List.singleton_inj.1 hlast
      rcases hbefore with hmentions | hbefore
      · exact ⟨delta, by simp, hmentions⟩
      · obtain ⟨later, hlater, hkey⟩ := hbefore before d after hdeltas hboth
        exact ⟨later, by simp [hlater], hkey⟩

theorem agree_session {deltas : List CardsDeltaData} (h : ∀ delta ∈ deltas, SlotKeyed delta) (m : CompileRequestData)
    (key : String) :
    AgreeAt key (client_replay m (deltas.flatMap delta_to_server_messages))
      (deltas.foldl (fun map delta => apply_cards_delta_to_slot_map delta map) m) ↔ LastWordClear deltas key := by
  induction deltas using List.reverseRecOn with
  | nil =>
    have hnil : LastWordClear [] key := by
      intro before delta after hsplit
      simp at hsplit
    exact iff_of_true rfl hnil
  | append_singleton deltas delta ih =>
    have hdelta := h delta (by simp)
    have hdeltas := ih fun d hd => h d (by simp [hd])
    rw [lastWordClear_append, ← hdeltas, ← agree_delta hdelta, List.flatMap_append, List.foldl_append, client_replay,
      List.foldl_append]
    simp only [List.flatMap_cons, List.flatMap_nil, List.append_nil, List.foldl_cons, List.foldl_nil]
    rfl

/-- The turns of the route, taken together. -/
theorem handle_session_route_run (s : SessionRoute) (deltas : List CardsDeltaData) :
    run handle_session_route s deltas =
      { slotMap := deltas.foldl (fun map delta => apply_cards_delta_to_slot_map delta map) s.slotMap
        yielded := s.yielded ++ deltas.flatMap delta_to_server_messages } := by
  induction deltas generalizing s with
  | nil => simp
  | cons delta deltas ih =>
    rw [run_cons, ih]
    simp [handle_session_route]

/-- The client of a session that starts empty ends with the route's keys and ids
exactly if no key is left by a delta that both sets and removes it. -/
theorem session_agrees_iff (deltas : List CardsDeltaData) (hkeys : ∀ delta ∈ deltas, SlotKeyed delta) :
    SameSlots (client_replay .empty (run handle_session_route ⟨.empty, []⟩ deltas).yielded)
      (run handle_session_route ⟨.empty, []⟩ deltas).slotMap ↔ ∀ key, LastWordClear deltas key := by
  rw [handle_session_route_run]
  exact forall_congr' fun key => agree_session hkeys .empty key

/-- So does a client that starts from any slot map. -/
theorem echo_agrees_iff (m : CompileRequestData) (deltas : List CardsDeltaData)
    (hkeys : ∀ delta ∈ deltas, SlotKeyed delta) :
    (SameSlots (client_replay m (deltas.flatMap delta_to_server_messages))
      (deltas.foldl (fun map delta => apply_cards_delta_to_slot_map delta map) m) ↔ ∀ key, LastWordClear deltas key) ∧
      (SameSlots (client_replay .empty (run handle_session_route ⟨.empty, []⟩ deltas).yielded)
        (run handle_session_route ⟨.empty, []⟩ deltas).slotMap ↔ ∀ key, LastWordClear deltas key) :=
  ⟨forall_congr' fun key => agree_session hkeys m key, session_agrees_iff deltas hkeys⟩

/-- A delta that sets the code of a card and removes it. -/
def setAndRemoved : CardsDeltaData where
  slots := OrdMap.empty.set "acode" ⟨"a", some (.str "x")⟩
  remove := ["acode"]

theorem slotKeyed_acode {delta : CardsDeltaData} (hslots : delta.slots.keys = ["acode"]) (hremove : delta.remove ⊆ ["acode"]) :
    SlotKeyed delta := by
  have hclean : CleanId "a" := by
    unfold CleanId
    decide
  intro key hkey
  refine ⟨"a", slot_code, hclean, by decide, ?_⟩
  rw [OrdMap.has_iff_mem_keys, hslots] at hkey
  rcases hkey with hkey | hkey
  · exact List.mem_singleton.1 hkey
  · exact List.mem_singleton.1 (hremove hkey)

theorem echo_agrees_iff_setAndRemoved :
    SameSlots (client_replay .empty ([setAndRemoved, ⟨setAndRemoved.slots, []⟩].flatMap delta_to_server_messages))
      ([setAndRemoved, ⟨setAndRemoved.slots, []⟩].foldl (fun map delta => apply_cards_delta_to_slot_map delta map) .empty) := by
  have hkeys : ∀ delta ∈ [setAndRemoved, ⟨setAndRemoved.slots, []⟩], SlotKeyed delta := by
    intro delta hdelta
    rcases List.mem_pair.1 hdelta with rfl | rfl
    · exact slotKeyed_acode rfl (by simp [setAndRemoved])
    · exact slotKeyed_acode rfl (by simp)
  -- The second delta sets the key again and does not remove it.
  refine (echo_agrees_iff .empty _ hkeys).1.2 fun key => ?_
  change LastWordClear ([] ++ [setAndRemoved] ++ [⟨setAndRemoved.slots, []⟩]) key
  refine lastWordClear_append.2 ⟨fun hboth => List.not_mem_nil hboth.2, ?_⟩
  by_cases hkey : key = "acode"
  · exact .inl (.inl (by simp [setAndRemoved, hkey]))
  · right
    refine lastWordClear_append.2 ⟨?_, .inr fun before delta after hsplit => by simp at hsplit⟩
    exact fun hboth => hkey (List.mem_singleton.1 hboth.2)

/-- After that delta the server has the slot and the client does not. -/
theorem echo_disagrees : ¬ ∀ (m : CompileRequestData) (deltas : List CardsDeltaData),
    (∀ delta ∈ deltas, SlotKeyed delta) → SameSlots (client_replay m (deltas.flatMap delta_to_server_messages))
      (deltas.foldl (fun map delta => apply_cards_delta_to_slot_map delta map) m) := by
  intro h
  have hkeys : ∀ delta ∈ [setAndRemoved], SlotKeyed delta := by
    intro delta hdelta
    rw [List.mem_singleton.1 hdelta]
    exact slotKeyed_acode rfl (by simp [setAndRemoved])
  have hclear := (agree_session hkeys .empty "acode").1 (h .empty [setAndRemoved] hkeys "acode")
  obtain ⟨later, hlater, -⟩ := hclear [] setAndRemoved [] rfl ⟨by simp [setAndRemoved], by simp [setAndRemoved]⟩
  cases hlater

end LainLang.Grpc
