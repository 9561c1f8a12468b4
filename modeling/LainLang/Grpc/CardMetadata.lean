import LainLang.Grpc.CardSlotSync
/-!
# The card registry

`card_metadata_storage` and the functions that register, connect, detach and
remove cards. They run on the cells of the propagator library, which is a
parameter: `CellLibrary` lists what the card code calls, and the three things
it relies on a heap to remember. A thrown error keeps every effect made before
it.
-/
open LainLang.Lib LainLang.Js

namespace LainLang.Grpc

/-- The cell operations the card code calls. The last three fields observe a
heap: the cells constructed so far, the cell a source cell was last pointed at,
and the pairs `p_sync_to_link` was called on. -/
structure CellLibrary where
  Heap : Type
  Cell : Type
  Propagator : Type
  construct_cell : String → Heap → Cell × Heap
  source_constant_cell : String → Heap → Cell × Heap
  /-- `update_source_cell(link, create_observer_link(target))`. -/
  update_source_cell : (link target : Cell) → Heap → Heap
  p_sync_to_link : (cell link : Cell) → Heap → Heap
  construct_propagator : (inputs outputs : List Cell) → String → Heap → Propagator × Heap
  dispose_propagator : Propagator → Heap → Heap
  execute_all_tasks_sequential : Heap → Heap
  /-- `update_cell(card, new Map())`. -/
  seed_with_empty_map : Cell → Heap → Heap
  /-- `is_equal(get_base_value(cell_strongest(cell)), get_base_value(value))`. -/
  holds_base_value : Cell → Option Json → Heap → Bool
  update_specialized_reactive_value : Cell → String → Option Json → Heap → Heap
  known : Heap → Cell → Prop
  target : Heap → Cell → Option Cell
  synced : Heap → Cell → Cell → Prop

/-- The tracked cells of a card. `construct_card_metadata` makes all of them,
and none is ever dropped. -/
structure TrackedCells (Cell : Type) where
  this : Cell
  left : Cell
  right : Cell
  above : Cell
  below : Cell
  updater : Cell
  emitter : Cell

/-- `tracker.get(key)`. -/
def TrackedCells.get? {Cell : Type} (t : TrackedCells Cell) (key : String) : Option Cell :=
  if key = slot_this then some t.this
  else if key = slot_left then some t.left
  else if key = slot_right then some t.right
  else if key = slot_above then some t.above
  else if key = slot_below then some t.below
  else if key = "updater" then some t.updater
  else if key = "emitter" then some t.emitter
  else none

/-- `CardMetadata`, without what only a build sets. -/
structure CardMetadata (lib : CellLibrary) where
  id : String
  card : lib.Cell
  compile_source : lib.Cell
  tracking_internal_cells : TrackedCells lib.Cell
  tracking_propagators : OrdMap String lib.Propagator
  connector_links : OrdMap String (List lib.Cell)

/-- What the card functions throw. -/
inductive CardError where
  | card_metadata_not_found (id : String)
  | connector_not_found (idA idB : String)
  | key_not_found (key : String)
  deriving DecidableEq

/-- The text of the error; `tracker` prints the tracker a key is missing from. -/
def CardError.message (tracker : String) : CardError → String
  | .card_metadata_not_found id => "Card metadata not found for " ++ id
  | .connector_not_found idA idB => "Connector not found for cards " ++ idA ++ " and " ++ idB
  | .key_not_found key => "Key " ++ key ++ " not found in tracker: " ++ tracker

/-- The cells and the metadata of all cards. -/
structure CardWorld (lib : CellLibrary) where
  heap : lib.Heap
  card_metadata_storage : OrdMap String (CardMetadata lib)

/-- Code over the cards that may throw; what it did before stays done. -/
abbrev CardIO (lib : CellLibrary) := EStateM CardError (CardWorld lib)

variable {lib : CellLibrary}

/-- A call of the cell library that returns something. -/
def callHeap {α : Type} (f : lib.Heap → α × lib.Heap) : CardIO lib α :=
  fun w => .ok (f w.heap).1 { w with heap := (f w.heap).2 }

/-- A call of the cell library. -/
def onHeap (f : lib.Heap → lib.Heap) : CardIO lib Unit :=
  fun w => .ok () { w with heap := f w.heap }

/-! ## Storage -/

/-- Stored under the id, over what was there. -/
def set_card_metadata (id : String) (metadata : CardMetadata lib) : CardIO lib Unit :=
  modify (fun w => { w with card_metadata_storage := w.card_metadata_storage.set id metadata })

/-- Forgotten; its propagators are not touched. -/
def remove_card_metadata (id : String) : CardIO lib Unit :=
  modify (fun w => { w with card_metadata_storage := w.card_metadata_storage.delete id })

/-- A card that is not stored is an error. -/
def guarantee_get_card_metadata (id : String) : CardIO lib (CardMetadata lib) := do
  match (← get).card_metadata_storage.get? id with
  | none => throw (.card_metadata_not_found id)
  | some metadata => return metadata

/-- Mutates the connector links of the metadata object stored under `id`. -/
def modify_connector_links (id : String)
    (f : OrdMap String (List lib.Cell) → OrdMap String (List lib.Cell)) : CardIO lib Unit := do
  match (← get).card_metadata_storage.get? id with
  | none => return ()
  | some metadata => set_card_metadata id { metadata with connector_links := f metadata.connector_links }

/-- `guarantee_get` throws for an untracked key. -/
def guarantee_get (tracker : TrackedCells lib.Cell) (key : String) : CardIO lib lib.Cell :=
  match tracker.get? key with
  | some cell => return cell
  | none => throw (.key_not_found key)

/-! ## Cards -/

/-- `construct_card_metadata`: all cells of the card, and its metadata under the id. -/
def construct_card_metadata (id : String) : CardIO lib (CardMetadata lib) := do
  let card ← callHeap (lib.construct_cell ("CARD|" ++ id))
  onHeap (lib.seed_with_empty_map card)
  let compile_source ← callHeap (lib.source_constant_cell ("card-compile:" ++ id))
  let slotCell := fun slot => callHeap (lib.construct_cell ("CARD|" ++ id ++ "|" ++ slot))
  let card_this ← slotCell slot_this
  let card_left ← slotCell slot_left
  let card_right ← slotCell slot_right
  let card_above ← slotCell slot_above
  let card_below ← slotCell slot_below
  let unfolder ← callHeap (lib.construct_propagator []
    [card_this, card_left, card_right, card_above, card_below, card] "unfold_card_internal_network")
  onHeap lib.execute_all_tasks_sequential
  let updater ← callHeap (lib.construct_cell ("updater" ++ id))
  let emitter ← callHeap (lib.construct_cell ("emitter" ++ id))
  let io_propagator ← callHeap (lib.construct_propagator [updater] [card_this, emitter] "bi_card_io")
  let emitter_propagator ← callHeap (lib.construct_propagator [card_this] [] "p_emit_card_updates_to_runtime")
  onHeap lib.execute_all_tasks_sequential
  let metadata : CardMetadata lib :=
    { id, card, compile_source
      tracking_internal_cells :=
        { this := card_this, left := card_left, right := card_right, above := card_above,
          below := card_below, updater, emitter }
      tracking_propagators :=
        ((OrdMap.empty.set "unfolder" unfolder).set "io_propagator" io_propagator).set
          "emitter_propagator" emitter_propagator
      connector_links := .empty }
  set_card_metadata id metadata
  return metadata

/-- `card_metadata_update`: the updater is written only when the value differs. -/
def card_metadata_update (metadata : CardMetadata lib) (current : Option Json) : CardIO lib Bool := do
  let this_cell ← guarantee_get metadata.tracking_internal_cells slot_this
  let updater ← guarantee_get metadata.tracking_internal_cells "updater"
  if lib.holds_base_value this_cell current (← get).heap then
    return false
  else
    onHeap (lib.update_specialized_reactive_value updater metadata.id current)
    return true

/-- Points every link at a fresh throwaway cell. -/
def disconnect_links (name : String) (links : List lib.Cell) : CardIO lib Unit := do
  let dummy ← callHeap (lib.construct_cell name)
  onHeap (fun heap => links.foldl (fun heap link => lib.update_source_cell link dummy heap) heap)

/-- The key of the links from one card to the other. -/
def linkKey (idA idB : String) : String := idA ++ "->" ++ idB

/-- Clears the links stored under the pair of cards, whatever slots they join. -/
def clear_previous_connection (metadataA metadataB : CardMetadata lib) : CardIO lib Unit :=
  let forwardKey := linkKey metadataA.id metadataB.id
  let reverseKey := linkKey metadataB.id metadataA.id
  match metadataA.connector_links.get? forwardKey with
  | none => return ()
  | some existing_links => do
    disconnect_links ("disconnected:" ++ forwardKey ++ ":prev") existing_links
    modify_connector_links metadataA.id (·.delete forwardKey)
    modify_connector_links metadataB.id (·.delete reverseKey)

/-- `card_metadata_connect`: links of the pair are cleared first. -/
def card_metadata_connect (metadataA metadataB : CardMetadata lib) (connector_keyA connector_keyB : String) :
    CardIO lib Unit := do
  let forwardKey := linkKey metadataA.id metadataB.id
  let reverseKey := linkKey metadataB.id metadataA.id
  clear_previous_connection metadataA metadataB
  let kA ← guarantee_get metadataA.tracking_internal_cells connector_keyA
  let kB ← guarantee_get metadataB.tracking_internal_cells connector_keyB
  let Athis ← guarantee_get metadataA.tracking_internal_cells slot_this
  let Bthis ← guarantee_get metadataB.tracking_internal_cells slot_this
  let link_kA_to_Bthis ← callHeap (lib.source_constant_cell ("link:" ++ forwardKey ++ ":kA→Bthis"))
  let link_Bthis_to_kA ← callHeap (lib.source_constant_cell ("link:" ++ forwardKey ++ ":Bthis→kA"))
  let link_kB_to_Athis ← callHeap (lib.source_constant_cell ("link:" ++ forwardKey ++ ":kB→Athis"))
  let link_Athis_to_kB ← callHeap (lib.source_constant_cell ("link:" ++ forwardKey ++ ":Athis→kB"))
  onHeap (lib.p_sync_to_link kA link_kA_to_Bthis)
  onHeap (lib.p_sync_to_link Bthis link_Bthis_to_kA)
  onHeap (lib.p_sync_to_link kB link_kB_to_Athis)
  onHeap (lib.p_sync_to_link Athis link_Athis_to_kB)
  onHeap (lib.update_source_cell link_kA_to_Bthis Bthis)
  onHeap (lib.update_source_cell link_Bthis_to_kA kA)
  onHeap (lib.update_source_cell link_kB_to_Athis Athis)
  onHeap (lib.update_source_cell link_Athis_to_kB kB)
  let links := [link_kA_to_Bthis, link_Bthis_to_kA, link_kB_to_Athis, link_Athis_to_kB]
  modify_connector_links metadataA.id (·.set forwardKey links)
  modify_connector_links metadataB.id (·.set reverseKey links)

/-- The tracked propagators are disposed of, then the metadata is forgotten. -/
def card_metadata_remove (metadata : CardMetadata lib) : CardIO lib Unit := do
  onHeap (fun heap => metadata.tracking_propagators.values.foldl
    (fun heap propagator => lib.dispose_propagator propagator heap) heap)
  metadata.connector_links.entries.forM (fun e => disconnect_links ("disconnected:" ++ e.1) e.2)
  modify_connector_links metadata.id (fun _ => .empty)
  remove_card_metadata metadata.id

/-- `card_metadata_detach`: the links of the pair, whatever their slots. -/
def card_metadata_detach (metadataA metadataB : CardMetadata lib) : CardIO lib Unit :=
  let forwardKey := linkKey metadataA.id metadataB.id
  let reverseKey := linkKey metadataB.id metadataA.id
  match metadataA.connector_links.get? forwardKey with
  | none => throw (.connector_not_found metadataA.id metadataB.id)
  | some links => do
    disconnect_links ("disconnected:" ++ forwardKey) links
    modify_connector_links metadataA.id (·.delete forwardKey)
    modify_connector_links metadataB.id (·.delete reverseKey)

/-! ## Card lifecycle -/

/-- New cells and metadata, even when the id is in use. -/
def add_card (id : String) : CardIO lib String := do
  let _ ← construct_card_metadata id
  return id

/-- Whether the value was written. -/
def update_card (id : String) (value : Option Json) : CardIO lib Bool := do
  let metadata ← guarantee_get_card_metadata id
  card_metadata_update metadata value

/-- The card must be there. -/
def remove_card (id : String) : CardIO lib Unit := do
  let metadata ← guarantee_get_card_metadata id
  card_metadata_remove metadata

/-- `connect_cards`: both cards must be there. -/
def connect_cards (idA idB connector_keyA connector_keyB : String) : CardIO lib Unit := do
  let metadataA ← guarantee_get_card_metadata idA
  let metadataB ← guarantee_get_card_metadata idB
  card_metadata_connect metadataA metadataB connector_keyA connector_keyB

/-- Both cards must be there. -/
def detach_cards_by_key (cardA_key cardB_key : String) : CardIO lib Unit := do
  let metadataA ← guarantee_get_card_metadata cardA_key
  let metadataB ← guarantee_get_card_metadata cardB_key
  card_metadata_detach metadataA metadataB

/-! ## Applying events -/

/-- The card function that an event calls. -/
def apply_card_api_event : CardApiEvent → CardIO lib Unit
  | .card_detach from_id to_id => detach_cards_by_key from_id to_id
  | .card_remove card_id => remove_card card_id
  | .card_add card_id => do let _ ← add_card card_id
  | .card_connect from_id from_slot to_id to_slot => connect_cards from_id to_id from_slot to_slot
  | .card_update card_id value => do let _ ← update_card card_id value

/-- The report's list of issues is never written to, so it is not returned. -/
def apply_card_api_events_io (events : List CardApiEvent) : CardIO lib Unit :=
  events.forM apply_card_api_event

end LainLang.Grpc
