import LainLang.Js.Json
import LainLang.Js.Object
/-!
# Slot maps, slot keys and server messages

A session's slot map sends a slot key, the card id followed by the slot, to the
reference the client put there.
-/
open LainLang.Lib LainLang.Js

namespace LainLang.Grpc

/-- `value` is `none` when the client sent no bytes (`undefined`). -/
structure CardRefData where
  id : String
  value : Option Json

/-- The slot map of a session. -/
abbrev CompileRequestData := OrdMap String CardRefData

/-- A key, split. -/
structure CardAndSlot where
  card_id : String
  slot : String
  deriving DecidableEq

/-- Parse slot key into card_id and slot. e.g. "card-1code" -> card-1, code. -/
def key_to_card_and_slot (key : String) : CardAndSlot :=
  if endsWith key "code" then ⟨dropLast key 4, "code"⟩
  else match indexOf key "::" with
    | some i => ⟨sliceTo key i, sliceFrom key i⟩
    | none => ⟨key, ""⟩

/-- What the server sends. -/
inductive ServerMessage where
  | heartbeat
  | cardUpdate (card_id slot : String) (ref : Option CardRefData)

/-- The message without content. -/
def to_heartbeat_message : ServerMessage := .heartbeat

/-- A missing ref removes the slot on the client. -/
def to_card_update_message (key : String) (ref : Option CardRefData) : ServerMessage :=
  let parsed := key_to_card_and_slot key
  .cardUpdate parsed.card_id parsed.slot ref

/-! ## Applying a delta -/

/-- Slots to set and keys to remove. -/
structure CardsDeltaData where
  slots : CompileRequestData
  remove : List String

/-- Removed keys go first, then every slot is set. -/
def apply_cards_delta_to_slot_map (delta : CardsDeltaData) (map : CompileRequestData) : CompileRequestData :=
  assignAll (map.deleteAll delta.remove) (objectEntries delta.slots)

/-- Slot map from initialData (empty if none). -/
def open_session_initial_slot_map (initialData : CompileRequestData) : CompileRequestData :=
  if (objectKeys initialData).length = 0 then .empty
  else apply_cards_delta_to_slot_map ⟨initialData, []⟩ .empty

end LainLang.Grpc
