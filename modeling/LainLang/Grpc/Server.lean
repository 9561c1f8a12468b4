import LainLang.Grpc.CardMetadata
import LainLang.Lib.Effect
import LainLang.Lib.Run
/-!
# Sessions and requests

The process-wide state of the Connect server: the card registry, the session
states by identity, the session map from ids to them, and the open streams.
Requests run one at a time; a request that throws leaves what it did so far.
-/
open LainLang.Lib LainLang.Js

namespace LainLang.Grpc

/-- `resolveWait` names the wait whose promise the callback resolves. -/
structure SessionState where
  slotMap : CompileRequestData
  queue : List ServerMessage
  resolveWait : Option ℕ
  sessionId : Option String

/-- A session with nothing queued and nobody waiting. -/
def create_state (initialSlotMap : CompileRequestData) : SessionState := ⟨initialSlotMap, [], none, none⟩

/-- An `openSession` generator between its setup and its `finally` block. -/
structure OpenStream where
  sessionId : String
  state : ℕ
  deriving DecidableEq

/-- Session states are objects: `states` holds them, and `sessions` and the
streams refer to them by position. -/
structure Server (lib : CellLibrary) where
  cards : CardWorld lib
  states : List SessionState
  sessions : OrdMap String ℕ
  streams : List OpenStream

variable {lib : CellLibrary}

/-- Code of the server that may throw; what it did before stays done. -/
abbrev ServerIO (lib : CellLibrary) := EStateM CardError (Server lib)

/-- Card code, run in the server. -/
def onCards {α : Type} (x : CardIO lib α) : ServerIO lib α := fun s =>
  match x s.cards with
  | .ok a cards => .ok a { s with cards }
  | .error e cards => .error e { s with cards }

/-! ## The session store -/

/-- The index of the state object of a session. -/
def get_session (sessionId : String) (s : Server lib) : Option ℕ := s.sessions.get? sessionId

/-- Idempotent for same id (returns existing). -/
def get_or_create_session (sessionId : String) (initialSlotMap : CompileRequestData) : ServerIO lib ℕ := fun s =>
  match s.sessions.get? sessionId with
  | some existing => .ok existing s
  | none =>
    .ok s.states.length { s with
      states := s.states ++ [{ create_state initialSlotMap with sessionId := some sessionId }]
      sessions := s.sessions.set sessionId s.states.length }

/-- The session is forgotten; its state object is not touched. -/
def remove_session (sessionId : String) : ServerIO lib Unit :=
  modify (fun s => { s with sessions := s.sessions.delete sessionId })

/-- The slot map of a state object. -/
def slotMapAt (s : Server lib) (state : ℕ) : CompileRequestData :=
  (s.states[state]?.map SessionState.slotMap).getD .empty

/-- The slot map of a state object is replaced. -/
def setSlotMap (state : ℕ) (slotMap : CompileRequestData) : ServerIO lib Unit :=
  modify (fun s => { s with states := s.states.modify state (fun st => { st with slotMap }) })

/-! ## `pushDeltas` -/

/-- The slot map after a push, and the events to get there. -/
structure PushTransition where
  nextSlotMap : CompileRequestData
  events : List CardApiEvent

/-- Returns the state and whether it existed. -/
def resolve_push_session_io (sessionId : String) : ServerIO lib (ℕ × Bool) := do
  match get_session sessionId (← get) with
  | some existingState => return (existingState, true)
  | none =>
    let state ← get_or_create_session sessionId .empty
    return (state, false)

/-- The delta applied, and the diff with what was there. -/
def derive_push_transition (prevSlotMap : CompileRequestData) (decoded : CardsDeltaData) : PushTransition :=
  let nextSlotMap := apply_cards_delta_to_slot_map decoded prevSlotMap
  ⟨nextSlotMap, diff_slot_maps_to_card_api_events prevSlotMap nextSlotMap⟩

/-- The events first; a throw keeps the slot map. -/
def apply_push_events_and_bind_io (state : ℕ) (transition : PushTransition) : ServerIO lib Unit := do
  onCards (apply_card_api_events_io transition.events)
  setSlotMap state transition.nextSlotMap

/-- A push to the session, which is created when it is not there. -/
def push_deltas_apply_io (sessionId : String) (delta : CardsDeltaData) : ServerIO lib Unit := do
  let resolved ← resolve_push_session_io sessionId
  let transition := derive_push_transition (slotMapAt (← get) resolved.1) delta
  apply_push_events_and_bind_io resolved.1 transition

/-! ## `openSession` -/

/-- The slots are diffed from the empty slot map, whatever the state's history. -/
def apply_initial_slots_to_env_io (slotMap : CompileRequestData) : ServerIO lib Unit :=
  onCards (apply_card_api_events_io (diff_slot_maps_to_card_api_events .empty slotMap))

/-- What `openSession` does before its first message. -/
def open_session_setup_io (sessionId : String) (initialSlotMap : CompileRequestData) : ServerIO lib ℕ := do
  let state ← get_or_create_session sessionId initialSlotMap
  if hasKeys initialSlotMap then
    apply_initial_slots_to_env_io (slotMapAt (← get) state)
  return state

/-- The generator up to its first `yield`: the stream is open once the setup
returned. -/
def open_session_handler (sessionId : String) (initialData : CompileRequestData) : ServerIO lib Unit := do
  let state ← open_session_setup_io sessionId (open_session_initial_slot_map initialData)
  modify (fun s => { s with streams := s.streams ++ [⟨sessionId, state⟩] })

/-- The `finally` block of the stream at position `i`. -/
def close_stream (i : ℕ) : ServerIO lib Unit := do
  match (← get).streams[i]? with
  | none => return ()
  | some stream =>
    modify (fun s => { s with streams := s.streams.eraseIdx i })
    remove_session stream.sessionId

/-! ## Runs -/

/-- A call of the service. -/
inductive Request where
  | openSession (sessionId : String) (initialData : CompileRequestData)
  | pushDeltas (sessionId : String) (delta : CardsDeltaData)
  | closeStream (i : ℕ)

/-- Its handler. -/
def handle : Request → ServerIO lib Unit
  | .openSession sessionId initialData => open_session_handler sessionId initialData
  | .pushDeltas sessionId delta => push_deltas_apply_io sessionId delta
  | .closeStream i => close_stream i

/-- One request, whether it returns or throws. -/
def serve (s : Server lib) (r : Request) : Server lib := stateAfter (handle r s)

/-- A server with no cards, sessions or streams, on any heap. -/
def Server.init (heap : lib.Heap) : Server lib := ⟨⟨heap, .empty⟩, [], .empty, []⟩

end LainLang.Grpc
