import LainLang.Grpc.Cells
import LainLang.Grpc.Lifecycle
import LainLang.Grpc.Server
/-!
# What each request can do

A request is read through three things: the session it resolves, the card
events it applies, and the slot map and streams it leaves. `handle_cards` ties
the registry to the events, whatever the request.
-/
open LainLang.Lib LainLang.Js

namespace LainLang.Grpc

variable {lib : CellLibrary}

/-! ## Sessions -/

/-- The slot map the next push to the session is diffed from. -/
def sessionSlotMap (sessionId : String) (s : Server lib) : CompileRequestData :=
  match get_session sessionId s with
  | some state => slotMapAt s state
  | none => .empty

/-- The state object of the session, registered if it was not. -/
def resolvedState (sessionId : String) (s : Server lib) : ℕ := (get_session sessionId s).getD s.states.length

/-- The server once the session is registered. -/
def registered (sessionId : String) (slotMap : CompileRequestData) (s : Server lib) : Server lib :=
  match get_session sessionId s with
  | some _ => s
  | none =>
    { s with
      states := s.states ++ [{ create_state slotMap with sessionId := some sessionId }]
      sessions := s.sessions.set sessionId s.states.length }

theorem get_or_create_session_eq (sessionId : String) (slotMap : CompileRequestData) (s : Server lib) :
    get_or_create_session sessionId slotMap s =
      .ok (resolvedState sessionId s) (registered sessionId slotMap s) := by
  unfold get_or_create_session resolvedState registered get_session
  cases s.sessions.get? sessionId <;> rfl

theorem resolve_push_session_io_eq (sessionId : String) (s : Server lib) :
    ∃ existed, resolve_push_session_io sessionId s =
      .ok (resolvedState sessionId s, existed) (registered sessionId .empty s) := by
  rw [resolve_push_session_io, bind_of_ok (get_apply s)]
  cases h : get_session sessionId s with
  | some state => exact ⟨true, by simp [resolvedState, registered, h]⟩
  | none =>
    exact ⟨false, bind_of_ok (get_or_create_session_eq sessionId .empty s) fun state => pure (state, false)⟩

@[simp] theorem registered_cards (sessionId : String) (slotMap : CompileRequestData) (s : Server lib) :
    (registered sessionId slotMap s).cards = s.cards := by
  unfold registered; split <;> rfl

@[simp] theorem registered_streams (sessionId : String) (slotMap : CompileRequestData) (s : Server lib) :
    (registered sessionId slotMap s).streams = s.streams := by
  unfold registered; split <;> rfl

/-- Registering a session changes no entry but its own. -/
theorem get_session_registered (sessionId id : String) (slotMap : CompileRequestData) (s : Server lib) :
    get_session id (registered sessionId slotMap s) =
      if id = sessionId then some (resolvedState sessionId s) else get_session id s := by
  unfold registered resolvedState
  cases h : get_session sessionId s with
  | some state => by_cases hi : id = sessionId <;> simp [hi, h]
  | none => simp only [get_session, OrdMap.get?_set, Option.getD_none]

theorem slotMapAt_registered (sessionId : String) (slotMap : CompileRequestData) (s : Server lib) (state : ℕ)
    (h : state ≠ s.states.length) : slotMapAt (registered sessionId slotMap s) state = slotMapAt s state := by
  unfold registered
  split
  · rfl
  · simp only [slotMapAt]
    rcases Nat.lt_or_gt_of_ne h with hlt | hgt
    · rw [List.getElem?_append_left hlt]
    · rw [List.getElem?_eq_none (by simp; omega), List.getElem?_eq_none (by omega)]

/-- A session that was not there starts from the slot map it is given. -/
theorem slotMapAt_resolved (sessionId : String) (slotMap : CompileRequestData) (s : Server lib) :
    slotMapAt (registered sessionId slotMap s) (resolvedState sessionId s) =
      match get_session sessionId s with
      | some state => slotMapAt s state
      | none => slotMap := by
  unfold registered resolvedState
  cases h : get_session sessionId s with
  | some state => rfl
  | none => simp [slotMapAt, create_state]

/-- Registering a session with the empty slot map changes no session's slot map. -/
theorem sessionSlotMap_registered (sessionId id : String) (s : Server lib) :
    sessionSlotMap id (registered sessionId .empty s) = sessionSlotMap id s := by
  have hdangling : slotMapAt s s.states.length = .empty := by simp [slotMapAt]
  unfold sessionSlotMap
  rw [get_session_registered]
  by_cases hi : id = sessionId
  · subst hi
    rw [if_pos rfl]
    exact slotMapAt_resolved ..
  · rw [if_neg hi]
    cases get_session id s with
    | none => rfl
    | some state =>
      by_cases hs : state = s.states.length
      · subst hs
        show slotMapAt _ _ = slotMapAt _ _
        rw [hdangling]
        unfold registered
        split
        · exact hdangling
        · simp [slotMapAt, create_state]
      · exact slotMapAt_registered _ _ _ _ hs

/-! ## The push -/

/-- The slot map a push leads to. -/
def nextSlotMap (sessionId : String) (s : Server lib) (delta : CardsDeltaData) : CompileRequestData :=
  apply_cards_delta_to_slot_map delta (sessionSlotMap sessionId s)

/-- The events of a push. -/
def pushEvents (sessionId : String) (s : Server lib) (delta : CardsDeltaData) : List CardApiEvent :=
  diff_slot_maps_to_card_api_events (sessionSlotMap sessionId s) (nextSlotMap sessionId s delta)

/-- The server after a push whose events left `cards`. -/
def bound (sessionId : String) (slotMap : CompileRequestData) (cards : CardWorld lib) (s : Server lib) : Server lib :=
  { registered sessionId .empty s with
    cards
    states := (registered sessionId .empty s).states.modify (resolvedState sessionId s)
      (fun st => { st with slotMap }) }

theorem push_deltas_apply_io_eq (sessionId : String) (delta : CardsDeltaData) (s : Server lib) :
    push_deltas_apply_io sessionId delta s =
      match apply_card_api_events_io (pushEvents sessionId s delta) s.cards with
      | .ok _ cards => .ok ⟨⟩ (bound sessionId (nextSlotMap sessionId s delta) cards s)
      | .error e cards => .error e { registered sessionId .empty s with cards } := by
  obtain ⟨existed, hr⟩ := resolve_push_session_io_eq sessionId s
  have hslot : slotMapAt (registered sessionId .empty s) (resolvedState sessionId s) = sessionSlotMap sessionId s :=
    slotMapAt_resolved ..
  rw [push_deltas_apply_io, bind_of_ok hr, bind_of_ok (get_apply _), hslot]
  show (onCards (apply_card_api_events_io (pushEvents sessionId s delta)) >>= fun _ => _) _ = _
  rw [bind_apply, onCards, registered_cards]
  cases apply_card_api_events_io (pushEvents sessionId s delta) s.cards <;> rfl

/-! ## The events of a request -/

/-- The slot map an open diffs from the empty one: that of the state it
resolves. -/
def openedSlotMap (sessionId : String) (initialSlotMap : CompileRequestData) (s : Server lib) : CompileRequestData :=
  match get_session sessionId s with
  | some state => slotMapAt s state
  | none => initialSlotMap

/-- The two slot maps a request compares, if it compares any. -/
def compared (s : Server lib) : Request → Option (CompileRequestData × CompileRequestData)
  | .openSession sessionId initialData =>
    let initialSlotMap := open_session_initial_slot_map initialData
    if hasKeys initialSlotMap then some (.empty, openedSlotMap sessionId initialSlotMap s) else none
  | .pushDeltas sessionId delta => some (sessionSlotMap sessionId s, nextSlotMap sessionId s delta)
  | .closeStream _ => none

/-- The events of a request. -/
def requestEvents (s : Server lib) (r : Request) : List CardApiEvent :=
  match compared s r with
  | some (prev, next) => diff_slot_maps_to_card_api_events prev next
  | none => []

/-- Applying no events leaves the registry as it is. -/
theorem apply_card_api_events_io_nil (w : CardWorld lib) : apply_card_api_events_io [] w = .ok ⟨⟩ w := rfl

theorem open_session_setup_io_eq (sessionId : String) (initialData : CompileRequestData) (s : Server lib) :
    open_session_setup_io sessionId (open_session_initial_slot_map initialData) s =
      match apply_card_api_events_io (requestEvents s (.openSession sessionId initialData)) s.cards with
      | .ok _ cards =>
        .ok (resolvedState sessionId s) { registered sessionId (open_session_initial_slot_map initialData) s with cards }
      | .error e cards => .error e { registered sessionId (open_session_initial_slot_map initialData) s with cards } := by
  rw [open_session_setup_io, bind_of_ok (get_or_create_session_eq ..)]
  unfold requestEvents compared
  by_cases hk : hasKeys (open_session_initial_slot_map initialData) = true
  · have hslot : slotMapAt (registered sessionId (open_session_initial_slot_map initialData) s)
        (resolvedState sessionId s) = openedSlotMap sessionId (open_session_initial_slot_map initialData) s :=
      slotMapAt_resolved ..
    simp only [hk, if_true, apply_initial_slots_to_env_io, bind_apply, get_apply, onCards, registered_cards, hslot]
    cases apply_card_api_events_io (diff_slot_maps_to_card_api_events .empty
      (openedSlotMap sessionId (open_session_initial_slot_map initialData) s)) s.cards <;> rfl
  · simp only [hk, Bool.false_eq_true, if_false, apply_card_api_events_io_nil, pure_apply]
    rw [← registered_cards sessionId (open_session_initial_slot_map initialData) s]

theorem open_session_handler_eq (sessionId : String) (initialData : CompileRequestData) (s : Server lib) :
    open_session_handler sessionId initialData s =
      match apply_card_api_events_io (requestEvents s (.openSession sessionId initialData)) s.cards with
      | .ok _ cards =>
        .ok ⟨⟩ { registered sessionId (open_session_initial_slot_map initialData) s with
          cards, streams := s.streams ++ [⟨sessionId, resolvedState sessionId s⟩] }
      | .error e cards => .error e { registered sessionId (open_session_initial_slot_map initialData) s with cards } := by
  rw [open_session_handler, bind_apply, open_session_setup_io_eq]
  cases apply_card_api_events_io (requestEvents s (.openSession sessionId initialData)) s.cards with
  | error e cards => rfl
  | ok u cards =>
    rw [← registered_streams sessionId (open_session_initial_slot_map initialData) s]; rfl

theorem close_stream_eq (i : ℕ) (s : Server lib) :
    close_stream i s = .ok ⟨⟩ (match s.streams[i]? with
      | none => s
      | some stream =>
        { s with streams := s.streams.eraseIdx i, sessions := s.sessions.delete stream.sessionId }) := by
  rw [close_stream, bind_of_ok (get_apply s)]
  cases s.streams[i]? <;> rfl

/-- An empty server on the recorder. -/
def recorderServer : Server recorder := .init RecordedHeap.empty

end LainLang.Grpc
