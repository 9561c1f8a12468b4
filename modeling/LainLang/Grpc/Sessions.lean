import LainLang.Grpc.Requests
/-!
# Failed pushes, added cards and routed sessions

A push that throws is not undone. A card is made afresh whenever a step
introduces its id, so steps must introduce ids the registry does not have. A
stream that closes takes the session of every other stream of its id with it.
-/
open LainLang.Lib LainLang.Js

namespace LainLang.Grpc

variable {lib : CellLibrary}

/-! ## A push that throws -/

/-- A push that throws leaves the session's slot map and the registered cards,
with their connector links, as they were. -/
def PushAtomic (lib : CellLibrary) : Prop :=
  ∀ (sessionId : String) (delta : CardsDeltaData) (s s' : Server lib) (e : CardError),
    push_deltas_apply_io sessionId delta s = .error e s' →
      sessionSlotMap sessionId s' = sessionSlotMap sessionId s ∧
        s'.cards.card_metadata_storage = s.cards.card_metadata_storage

/-- What a push that threw did: the events before the one that threw, and
nothing else. -/
structure StoppedAt (sessionId : String) (delta : CardsDeltaData) (s s' : Server lib) (e : CardError)
    (pre : List CardApiEvent) (ev : CardApiEvent) (post : List CardApiEvent) : Prop where
  events : pushEvents sessionId s delta = pre ++ ev :: post
  applied : apply_card_api_events_io pre s.cards = .ok ⟨⟩ s'.cards
  threw : apply_card_api_event ev s'.cards = .error e s'.cards
  slotMaps : ∀ id, sessionSlotMap id s' = sessionSlotMap id s
  streams : s'.streams = s.streams

theorem sessionSlotMap_cards (id : String) (cards : CardWorld lib) (s : Server lib) :
    sessionSlotMap id { s with cards } = sessionSlotMap id s := rfl

/-- A push that throws keeps every session's slot map, and keeps exactly the
effects of the events before the one that threw. -/
theorem failed_push_stopped {sessionId : String} {delta : CardsDeltaData} {s s' : Server lib} {e : CardError}
    (h : push_deltas_apply_io sessionId delta s = .error e s') :
    ∃ pre ev post, StoppedAt sessionId delta s s' e pre ev post := by
  rw [push_deltas_apply_io_eq] at h
  cases hr : apply_card_api_events_io (pushEvents sessionId s delta) s.cards with
  | ok u cards => rw [hr] at h; cases h
  | error e' cards =>
    rw [hr] at h
    cases h
    obtain ⟨pre, ev, post, w, hev, hpre, hthrow⟩ := forM_eq_error _ hr
    have hdir : ev.directional := diff_directional (show ev ∈ pushEvents sessionId s delta by simp [hev])
    have hw : cards = w := apply_card_api_event_error hdir hthrow
    subst hw
    exact ⟨pre, ev, post, hev, hpre, hthrow,
      fun id => (sessionSlotMap_cards ..).trans (sessionSlotMap_registered ..), registered_streams ..⟩

/-- A slot that names a card without a key: the connect throws after the add. -/
def halfDelta : CardsDeltaData := ⟨OrdMap.empty.set "a::right" ⟨"b", none⟩, []⟩

theorem halfDelta_throws : push_deltas_apply_io "s" halfDelta recorderServer =
    .error (.card_metadata_not_found "b") (serve recorderServer (.pushDeltas "s" halfDelta)) :=
  eq_error_of_thrown (by decide +kernel)

theorem halfDelta_stopped : ∃ pre ev post, StoppedAt "s" halfDelta recorderServer
    (serve recorderServer (.pushDeltas "s" halfDelta)) (.card_metadata_not_found "b") pre ev post :=
  failed_push_stopped halfDelta_throws

theorem push_not_atomic : ¬ PushAtomic recorder := by
  intro h
  have hs := (h "s" halfDelta recorderServer _ _ halfDelta_throws).2
  have hhas : (serve recorderServer (.pushDeltas "s" halfDelta)).cards.card_metadata_storage.has "a"
      = true := by decide +kernel
  rw [hs] at hhas
  cases hhas

/-! ## Adding a card that is there -/

/-- The step applies an add event for a card that is registered at that moment. -/
def ReAdds (s : Server lib) (r : Request) : Prop :=
  ∃ pre id post w, requestEvents s r = pre ++ .card_add id :: post ∧
    apply_card_api_events_io pre s.cards = .ok ⟨⟩ w ∧ w.card_metadata_storage.has id = true

/-- The card ids a step brings in: those of the slot map it leads to that the
slot map it starts from does not have. An open starts from the empty one. -/
def introduced (s : Server lib) (r : Request) : List String :=
  match compared s r with
  | some (prev, next) => (collect_card_ids next).filter (fun id => id ∉ collect_card_ids prev)
  | none => []

/-- No card the step introduces is registered, by this session or another. -/
def IntroducesUnregistered (s : Server lib) (r : Request) : Prop :=
  ∀ id ∈ introduced s r, s.cards.card_metadata_storage.has id = false

instance (s : Server lib) (r : Request) : Decidable (IntroducesUnregistered s r) :=
  inferInstanceAs (Decidable (∀ id ∈ introduced s r, _))

theorem add_mem_diff {prev next : CompileRequestData} {id : String}
    (h : .card_add id ∈ diff_slot_maps_to_card_api_events prev next) :
    .card_add id ∈ addEvents (collect_card_ids prev) (collect_card_ids next) := by
  simp only [diff_slot_maps_to_card_api_events, List.mem_append] at h
  rcases h with (((h | h) | h) | h) | h
  · obtain ⟨k, e, -, -, he⟩ := mem_detachEvents.1 h; cases he
  · obtain ⟨id, -, -, he⟩ := mem_removeEvents.1 h; cases he
  · exact h
  · obtain ⟨k, e, -, -, he⟩ := mem_connectEvents.1 h; cases he
  · obtain ⟨key, ref, -, -, he⟩ := mem_sync_code_slots h; cases he

/-- The add events of a diff are pairwise different, wherever they stand. -/
theorem add_once {prev next : CompileRequestData} {id : String} {pre post : List CardApiEvent}
    (h : diff_slot_maps_to_card_api_events prev next = pre ++ .card_add id :: post) : .card_add id ∉ pre := by
  let isAdd : CardApiEvent → Bool := fun ev => match ev with | .card_add _ => true | _ => false
  have hadds : (diff_slot_maps_to_card_api_events prev next).filter isAdd =
      addEvents (collect_card_ids prev) (collect_card_ids next) := by
    have hnone : ∀ evs : List CardApiEvent, (∀ ev ∈ evs, isAdd ev = false) → evs.filter isAdd = [] :=
      fun evs hev => List.filter_eq_nil_iff.2 fun ev hm => by simp [hev ev hm]
    have hall : (addEvents (collect_card_ids prev) (collect_card_ids next)).filter isAdd =
        addEvents (collect_card_ids prev) (collect_card_ids next) :=
      List.filter_eq_self.2 fun ev hm => by obtain ⟨id, -, -, rfl⟩ := mem_addEvents.1 hm; rfl
    simp only [diff_slot_maps_to_card_api_events, List.filter_append, hall]
    rw [hnone (detachEvents ..) fun ev hm => by obtain ⟨k, e, -, -, rfl⟩ := mem_detachEvents.1 hm; rfl,
      hnone (removeEvents ..) fun ev hm => by obtain ⟨id, -, -, rfl⟩ := mem_removeEvents.1 hm; rfl,
      hnone (connectEvents ..) fun ev hm => by obtain ⟨k, e, -, -, rfl⟩ := mem_connectEvents.1 hm; rfl,
      hnone (sync_code_slots ..) fun ev hm => by obtain ⟨key, ref, -, -, rfl⟩ := mem_sync_code_slots hm; rfl]
    simp
  have hnodup : (addEvents (collect_card_ids prev) (collect_card_ids next)).Nodup :=
    addEvents_nodup (collect_card_ids_nodup next)
  rw [← hadds, h, List.filter_append, List.filter_cons_of_pos rfl] at hnodup
  intro hpre
  exact List.disjoint_of_nodup_append hnodup (List.mem_filter.2 ⟨hpre, rfl⟩) List.mem_cons_self

/-- A step that introduces only unregistered cards applies no add event to a
registered one: the events before an add do not register its card. -/
theorem not_readds_of_unregistered {s : Server lib} {r : Request} (h : IntroducesUnregistered s r) : ¬ ReAdds s r := by
  rintro ⟨pre, id, post, w, hev, hpre, hw⟩
  unfold requestEvents at hev
  cases hc : compared s r with
  | none => rw [hc] at hev; simp at hev
  | some maps =>
    obtain ⟨prev, next⟩ := maps
    rw [hc] at hev
    replace hev : diff_slot_maps_to_card_api_events prev next = pre ++ .card_add id :: post := hev
    have hmem : .card_add id ∈ diff_slot_maps_to_card_api_events prev next := by rw [hev]; simp
    obtain ⟨_, hnext, hprev, he⟩ := mem_addEvents.1 (add_mem_diff hmem)
    cases he
    have hintro : id ∈ introduced s r := by
      simp only [introduced, hc, List.mem_filter, decide_eq_true_eq]
      exact ⟨hnext, hprev⟩
    have hfree : Unregistered id s.cards := (OrdMap.has_eq_false ..).1 (h id hintro)
    have hkeep : Preserves (Unregistered id) (apply_card_api_events_io pre : CardIO lib Unit) :=
      .forM _ fun ev hm => apply_card_api_event_unregistered fun heq => add_once hev (heq ▸ hm)
    have hfree' := (OrdMap.has_eq_false ..).2 (hkeep.ok hpre hfree)
    rw [hfree'] at hw
    cases hw

/-- In every run whose steps introduce only unregistered cards, no step adds a
registered card. -/
theorem run_adds_once (heap : lib.Heap) (rs : List Request)
    (h : Stepwise serve (Server.init heap) rs IntroducesUnregistered) :
    Stepwise serve (Server.init heap) rs (fun s r => ¬ ReAdds s r) :=
  h.mono fun _ _ => not_readds_of_unregistered

/-- A session opens with one card. -/
def openOnce : Request := .openSession "s" (OrdMap.empty.set "acode" ⟨"a", none⟩)

/-- A second card moves in next to the first. -/
def pushNeighbour : Request :=
  .pushDeltas "s" ⟨(OrdMap.empty.set "a::right" ⟨"b", none⟩).set "bcode" ⟨"b", none⟩, []⟩

theorem neighbour_introduces : Stepwise serve recorderServer [openOnce, pushNeighbour] IntroducesUnregistered := by
  have hopen : IntroducesUnregistered recorderServer openOnce := by decide +kernel
  have hpush : IntroducesUnregistered (serve recorderServer openOnce) pushNeighbour := by decide +kernel
  exact stepwise_cons.2 ⟨hopen, stepwise_cons.2 ⟨hpush, stepwise_nil _⟩⟩

theorem neighbour_adds_once : Stepwise serve recorderServer [openOnce, pushNeighbour] (fun s r => ¬ ReAdds s r) :=
  @run_adds_once recorder RecordedHeap.empty [openOnce, pushNeighbour] neighbour_introduces

/-- The id a card is added under. -/
def CardApiEvent.added : CardApiEvent → Option String
  | .card_add id => some id
  | _ => none

theorem eq_cons_add {evs : List CardApiEvent} {id : String} (h : evs.head?.bind CardApiEvent.added = some id) :
    ∃ post, evs = .card_add id :: post := by
  cases evs with
  | nil => cases h
  | cons ev post =>
    cases ev <;> cases h
    exact ⟨post, rfl⟩

/-- Opening a session twice with the same initial data adds its card twice. -/
theorem reopen_readds : ¬ Stepwise serve recorderServer [openOnce, openOnce]
    (fun s r => ¬ ReAdds s r) := by
  intro h
  have hfirst : (requestEvents (serve recorderServer openOnce) openOnce).head?.bind CardApiEvent.added = some "a" := by
    decide +kernel
  obtain ⟨post, hpost⟩ := eq_cons_add hfirst
  have hhas : (serve recorderServer openOnce).cards.card_metadata_storage.has "a" = true := by
    decide +kernel
  have hsecond := h [openOnce] openOnce List.prefix_rfl
  rw [run_cons, run_nil] at hsecond
  exact hsecond ⟨[], "a", post, _, hpost, apply_card_api_events_io_nil _, hhas⟩

/-! ## Routing -/

/-- The session of every open stream is the state the stream drains. -/
def Routed (s : Server lib) : Prop := ∀ stream ∈ s.streams, get_session stream.sessionId s = some stream.state

/-- A closing stream is the only open stream of its session id. -/
def ClosesAlone (s : Server lib) : Request → Prop
  | .closeStream i => ∀ j stream other, s.streams[i]? = some stream → s.streams[j]? = some other → j ≠ i →
      other.sessionId ≠ stream.sessionId
  | _ => True

/-- Registering a session re-routes no open stream. -/
theorem Routed.registered {s : Server lib} (h : Routed s) (sessionId : String) (slotMap : CompileRequestData) :
    Routed (registered sessionId slotMap s) := by
  intro stream hm
  rw [registered_streams] at hm
  have hs := h stream hm
  rw [get_session_registered]
  split
  · rename_i hid
    rw [hid] at hs
    rw [resolvedState, hs]; rfl
  · exact hs

/-- A push finds the state that an open stream of its session drains. -/
theorem Routed.push_resolves {s : Server lib} (h : Routed s) {stream : OpenStream} (hm : stream ∈ s.streams) :
    resolve_push_session_io stream.sessionId s = .ok (stream.state, true) s := by
  rw [resolve_push_session_io, bind_of_ok (get_apply s), h stream hm]; rfl

theorem Routed.openSession {s : Server lib} (h : Routed s) (sessionId : String) (initialData : CompileRequestData) :
    Routed (serve s (.openSession sessionId initialData)) := by
  have hr := h.registered sessionId (open_session_initial_slot_map initialData)
  rw [serve, handle, open_session_handler_eq]
  cases apply_card_api_events_io (requestEvents s (.openSession sessionId initialData)) s.cards with
  | error e cards => exact hr
  | ok u cards =>
    intro stream hm
    rcases List.mem_append.1 hm with hm | hm
    · exact hr stream (by rwa [registered_streams])
    · rw [List.mem_singleton] at hm
      subst hm
      exact (get_session_registered ..).trans (if_pos rfl)

theorem Routed.pushDeltas {s : Server lib} (h : Routed s) (sessionId : String) (delta : CardsDeltaData) :
    Routed (serve s (.pushDeltas sessionId delta)) := by
  have hr := h.registered sessionId .empty
  rw [serve, handle, push_deltas_apply_io_eq]
  cases apply_card_api_events_io (pushEvents sessionId s delta) s.cards <;> exact hr

theorem Routed.closeStream_iff {s : Server lib} (h : Routed s) (i : ℕ) :
    Routed (serve s (.closeStream i)) ↔ ClosesAlone s (.closeStream i) := by
  rw [serve, handle, close_stream_eq]
  cases hi : s.streams[i]? with
  | none =>
    refine iff_of_true h fun j stream other hs => ?_
    rw [hi] at hs
    cases hs
  | some stream =>
    simp only [stateAfter_ok, Routed, get_session, OrdMap.get?_delete, List.mem_eraseIdx_iff_getElem?]
    constructor
    · intro hr j stream' other hs hj hne hid
      rw [hi, Option.some.injEq] at hs
      subst hs
      have := hr other ⟨j, hne, hj⟩
      rw [if_pos hid] at this
      cases this
    · rintro ha other ⟨j, hne, hj⟩
      rw [if_neg (ha j stream other hi hj hne)]
      exact h other (List.mem_of_getElem? hj)

/-- Every open stream stays routed along a run exactly when no step closes a
stream while another stream of its session id is open. While the streams are routed, a
push finds the state that its session's streams drain and makes no other. -/
theorem routed_iff_closes_alone (heap : lib.Heap) (rs : List Request) :
    (Throughout serve (Server.init heap) rs Routed ↔ Stepwise serve (Server.init heap) rs ClosesAlone) ∧
      ∀ s : Server lib, Routed s → ∀ stream ∈ s.streams,
        resolve_push_session_io stream.sessionId s = .ok (stream.state, true) s := by
  refine ⟨?_, fun s hs stream hm => hs.push_resolves hm⟩
  refine throughout_iff_stepwise (fun _ hm => by cases hm) fun s r hs => ?_
  cases r with
  | openSession sessionId initialData => exact iff_of_true (hs.openSession _ _) trivial
  | pushDeltas sessionId delta => exact iff_of_true (hs.pushDeltas _ _) trivial
  | closeStream i => exact hs.closeStream_iff i

/-- The old stream of a reconnect unregisters the session of the new one. -/
theorem reconnect_not_routed : ¬ Throughout serve recorderServer
    [.openSession "s" .empty, .openSession "s" .empty, .closeStream 0] Routed := by
  intro h
  have := h.last ⟨"s", 0⟩ (by decide)
  revert this
  decide +kernel

end LainLang.Grpc
