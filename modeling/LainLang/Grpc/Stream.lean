import LainLang.Grpc.Server
/-!
# The message stream of a session

One session state and the `openSession` generator that drains it, step by step:
pushes, timer expiries, the abort signal and the consumer's resumptions come in
any order. Every message pushed is taken out exactly once, in order, and the
consumer never sleeps on a queue that has messages.
-/
open LainLang.Lib LainLang.Js

namespace LainLang.Grpc

/-- A wait promise: settled when it was made, or settled later by the timer or a push. -/
inductive Wait where
  | settled (hasMessage : Bool)
  | pending (wait : ℕ)
  deriving DecidableEq

/-- Where the generator was left. -/
inductive YieldPoint where
  | greeting
  | draining
  | heartbeat
  deriving DecidableEq

/-- Where the generator is suspended. -/
inductive Consumer where
  | notStarted
  | yielding (point : YieldPoint)
  | awaiting (wait : Wait)
  | finished
  deriving DecidableEq

/-- A message of the stream, with where it comes from. -/
inductive Yielded where
  | fromQueue (msg : ServerMessage)
  | heartbeat (msg : ServerMessage)

/-- `waits` holds what each wait's promise was resolved with, `timers` the waits
whose timer is armed. -/
structure Stream where
  session : SessionState
  timers : List ℕ
  waits : List (Option Bool)
  aborted : Bool
  consumer : Consumer
  yielded : List Yielded

/-- A stream that was not asked for anything. -/
def Stream.init (slotMap : CompileRequestData) : Stream :=
  ⟨create_state slotMap, [], [], false, .notStarted, []⟩

/-! ## The session store -/

/-- A promise resolves once. -/
def resolve (wait : ℕ) (value : Bool) (waits : List (Option Bool)) : List (Option Bool) :=
  waits.modify wait (fun resolved => resolved.or (some value))

/-- Push messages to session queue and wake any waiter. -/
def session_push (messages : List ServerMessage) (s : Stream) : Stream :=
  let queue := s.session.queue ++ messages
  match s.session.resolveWait with
  | none => { s with session := { s.session with queue } }
  | some wait =>
    { s with
      session := { s.session with queue, resolveWait := none }
      timers := s.timers.filter (· ≠ wait)
      waits := resolve wait true s.waits }

/-- The callback of a wait's timer. -/
def timer_expires (wait : ℕ) (s : Stream) : Stream :=
  if wait ∈ s.timers then
    { s with
      session := { s.session with resolveWait := none }
      timers := s.timers.filter (· ≠ wait)
      waits := resolve wait false s.waits }
  else s

/-- `wait_for_message_or_timeout`: settled at once when something is queued. -/
def wait_for_message_or_timeout (s : Stream) : Stream :=
  if s.session.queue.length > 0 then { s with consumer := .awaiting (.settled true) }
  else
    let wait := s.waits.length
    { s with
      session := { s.session with resolveWait := some wait }
      timers := s.timers ++ [wait]
      waits := s.waits ++ [none]
      consumer := .awaiting (.pending wait) }

/-! ## The generator -/

/-- The head of `open_session_yield_loop`. -/
def open_session_yield_loop (s : Stream) : Stream :=
  if s.aborted then { s with consumer := .finished } else wait_for_message_or_timeout s

/-- `drain_queue_until_empty_or_aborted`, to its next yield. -/
def drain_queue_until_empty_or_aborted (s : Stream) : Stream :=
  match s.aborted, s.session.queue with
  | false, msg :: queue =>
    { s with
      session := { s.session with queue }
      yielded := s.yielded ++ [.fromQueue msg]
      consumer := .yielding .draining }
  | _, _ => open_session_yield_loop s

/-- The loop body after its `await`. -/
def after_wait (hasMessage : Bool) (s : Stream) : Stream :=
  if s.aborted then { s with consumer := .finished }
  else if hasMessage && decide (s.session.queue.length > 0) then drain_queue_until_empty_or_aborted s
  else { s with yielded := s.yielded ++ [.heartbeat to_heartbeat_message], consumer := .yielding .heartbeat }

/-- The client asks for the next message. -/
def next (s : Stream) : Stream :=
  match s.consumer with
  | .notStarted =>
    { s with yielded := s.yielded ++ [.heartbeat to_heartbeat_message], consumer := .yielding .greeting }
  | .yielding .draining => drain_queue_until_empty_or_aborted s
  | .yielding _ => open_session_yield_loop s
  | _ => s

/-- The promise the generator awaits is resolved, and the generator goes on. -/
def resume (s : Stream) : Stream :=
  match s.consumer with
  | .awaiting (.settled hasMessage) => after_wait hasMessage s
  | .awaiting (.pending wait) =>
    match s.waits[wait]? with
    | some (some hasMessage) => after_wait hasMessage s
    | _ => s
  | _ => s

/-- The client ends the generator at a `yield`. -/
def finish (s : Stream) : Stream :=
  match s.consumer with
  | .awaiting _ => s
  | _ => { s with consumer := .finished }

/-! ## Runs -/

/-- What the session, its timers and the consumer do. -/
inductive StreamEvent where
  | push (messages : List ServerMessage)
  | expire (wait : ℕ)
  | abort
  | next
  | resume
  | finish

/-- One event. -/
def streamStep (s : Stream) : StreamEvent → Stream
  | .push messages => session_push messages s
  | .expire wait => timer_expires wait s
  | .abort => { s with aborted := true }
  | .next => next s
  | .resume => resume s
  | .finish => finish s

/-- The messages of the pushes of a run, in order. -/
def pushed (events : List StreamEvent) : List ServerMessage :=
  events.flatMap (fun event => match event with | .push messages => messages | _ => [])

/-- The messages taken out of the queue and yielded so far, in order. -/
def Stream.taken (s : Stream) : List ServerMessage :=
  s.yielded.filterMap (fun y => match y with | .fromQueue msg => some msg | .heartbeat _ => none)

/-- The consumer is suspended on a wait promise that is not resolved. -/
def Stream.asleep (s : Stream) : Prop :=
  ∃ wait, s.consumer = .awaiting (.pending wait) ∧ s.waits[wait]? = some none

/-! ## No message is lost or doubled -/

/-- What was taken, and what is still queued. -/
def Stream.delivered (s : Stream) : List ServerMessage := s.taken ++ s.session.queue

theorem delivered_wait (s : Stream) : (wait_for_message_or_timeout s).delivered = s.delivered := by
  unfold wait_for_message_or_timeout
  split <;> rfl

theorem delivered_loop (s : Stream) : (open_session_yield_loop s).delivered = s.delivered := by
  unfold open_session_yield_loop
  split
  · rfl
  · exact delivered_wait s

theorem delivered_drain (s : Stream) : (drain_queue_until_empty_or_aborted s).delivered = s.delivered := by
  unfold drain_queue_until_empty_or_aborted
  split
  · rename_i msg queue _ hq
    simp [Stream.delivered, Stream.taken, hq]
  · exact delivered_loop s

theorem delivered_after_wait (hasMessage : Bool) (s : Stream) : (after_wait hasMessage s).delivered = s.delivered := by
  unfold after_wait
  split
  · rfl
  · split
    · exact delivered_drain s
    · simp [Stream.delivered, Stream.taken]

theorem delivered_step (s : Stream) (event : StreamEvent) :
    (streamStep s event).delivered = s.delivered ++ pushed [event] := by
  cases event with
  | push messages =>
    simp only [streamStep, session_push]
    split <;> simp [Stream.delivered, Stream.taken, pushed]
  | expire wait =>
    simp only [streamStep, timer_expires, pushed, List.flatMap_cons, List.flatMap_nil, List.append_nil]
    split <;> rfl
  | abort => simp [streamStep, pushed, Stream.delivered, Stream.taken]
  | next =>
    simp only [streamStep, next, pushed, List.flatMap_cons, List.flatMap_nil, List.append_nil]
    split
    · simp [Stream.delivered, Stream.taken]
    · exact delivered_drain s
    · exact delivered_loop s
    · rfl
  | resume =>
    simp only [streamStep, resume, pushed, List.flatMap_cons, List.flatMap_nil, List.append_nil]
    split
    · exact delivered_after_wait _ s
    · split
      · exact delivered_after_wait _ s
      · rfl
    · rfl
  | finish =>
    simp only [streamStep, finish, pushed, List.flatMap_cons, List.flatMap_nil, List.append_nil]
    split <;> rfl

theorem delivered_run (slotMap : CompileRequestData) (events : List StreamEvent) :
    (run streamStep (Stream.init slotMap) events).delivered = pushed events := by
  induction events using List.reverseRecOn with
  | nil => rfl
  | append_singleton events event ih =>
    rw [run_append, run_cons, run_nil, delivered_step, ih, pushed, pushed, pushed, List.flatMap_append]

/-! ## No wake-up is lost -/

/-- A timer is armed only for the promise the consumer sleeps on, and a sleeping
consumer has an empty queue and the callback that wakes it. -/
structure Waiting (s : Stream) : Prop where
  timers : ∀ wait ∈ s.timers, s.consumer = .awaiting (.pending wait) ∧ s.waits[wait]? = some none
  asleep : ∀ wait, s.consumer = .awaiting (.pending wait) → s.waits[wait]? = some none →
    s.session.queue = [] ∧ s.session.resolveWait = some wait
  made : ∀ wait, s.consumer = .awaiting (.pending wait) → wait < s.waits.length

/-- A consumer that does not sleep has no timer. -/
theorem Waiting.no_timers {s : Stream} (h : Waiting s) (hn : ¬ s.asleep) : s.timers = [] :=
  List.eq_nil_iff_forall_not_mem.2 fun wait hm => hn ⟨wait, h.timers wait hm⟩

theorem waiting_of_awake {s : Stream} (ht : s.timers = []) (hc : ∀ wait, s.consumer ≠ .awaiting (.pending wait)) :
    Waiting s := by
  refine ⟨fun wait hm => ?_, fun wait h _ => absurd h (hc wait), fun wait h => absurd h (hc wait)⟩
  rw [ht] at hm
  cases hm

theorem waiting_wait {s : Stream} (ht : s.timers = []) : Waiting (wait_for_message_or_timeout s) := by
  unfold wait_for_message_or_timeout
  split
  · exact waiting_of_awake ht (by simp)
  · rename_i hq
    have hempty : s.session.queue = [] := by
      rw [← List.length_eq_zero_iff]; omega
    constructor
    · intro wait hm
      have hwait : wait = s.waits.length := by simpa [ht] using hm
      subst hwait
      simp
    · intro wait hc _
      have hwait : s.waits.length = wait := by simpa using hc
      exact ⟨hempty, congrArg some hwait⟩
    · intro wait hc
      have hwait : s.waits.length = wait := by simpa using hc
      simp [hwait]

theorem waiting_loop {s : Stream} (ht : s.timers = []) : Waiting (open_session_yield_loop s) := by
  unfold open_session_yield_loop
  split
  · exact waiting_of_awake ht (by simp)
  · exact waiting_wait ht

theorem waiting_drain {s : Stream} (ht : s.timers = []) : Waiting (drain_queue_until_empty_or_aborted s) := by
  unfold drain_queue_until_empty_or_aborted
  split
  · exact waiting_of_awake ht (by simp)
  · exact waiting_loop ht

theorem waiting_after_wait (hasMessage : Bool) {s : Stream} (ht : s.timers = []) :
    Waiting (after_wait hasMessage s) := by
  unfold after_wait
  split
  · exact waiting_of_awake ht (by simp)
  · split
    · exact waiting_drain ht
    · exact waiting_of_awake ht (by simp)

/-- A resolved promise is not the promise of a sleeping consumer. -/
theorem resolve_unresolved {wait other : ℕ} {value : Bool} {waits : List (Option Bool)}
    (h : (resolve wait value waits)[other]? = some none) : other ≠ wait ∧ waits[other]? = some none := by
  rw [resolve, List.getElem?_modify] at h
  by_cases he : wait = other
  · subst he
    cases hw : waits[wait]? <;> simp [hw] at h
  · simp only [he, if_false, id_map'] at h
    exact ⟨Ne.symm he, h⟩

theorem length_resolve (wait : ℕ) (value : Bool) (waits : List (Option Bool)) :
    (resolve wait value waits).length = waits.length := List.length_modify ..

theorem resolve_other {wait other : ℕ} (value : Bool) (waits : List (Option Bool)) (h : other ≠ wait) :
    (resolve wait value waits)[other]? = waits[other]? := by
  simp [resolve, Ne.symm h]

/-- The timers that are left when a wait is resolved are timers of others. -/
theorem Waiting.timers_left {s : Stream} (h : Waiting s) (value : Bool) {wait other : ℕ}
    (hm : other ∈ s.timers.filter (· ≠ wait)) :
    s.consumer = .awaiting (.pending other) ∧ (resolve wait value s.waits)[other]? = some none := by
  obtain ⟨hin, hne⟩ := List.mem_filter.1 hm
  simp only [decide_eq_true_eq] at hne
  obtain ⟨hc, hw⟩ := h.timers other hin
  exact ⟨hc, (resolve_other value s.waits hne).trans hw⟩

theorem waiting_push {s : Stream} (h : Waiting s) (messages : List ServerMessage) : Waiting (session_push messages s) := by
  unfold session_push
  split
  · -- No callback: the consumer does not sleep.
    rename_i hr
    refine ⟨h.timers, fun wait hc hw => ?_, h.made⟩
    have := (h.asleep wait hc hw).2
    rw [hr] at this
    cases this
  · rename_i wait hr
    refine ⟨fun other hm => h.timers_left true hm, fun other hc hw => ?_,
      fun other hc => (h.made other hc).trans_eq (length_resolve ..).symm⟩
    obtain ⟨hne, hw⟩ := resolve_unresolved hw
    have := (h.asleep other hc hw).2
    rw [hr, Option.some.injEq] at this
    exact absurd this.symm hne

theorem waiting_expire {s : Stream} (h : Waiting s) (wait : ℕ) : Waiting (timer_expires wait s) := by
  unfold timer_expires
  split
  · rename_i hin
    obtain ⟨hc, -⟩ := h.timers wait hin
    refine ⟨fun other hm => h.timers_left false hm, fun other hc' hw => ?_,
      fun other hc => (h.made other hc).trans_eq (length_resolve ..).symm⟩
    have hsame : wait = other := by simpa [hc] using hc'
    exact absurd hsame.symm (resolve_unresolved hw).1
  · exact h

theorem waiting_next {s : Stream} (h : Waiting s) : Waiting (next s) := by
  have awake : ∀ c, s.consumer = c → (∀ w, c ≠ .awaiting w) → s.timers = [] := fun c hc hne =>
    h.no_timers fun ⟨wait, hw, _⟩ => hne _ (hc.symm.trans hw)
  unfold next
  split
  · rename_i hc
    exact waiting_of_awake (awake _ hc (by simp)) (by simp)
  · rename_i hc
    exact waiting_drain (awake _ hc (by simp))
  · rename_i hc
    exact waiting_loop (awake _ hc (by simp))
  · exact h

theorem waiting_resume {s : Stream} (h : Waiting s) : Waiting (resume s) := by
  unfold resume
  split
  · rename_i hc
    exact waiting_after_wait _ (h.no_timers fun ⟨wait, hw, _⟩ => by simp [hc] at hw)
  · rename_i wait hc
    split
    · rename_i hasMessage hres
      refine waiting_after_wait _ (h.no_timers fun ⟨other, hw, hnone⟩ => ?_)
      have hsame : wait = other := by simpa [hc] using hw
      subst hsame
      rw [hres] at hnone
      cases hnone
    · exact h
  · exact h

theorem waiting_finish {s : Stream} (h : Waiting s) : Waiting (finish s) := by
  unfold finish
  split
  · exact h
  · rename_i hne
    refine waiting_of_awake (h.no_timers fun ⟨wait, hw, _⟩ => ?_) (by simp)
    exact hne _ hw

theorem waiting_step {s : Stream} (h : Waiting s) (event : StreamEvent) : Waiting (streamStep s event) := by
  cases event with
  | push messages => exact waiting_push h messages
  | expire wait => exact waiting_expire h wait
  | abort => exact ⟨h.timers, h.asleep, h.made⟩
  | next => exact waiting_next h
  | resume => exact waiting_resume h
  | finish => exact waiting_finish h

theorem waiting_init (slotMap : CompileRequestData) : Waiting (Stream.init slotMap) :=
  waiting_of_awake rfl (by simp [Stream.init])

/-! ## The consumer goes on -/

theorem taken_prefix_drain (s : Stream) : s.taken <+: (drain_queue_until_empty_or_aborted s).taken := by
  unfold drain_queue_until_empty_or_aborted
  split
  · simp [Stream.taken]
  · unfold open_session_yield_loop wait_for_message_or_timeout
    split
    · exact List.prefix_rfl
    · split <;> exact List.prefix_rfl

/-- What was taken stays taken. -/
theorem taken_prefix_step (s : Stream) (event : StreamEvent) : s.taken <+: (streamStep s event).taken := by
  have hloop : s.taken <+: (open_session_yield_loop s).taken := by
    unfold open_session_yield_loop wait_for_message_or_timeout
    split
    · exact List.prefix_rfl
    · split <;> exact List.prefix_rfl
  have hafter : ∀ hasMessage, s.taken <+: (after_wait hasMessage s).taken := by
    intro hasMessage
    unfold after_wait
    split
    · exact List.prefix_rfl
    · split
      · exact taken_prefix_drain s
      · simp [Stream.taken]
  cases event with
  | push messages =>
    simp only [streamStep, session_push]
    split <;> exact List.prefix_rfl
  | expire wait =>
    simp only [streamStep, timer_expires]
    split <;> exact List.prefix_rfl
  | abort => exact List.prefix_rfl
  | next =>
    simp only [streamStep, next]
    split
    · simp [Stream.taken]
    · exact taken_prefix_drain s
    · exact hloop
    · exact List.prefix_rfl
  | resume =>
    simp only [streamStep, resume]
    split
    · exact hafter _
    · split
      · exact hafter _
      · exact List.prefix_rfl
    · exact List.prefix_rfl
  | finish =>
    simp only [streamStep, finish]
    split <;> exact List.prefix_rfl

theorem taken_prefix_run (s : Stream) (events : List StreamEvent) : s.taken <+: (run streamStep s events).taken := by
  induction events generalizing s with
  | nil => exact List.prefix_rfl
  | cons event events ih => exact (taken_prefix_step s event).trans (ih _)

section
variable {s : Stream} {msg : ServerMessage} {queue : List ServerMessage}

theorem taken_drain (haborted : s.aborted = false) (hqueue : s.session.queue = msg :: queue) :
    (drain_queue_until_empty_or_aborted s).taken = s.taken ++ [msg] := by
  unfold drain_queue_until_empty_or_aborted
  rw [haborted, hqueue]
  simp [Stream.taken]

theorem loop_ready (haborted : s.aborted = false) (hqueue : s.session.queue = msg :: queue) :
    open_session_yield_loop s = { s with consumer := .awaiting (.settled true) } := by
  unfold open_session_yield_loop wait_for_message_or_timeout
  rw [if_neg (by rw [haborted]; decide), hqueue, if_pos (by simp)]

theorem after_wait_message (haborted : s.aborted = false) (hqueue : s.session.queue = msg :: queue) :
    after_wait true s = drain_queue_until_empty_or_aborted s := by
  unfold after_wait
  rw [if_neg (by rw [haborted]; decide), hqueue, if_pos (by simp)]

/-- Asked for the next message behind a heartbeat, the generator goes round its loop. -/
theorem taken_next_resume {point : YieldPoint} (hpoint : point ≠ .draining) (hconsumer : s.consumer = .yielding point)
    (haborted : s.aborted = false) (hqueue : s.session.queue = msg :: queue) :
    (run streamStep s [.next, .resume]).taken = s.taken ++ [msg] := by
  have hnext : next s = { s with consumer := .awaiting (.settled true) } := by
    rw [← loop_ready haborted hqueue]
    unfold next
    rw [hconsumer]
    cases point with
    | draining => exact absurd rfl hpoint
    | greeting => rfl
    | heartbeat => rfl
  simp only [run_cons, run_nil, streamStep, hnext, resume]
  rw [@after_wait_message { s with consumer := .awaiting (.settled true) } msg queue haborted hqueue]
  exact @taken_drain { s with consumer := .awaiting (.settled true) } msg queue haborted hqueue

/-- A generator that awaits takes the message, at once or behind one more heartbeat. -/
theorem taken_resume (hasMessage : Bool) (haborted : s.aborted = false) (hqueue : s.session.queue = msg :: queue) :
    s.taken ++ [msg] <+: (run streamStep (after_wait hasMessage s) [.next, .resume]).taken := by
  cases hasMessage with
  | true =>
    rw [after_wait_message haborted hqueue, ← taken_drain haborted hqueue]
    exact taken_prefix_run _ _
  | false =>
    let beating : Stream :=
      { s with yielded := s.yielded ++ [.heartbeat to_heartbeat_message], consumer := .yielding .heartbeat }
    have hbeats : after_wait false s = beating := by
      unfold after_wait
      rw [if_neg (by rw [haborted]; decide)]
      rfl
    have htaken : beating.taken = s.taken := by simp [beating, Stream.taken]
    rw [hbeats, @taken_next_resume beating msg queue .heartbeat nofun rfl haborted hqueue, htaken]

/-- Within two more messages asked for, the first of the queue is taken, unless the stream
was aborted or has ended. -/
theorem taken_soon (h : Waiting s) (haborted : s.aborted = false) (hconsumer : s.consumer ≠ .finished)
    (hqueue : s.session.queue = msg :: queue) :
    s.taken ++ [msg] <+: (run streamStep s [.next, .resume, .next, .resume]).taken := by
  cases hc : s.consumer with
  | finished => exact absurd hc hconsumer
  | notStarted =>
    let greeting : Stream :=
      { s with yielded := s.yielded ++ [.heartbeat to_heartbeat_message], consumer := .yielding .greeting }
    have hgreets : run streamStep s [.next, .resume] = greeting := by
      simp only [run_cons, run_nil, streamStep, next, hc, resume, greeting]
    have htaken : greeting.taken = s.taken := by simp [greeting, Stream.taken]
    change _ <+: (run streamStep (run streamStep s [.next, .resume]) [.next, .resume]).taken
    rw [hgreets, @taken_next_resume greeting msg queue .greeting nofun rfl haborted hqueue, htaken]
  | yielding point =>
    by_cases hpoint : point = .draining
    · have hnext : next s = drain_queue_until_empty_or_aborted s := by
        unfold next
        rw [hc, hpoint]
      rw [run_cons, ← taken_drain haborted hqueue, ← hnext]
      exact taken_prefix_run _ _
    · rw [← taken_next_resume hpoint hc haborted hqueue]
      exact taken_prefix_run _ _
  | awaiting wait =>
    have hnext : next s = s := by
      unfold next
      rw [hc]
    -- The queue has a message, so the promise was resolved.
    have hresume : ∃ hasMessage, resume s = after_wait hasMessage s := by
      unfold resume
      rw [hc]
      cases wait with
      | settled hasMessage => exact ⟨hasMessage, rfl⟩
      | pending wait =>
        dsimp only
        split
        · rename_i hasMessage _
          exact ⟨hasMessage, rfl⟩
        · rename_i hunresolved
          have hlt := h.made wait hc
          have hsome : s.waits[wait]? = some s.waits[wait] := List.getElem?_eq_getElem hlt
          cases hwait : s.waits[wait] with
          | some hasMessage => exact absurd (hsome.trans (congrArg some hwait)) (hunresolved hasMessage)
          | none =>
            have hempty := (h.asleep wait hc (hsome.trans (congrArg some hwait))).1
            rw [hqueue] at hempty
            cases hempty
    obtain ⟨hasMessage, hresume⟩ := hresume
    have hrun : run streamStep s [.next, .resume, .next, .resume] = run streamStep (after_wait hasMessage s) [.next, .resume] := by
      simp only [run_cons, run_nil, streamStep, hnext, hresume]
    rw [hrun]
    exact taken_resume hasMessage haborted hqueue

end

/-! ## The stream -/

/-- After any run, the messages yielded out of the queue followed by the queue
are the messages pushed, in order; the queue is empty while the consumer
sleeps on an unresolved promise; and two more messages asked for take its first. -/
theorem delivered_exactly_once (slotMap : CompileRequestData) (events : List StreamEvent) :
    (run streamStep (Stream.init slotMap) events).taken ++
        (run streamStep (Stream.init slotMap) events).session.queue = pushed events ∧
      ((run streamStep (Stream.init slotMap) events).asleep →
        (run streamStep (Stream.init slotMap) events).session.queue = []) ∧
      ∀ msg queue, (run streamStep (Stream.init slotMap) events).session.queue = msg :: queue →
        (run streamStep (Stream.init slotMap) events).aborted = false →
        (run streamStep (Stream.init slotMap) events).consumer ≠ .finished →
        (run streamStep (Stream.init slotMap) events).taken ++ [msg] <+:
          (run streamStep (Stream.init slotMap) (events ++ [.next, .resume, .next, .resume])).taken := by
  have hinv : Throughout streamStep (Stream.init slotMap) events Waiting :=
    .of_invariant (waiting_init slotMap) fun s event h => waiting_step h event
  refine ⟨delivered_run slotMap events, ?_, fun msg queue hqueue haborted hconsumer => ?_⟩
  · rintro ⟨wait, hc, hw⟩
    exact (hinv.last.asleep wait hc hw).1
  · rw [run_append]
    exact taken_soon hinv.last haborted hconsumer hqueue

end LainLang.Grpc
