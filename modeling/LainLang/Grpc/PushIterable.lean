import LainLang.Lib.Run
import Mathlib.Data.List.Basic
/-!
# Pushing into an async iterable

A producer pushes values and closes, a consumer asks for the next value. The code
between two `await`s runs at once, so the steps are the producer's calls, the
consumer's call of `next` and the two continuations it may be suspended at: that
of `wait_until_item_or_closed` and that of `next` behind it.
-/
open LainLang.Lib

namespace LainLang.Grpc

variable {T : Type}

/-- Where the consumer's call of `next` is suspended, or `idle` without a call. -/
inductive NextCall where
  | idle
  | waiting (wait : ℕ)
  | waited
  deriving DecidableEq

/-- No value is `undefined`, which `shift` returns on an empty queue. `waits` tells
of each wait promise whether it is resolved, `results` what the calls of `next`
returned, `none` for `done`. -/
structure PushIterable (T : Type) where
  queue : List T
  closed : Bool
  resolve_current_wait : Option ℕ
  waits : List Bool
  call : NextCall
  results : List (Option T)

namespace PushIterable

/-- `create_push_to_async_iterable`. -/
def create : PushIterable T := ⟨[], false, none, [], .idle, []⟩

/-! ## The producer -/

/-- The waiter, if any, is resolved once. -/
def notify_waiter (s : PushIterable T) : PushIterable T :=
  match s.resolve_current_wait with
  | none => s
  | some wait => { s with waits := s.waits.set wait true, resolve_current_wait := none }

/-- `push`: a closed iterable takes nothing. -/
def push (value : T) (s : PushIterable T) : PushIterable T :=
  if s.closed then s else notify_waiter { s with queue := s.queue ++ [value] }

/-- What is queued is still delivered. -/
def close (s : PushIterable T) : PushIterable T := notify_waiter { s with closed := true }

/-! ## The consumer -/

/-- Settled at once, or with the next `push` or `close`. -/
def wait_until_item_or_closed (s : PushIterable T) : PushIterable T :=
  if s.queue.length > 0 ∨ s.closed then { s with call := .waited }
  else
    { s with
      resolve_current_wait := some s.waits.length
      waits := s.waits ++ [false]
      call := .waiting s.waits.length }

/-- The loop of `next` up to its `await`. -/
def next_loop (s : PushIterable T) : PushIterable T :=
  match s.queue with
  | value :: queue => { s with queue, call := .idle, results := s.results ++ [some value] }
  | [] =>
    if s.closed then { s with call := .idle, results := s.results ++ [none] }
    else wait_until_item_or_closed s

/-- The consumer calls `next` when its last call has settled. -/
def next (s : PushIterable T) : PushIterable T :=
  match s.call with
  | .idle => next_loop s
  | _ => s

/-- The wait promise is resolved, and `wait_until_item_or_closed` returns. -/
def resume_wait (s : PushIterable T) : PushIterable T :=
  match s.call with
  | .waiting wait => if s.waits[wait]? = some true then { s with call := .waited } else s
  | _ => s

/-- `wait_until_item_or_closed` has returned, and `next` goes round its loop. -/
def resume_next (s : PushIterable T) : PushIterable T :=
  match s.call with
  | .waited => next_loop s
  | _ => s

end PushIterable

/-! ## Runs -/

/-- What a producer does, and what the consumer and its promise do. -/
inductive PushEvent (T : Type) where
  | push (value : T)
  | close
  | next
  | resume_wait
  | resume_next

open PushIterable in
/-- One event. -/
def pushStep (s : PushIterable T) : PushEvent T → PushIterable T
  | .push value => push value s
  | .close => close s
  | .next => next s
  | .resume_wait => resume_wait s
  | .resume_next => resume_next s

/-- The values of the pushes before the first `close`. -/
def pushedBeforeClose : List (PushEvent T) → List T
  | [] => []
  | .push value :: events => value :: pushedBeforeClose events
  | .close :: _ => []
  | .next :: events | .resume_wait :: events | .resume_next :: events => pushedBeforeClose events

/-- The values that `next` returned, in their order. -/
def PushIterable.delivered (s : PushIterable T) : List T := s.results.filterMap id

/-- The call of `next` is suspended on a wait that is not resolved. -/
def PushIterable.Suspended (s : PushIterable T) : Prop := ∃ wait, s.call = .waiting wait ∧ s.waits[wait]? = some false

theorem pushedBeforeClose_closed {events : List (PushEvent T)} (h : .close ∈ events) (later : List (PushEvent T)) :
    pushedBeforeClose (events ++ later) = pushedBeforeClose events := by
  induction events with
  | nil => cases h
  | cons e events ih =>
    cases e with
    | close => rfl
    | push value => exact congrArg (value :: ·) (ih (by simpa using h))
    | next | resume_wait | resume_next => exact ih (by simpa using h)

theorem pushedBeforeClose_open {events : List (PushEvent T)} (h : .close ∉ events) (later : List (PushEvent T)) :
    pushedBeforeClose (events ++ later) = pushedBeforeClose events ++ pushedBeforeClose later := by
  induction events with
  | nil => rfl
  | cons e events ih =>
    cases e with
    | close => exact absurd List.mem_cons_self h
    | push value => exact congrArg (value :: ·) (ih (by simpa using h))
    | next | resume_wait | resume_next => exact ih (by simpa using h)

/-! ## What a state has to do with the events before it -/

/-- What was delivered and what is queued are the pushes, `done` means nothing is
left, and a suspended call has an empty open queue and the callback that wakes it. -/
structure Delivers (events : List (PushEvent T)) (s : PushIterable T) : Prop where
  closed : s.closed = true ↔ PushEvent.close ∈ events
  values : s.delivered ++ s.queue = pushedBeforeClose events
  done : none ∈ s.results → s.closed = true ∧ s.queue = []
  made : ∀ wait, s.call = .waiting wait → wait < s.waits.length
  suspended : ∀ wait, s.call = .waiting wait → s.waits[wait]? = some false →
    s.queue = [] ∧ s.closed = false ∧ s.resolve_current_wait = some wait

namespace Delivers
open PushIterable

variable {events : List (PushEvent T)} {s : PushIterable T}

theorem create : Delivers [] (PushIterable.create : PushIterable T) :=
  ⟨by simp [PushIterable.create], rfl, by simp [PushIterable.create], nofun, nofun⟩

/-- Nobody is suspended on a wait once the waiter is notified. -/
theorem not_suspended_notify (h : ∀ wait, s.call = .waiting wait → s.waits[wait]? = some false →
    s.resolve_current_wait = some wait) : ¬(notify_waiter s).Suspended := by
  rintro ⟨wait, hcall, hwait⟩
  unfold notify_waiter at hcall hwait
  split at hcall
  · rename_i hnone
    simp only [hnone] at hwait
    rw [h wait hcall hwait] at hnone
    cases hnone
  · -- The callback resolves the wait it belongs to, and by `h` that is the call's own.
    rename_i other hother
    simp only [hother] at hwait
    rw [List.getElem?_set] at hwait
    split at hwait
    · split at hwait <;> cases hwait
    · rename_i hne
      rw [h wait hcall hwait] at hother
      exact hne (Option.some.inj hother).symm

theorem notify_waiter_frame (s : PushIterable T) :
    (notify_waiter s).queue = s.queue ∧ (notify_waiter s).closed = s.closed ∧
    (notify_waiter s).results = s.results ∧ (notify_waiter s).call = s.call ∧
      (notify_waiter s).waits.length = s.waits.length := by
  unfold notify_waiter
  split
  · exact ⟨rfl, rfl, rfl, rfl, rfl⟩
  · exact ⟨rfl, rfl, rfl, rfl, List.length_set⟩

theorem push (h : Delivers events s) (value : T) : Delivers (events ++ [.push value]) (push value s) := by
  unfold PushIterable.push
  split
  · -- After the close a push changes nothing, and does not count.
    rename_i hclosed
    have hmem := h.closed.1 hclosed
    refine ⟨by simpa using h.closed, ?_, h.done, h.made, h.suspended⟩
    rw [pushedBeforeClose_closed hmem, h.values]
  · rename_i hopen
    have hmem : PushEvent.close ∉ events := fun hm => hopen (h.closed.2 hm)
    obtain ⟨hqueue, hclosed, hresults, hcall, hlen⟩ := notify_waiter_frame { s with queue := s.queue ++ [value] }
    refine ⟨?_, ?_, ?_, ?_, fun wait hcall hwait => ?_⟩
    · rw [hclosed]
      simpa using h.closed
    · rw [delivered, hqueue, hresults, pushedBeforeClose_open hmem, ← h.values, List.append_assoc]
      rfl
    · rw [hresults]
      exact fun hdone => absurd (h.done hdone).1 hopen
    · rw [hcall, hlen]
      exact h.made
    · refine absurd ⟨wait, hcall, hwait⟩ (not_suspended_notify fun wait hcall hwait => ?_)
      exact (h.suspended wait hcall hwait).2.2

theorem close (h : Delivers events s) : Delivers (events ++ [.close]) (close s) := by
  obtain ⟨hqueue, hclosed, hresults, hcall, hlen⟩ := notify_waiter_frame { s with closed := true }
  unfold PushIterable.close
  refine ⟨?_, ?_, ?_, ?_, fun wait hcall hwait => ?_⟩
  · rw [hclosed]
    simp
  · rw [delivered, hqueue, hresults]
    refine h.values.trans ?_
    by_cases hmem : PushEvent.close ∈ events
    · rw [pushedBeforeClose_closed hmem]
    · rw [pushedBeforeClose_open hmem]
      exact (List.append_nil _).symm
  · rw [hresults, hclosed, hqueue]
    exact fun hdone => ⟨rfl, (h.done hdone).2⟩
  · rw [hcall, hlen]
    exact h.made
  · refine absurd ⟨wait, hcall, hwait⟩ (not_suspended_notify fun wait hcall hwait => ?_)
    exact (h.suspended wait hcall hwait).2.2

theorem next_loop (h : Delivers events s) : Delivers events (next_loop s) := by
  unfold PushIterable.next_loop
  split
  · rename_i value queue hqueue
    refine ⟨h.closed, ?_, fun hdone => ?_, nofun, nofun⟩
    · have hvalues := h.values
      rw [hqueue] at hvalues
      simpa [delivered] using hvalues
    · have hdone' : none ∈ s.results := by simpa using hdone
      have hempty := (h.done hdone').2
      rw [hqueue] at hempty
      cases hempty
  · rename_i hqueue
    split
    · rename_i hclosed
      refine ⟨h.closed, ?_, fun _ => ⟨hclosed, hqueue⟩, nofun, nofun⟩
      simpa [delivered] using h.values
    · -- No step comes between the check of `next` and the one of the wait, so they agree.
      rename_i hopen
      unfold wait_until_item_or_closed
      rw [if_neg (by simp [hqueue, hopen])]
      refine ⟨h.closed, h.values, h.done, fun wait hcall => ?_, fun wait hcall _ => ?_⟩
      · cases hcall
        simp
      · cases hcall
        exact ⟨hqueue, by simpa using hopen, rfl⟩

/-- Steps of the consumer add nothing to what was pushed. -/
theorem of_consumer (h : Delivers events s) {e : PushEvent T} (hclose : e ≠ .close) (hpush : pushedBeforeClose [e] = []) :
    Delivers (events ++ [e]) s := by
  have hiff : s.closed = true ↔ PushEvent.close ∈ events ++ [e] := by
    rw [h.closed, List.mem_append, List.mem_singleton]
    exact ⟨.inl, fun hor => hor.resolve_right fun heq => hclose heq.symm⟩
  refine ⟨hiff, ?_, h.done, h.made, h.suspended⟩
  by_cases hmem : PushEvent.close ∈ events
  · rw [pushedBeforeClose_closed hmem, h.values]
  · rw [pushedBeforeClose_open hmem, hpush, List.append_nil, h.values]

theorem step (h : Delivers events s) (e : PushEvent T) : Delivers (events ++ [e]) (pushStep s e) := by
  cases e with
  | push value => exact h.push value
  | close => exact h.close
  | next =>
    refine of_consumer ?_ nofun rfl
    simp only [pushStep, PushIterable.next]
    split
    · exact h.next_loop
    · exact h
  | resume_wait =>
    refine of_consumer ?_ nofun rfl
    simp only [pushStep, PushIterable.resume_wait]
    split
    · split
      · exact ⟨h.closed, h.values, h.done, nofun, nofun⟩
      · exact h
    · exact h
  | resume_next =>
    refine of_consumer ?_ nofun rfl
    simp only [pushStep, PushIterable.resume_next]
    split
    · exact h.next_loop
    · exact h

theorem run (events : List (PushEvent T)) : Delivers events (run pushStep PushIterable.create events) := by
  induction events using List.reverseRecOn with
  | nil => exact .create
  | append_singleton events e ih =>
    rw [run_append, run_cons, run_nil]
    exact ih.step e

end Delivers

/-! ## Results -/

theorem next_loop_ready {s : PushIterable T} (h : s.queue ≠ [] ∨ s.closed = true) :
    (PushIterable.next_loop s).call = .idle ∧ (PushIterable.next_loop s).results.length = s.results.length + 1 := by
  unfold PushIterable.next_loop
  split
  · exact ⟨rfl, List.length_append⟩
  · rename_i hqueue
    rw [if_pos (h.resolve_left fun hne => hne hqueue)]
    exact ⟨rfl, List.length_append⟩

/-- A call of `next`, the suspended one or a new one, settles with its two continuations
once there is something to return. -/
theorem call_settles {events : List (PushEvent T)} {s : PushIterable T} (h : Delivers events s)
    (hready : s.queue ≠ [] ∨ s.closed = true) :
    (run pushStep s [.next, .resume_wait, .resume_next]).call = .idle ∧
      (run pushStep s [.next, .resume_wait, .resume_next]).results.length = s.results.length + 1 := by
  simp only [run_cons, run_nil, pushStep]
  cases hcall : s.call with
  | idle =>
    have hnext : PushIterable.next s = PushIterable.next_loop s := by simp only [PushIterable.next, hcall]
    have hidle := (next_loop_ready hready).1
    have hrest : PushIterable.resume_next (PushIterable.resume_wait (PushIterable.next_loop s)) = PushIterable.next_loop s := by
      simp only [PushIterable.resume_wait, PushIterable.resume_next, hidle]
    rw [hnext, hrest]
    exact next_loop_ready hready
  | waiting wait =>
    -- An unresolved wait would leave nothing to return.
    have hresolved : s.waits[wait]? = some true := by
      rw [List.getElem?_eq_getElem (h.made wait hcall), Option.some.injEq]
      by_contra hne
      have hfalse : s.waits[wait]? = some false := by
        rw [List.getElem?_eq_getElem (h.made wait hcall)]
        simpa using hne
      obtain ⟨hqueue, hclosed, -⟩ := h.suspended wait hcall hfalse
      exact hready.elim (fun hne => hne hqueue) fun htrue => by rw [hclosed] at htrue; cases htrue
    have hnext : PushIterable.next s = s := by simp only [PushIterable.next, hcall]
    have hwait : PushIterable.resume_wait s = { s with call := .waited } := by
      simp only [PushIterable.resume_wait, hcall, hresolved, if_true]
    rw [hnext, hwait, PushIterable.resume_next]
    exact @next_loop_ready T { s with call := .waited } hready
  | waited =>
    have hnext : PushIterable.next s = s := by simp only [PushIterable.next, hcall]
    have hwait : PushIterable.resume_wait s = s := by simp only [PushIterable.resume_wait, hcall]
    have hloop : PushIterable.resume_next s = PushIterable.next_loop s := by simp only [PushIterable.resume_next, hcall]
    rw [hnext, hwait, hloop]
    exact next_loop_ready hready

/-- After any events, what was delivered with what is queued is what was pushed
before the close; `done` was reported only once that was closed and delivered;
a call that is suspended has nothing to return; and once there is something to
return, a call settles. -/
theorem push_iterable_delivers (events : List (PushEvent T)) :
    (run pushStep PushIterable.create events).delivered ++ (run pushStep PushIterable.create events).queue =
        pushedBeforeClose events ∧
      (none ∈ (run pushStep PushIterable.create events).results →
        PushEvent.close ∈ events ∧ (run pushStep PushIterable.create events).delivered = pushedBeforeClose events) ∧
      ((run pushStep PushIterable.create events).Suspended →
        (run pushStep PushIterable.create events).queue = [] ∧
          (run pushStep PushIterable.create events).closed = false) ∧
      ((run pushStep PushIterable.create events).queue ≠ [] ∨ (run pushStep PushIterable.create events).closed = true →
        (run pushStep PushIterable.create (events ++ [.next, .resume_wait, .resume_next])).call = .idle ∧
          (run pushStep PushIterable.create (events ++ [.next, .resume_wait, .resume_next])).results.length =
            (run pushStep PushIterable.create events).results.length + 1) := by
  have h := Delivers.run events
  refine ⟨h.values, fun hdone => ?_, ?_, fun hready => ?_⟩
  · obtain ⟨hclosed, hqueue⟩ := h.done hdone
    have hvalues := h.values
    rw [hqueue, List.append_nil] at hvalues
    exact ⟨h.closed.1 hclosed, hvalues⟩
  · rintro ⟨wait, hcall, hwait⟩
    exact ⟨(h.suspended wait hcall hwait).1, (h.suspended wait hcall hwait).2.1⟩
  · rw [run_append]
    exact call_settles h hready

end LainLang.Grpc
