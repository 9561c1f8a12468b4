import LainLang.Tracer.ReactiveRuns
/-!
# The periodic tracer

`trace_upstream_periodically` walks upstream from its root when it is activated and again
whenever its interval elapses. It holds one timer at most, clears it as soon as it finds
itself off its root, and starts another one when it is activated on it again.
-/
open LainLang.Lib LainLang.Js

namespace LainLang.Tracer

/-! ## The tracer -/

/-- The options that matter here. -/
structure TraceUpstreamPeriodicOptions where
  maxNodes : Option ℤ

/-- `maxNodes`, or the default. -/
def TraceUpstreamPeriodicOptions.max_nodes (options : TraceUpstreamPeriodicOptions) : ℤ :=
  options.maxNodes.getD TRACER_MAX_NODES

/-- The variables of the tracer, up to `interval`, and what it has done: `timers` are
those that were set and not cleared. A timer is the number of those `started` before it. -/
structure PeriodicTracer (env : Surroundings) where
  moment : env.Moment
  self : Bool
  last_sig : Option String
  interval : Option ℕ
  timers : List ℕ
  started : ℕ
  walks : List (env.Moment × Walk)
  emitted : List DirectedGraph

/-- What happens to a tracer. `tick` is an elapsed interval of a timer. -/
inductive PeriodicEvent (env : Surroundings) where
  | assigned
  | activate
  | tick (timer : ℕ)
  | become (m : env.Moment)

variable {env : Surroundings}

namespace PeriodicTracer

/-- The tracer before its propagator is assigned. -/
def start (m : env.Moment) : PeriodicTracer env where
  moment := m
  self := false
  last_sig := none
  interval := none
  timers := []
  started := 0
  walks := []
  emitted := []

/-- Clears the timer there is and forgets it. -/
def stop_periodic (s : PeriodicTracer env) : PeriodicTracer env :=
  { s with timers := s.timers.filter (some · ≠ s.interval), interval := none }

/-- `guard_active`: an inactive tracer stops. -/
def guard_active (s : PeriodicTracer env) : Bool × PeriodicTracer env :=
  if s.self = false ∨ env.attached s.moment = false then (false, s.stop_periodic) else (true, s)

/-- What `rebuild_core` does with a walk. -/
def record (w : Walk) (s : PeriodicTracer env) : PeriodicTracer env :=
  let shown := emit_if_changed w.graph s.last_sig
  { s with
    last_sig := shown.2
    emitted := s.emitted ++ shown.1.toList
    walks := s.walks ++ [(s.moment, w)] }

/-- One walk; its graph is emitted when the signature changed. -/
def rebuild_once (options : TraceUpstreamPeriodicOptions) (fuel : ℕ) (s : PeriodicTracer env) : Run (PeriodicTracer env) :=
  let (active, s) := s.guard_active
  if !active then .ok s
  else do
    let w ← upstream_walk fuel (env.root s.moment) options.max_nodes
    return s.record w

/-- `setInterval`. -/
def set_timer (s : PeriodicTracer env) : PeriodicTracer env :=
  { s with interval := some s.started, timers := s.timers ++ [s.started], started := s.started + 1 }

/-- A rebuild at once, then the timer. -/
def start_interval (options : TraceUpstreamPeriodicOptions) (fuel : ℕ) (s : PeriodicTracer env) :
    Run (PeriodicTracer env) :=
  if s.interval.isSome then .ok s
  else do
    let s ← s.rebuild_once options fuel
    return s.set_timer

/-- The activation of the tracer's propagator. -/
def activate (options : TraceUpstreamPeriodicOptions) (fuel : ℕ) (s : PeriodicTracer env) : Run (PeriodicTracer env) :=
  let (active, s) := s.guard_active
  if !active then .ok s else s.start_interval options fuel

/-- A timer that was cleared does not call back. -/
def tick (options : TraceUpstreamPeriodicOptions) (fuel : ℕ) (timer : ℕ) (s : PeriodicTracer env) :
    Run (PeriodicTracer env) :=
  if timer ∉ s.timers then .ok s
  else
    let (active, s) := s.guard_active
    if !active then .ok s else s.rebuild_once options fuel

/-- One event. -/
def step (options : TraceUpstreamPeriodicOptions) (fuel : ℕ) (s : PeriodicTracer env) :
    PeriodicEvent env → Run (PeriodicTracer env)
  | .assigned => .ok { s with self := true }
  | .activate => s.activate options fuel
  | .tick timer => s.tick options fuel timer
  | .become m => .ok { s with moment := m }

/-- All events of a run. -/
def runs (options : TraceUpstreamPeriodicOptions) (fuel : ℕ) (s : PeriodicTracer env) :
    List (PeriodicEvent env) → Run (PeriodicTracer env)
  | [] => .ok s
  | e :: es => do
    let s ← s.step options fuel e
    s.runs options fuel es

/-! ## What each event does -/

/-- What `guard_active` asks. -/
def Active (s : PeriodicTracer env) : Prop := s.self = true ∧ env.attached s.moment = true

instance (s : PeriodicTracer env) : Decidable s.Active := inferInstanceAs (Decidable (_ ∧ _))

/-- The one timer that may be running is the tracer's. -/
structure Ticking (options : TraceUpstreamPeriodicOptions) (s : PeriodicTracer env) : Prop where
  timers : s.timers = s.interval.toList
  shown : Gathered options.max_nodes s.walks s.emitted s.last_sig

section steps
variable {options : TraceUpstreamPeriodicOptions} {s : PeriodicTracer env}

theorem guard_active_of (h : s.Active) : s.guard_active = (true, s) :=
  if_neg (by rw [h.1, h.2]; decide)

theorem guard_active_of_not (h : ¬s.Active) : s.guard_active = (false, s.stop_periodic) := by
  refine if_pos ?_
  rw [Active, not_and_or, Bool.not_eq_true, Bool.not_eq_true] at h
  exact h

theorem rebuild_once_active (h : s.Active) (fuel : ℕ) : s.rebuild_once options fuel =
    upstream_walk fuel (env.root s.moment) options.max_nodes >>= fun w => .ok (s.record w) := by
  rw [rebuild_once, guard_active_of h]
  rfl

theorem activate_running (h : s.Active) (hinterval : s.interval.isSome = true) (fuel : ℕ) :
    s.activate options fuel = .ok s := by
  rw [activate, guard_active_of h]
  exact if_pos hinterval

theorem activate_stopped (h : s.Active) (hinterval : s.interval = none) (fuel : ℕ) : s.activate options fuel =
    upstream_walk fuel (env.root s.moment) options.max_nodes >>= fun w => .ok (s.record w).set_timer := by
  have hnone : ¬s.interval.isSome = true := by simp [hinterval]
  rw [activate, guard_active_of h]
  change s.start_interval options fuel = _
  rw [start_interval, if_neg hnone, rebuild_once_active h, bind_assoc]
  rfl

theorem activate_inactive (h : ¬s.Active) (fuel : ℕ) : s.activate options fuel = .ok s.stop_periodic := by
  rw [activate, guard_active_of_not h]
  rfl

theorem tick_active (h : s.Active) {timer : ℕ} (htimer : timer ∈ s.timers) (fuel : ℕ) : s.tick options fuel timer =
    upstream_walk fuel (env.root s.moment) options.max_nodes >>= fun w => .ok (s.record w) := by
  rw [tick, if_neg (not_not.2 htimer), guard_active_of h]
  exact rebuild_once_active h fuel

theorem tick_inactive (h : ¬s.Active) {timer : ℕ} (htimer : timer ∈ s.timers) (fuel : ℕ) :
    s.tick options fuel timer = .ok s.stop_periodic := by
  rw [tick, if_neg (not_not.2 htimer), guard_active_of_not h]
  rfl

theorem tick_cleared {timer : ℕ} (htimer : timer ∉ s.timers) (fuel : ℕ) : s.tick options fuel timer = .ok s :=
  if_pos htimer

theorem Ticking.start (options : TraceUpstreamPeriodicOptions) (m : env.Moment) : Ticking options (start m) :=
  ⟨rfl, .start env options.max_nodes⟩

theorem Ticking.stop_periodic_timers (h : Ticking options s) : s.stop_periodic.timers = [] := by
  rw [stop_periodic]
  dsimp only
  rw [h.timers]
  cases s.interval <;> simp

theorem Ticking.stop_periodic (h : Ticking options s) : Ticking options s.stop_periodic :=
  ⟨h.stop_periodic_timers, h.shown⟩

theorem Ticking.record (h : Ticking options s) {w : Walk} (hw : Drawn (env.root s.moment) options.max_nodes w) :
    Ticking options (s.record w) := ⟨h.timers, h.shown.add s.moment hw⟩

theorem Ticking.set_timer (h : Ticking options s) (hinterval : s.interval = none) : Ticking options s.set_timer := by
  refine ⟨?_, h.shown⟩
  rw [PeriodicTracer.set_timer]
  dsimp only
  rw [h.timers, hinterval]
  rfl

theorem walk_grows (options : TraceUpstreamPeriodicOptions) (m : env.Moment) (next : Walk → PeriodicTracer env) :
    Grows .outOfFuel fun fuel => upstream_walk fuel (env.root m) options.max_nodes >>= fun w => .ok (next w) :=
  (upstream_walk_grows _ _).bind fun _ => .const _

theorem walk_returns (henv : ∀ m, (env.lib m).Lawful) (m : env.Moment) {next : Walk → PeriodicTracer env}
    {P : PeriodicTracer env → Prop} (hnext : ∀ w, Drawn (env.root m) options.max_nodes w → P (next w)) :
    Returns (fun fuel => upstream_walk fuel (env.root m) options.max_nodes >>= fun w => .ok (next w)) P :=
  (upstream_walk_returns (henv m) (env.root m) options.max_nodes).bind (upstream_walk_grows _ _)
    (fun w => Grows.const (.ok (next w))) fun w hw => .ok (hnext w hw)

/-- The tracer does nothing to its timer, clears it off its root, or walks on it. -/
theorem step_cases (options : TraceUpstreamPeriodicOptions) (s : PeriodicTracer env) (e : PeriodicEvent env) :
    (∃ moment self, ∀ fuel, s.step options fuel e = .ok { s with moment, self }) ∨
    (¬s.Active ∧ ∀ fuel, s.step options fuel e = .ok s.stop_periodic) ∨
    (s.Active ∧ ∃ next : Walk → PeriodicTracer env,
      (next = s.record ∨ (s.interval = none ∧ next = fun w => (s.record w).set_timer)) ∧
      ∀ fuel, s.step options fuel e = upstream_walk fuel (env.root s.moment) options.max_nodes >>= fun w => .ok (next w)) := by
  cases e with
  | assigned => exact .inl ⟨s.moment, true, fun _ => rfl⟩
  | become m => exact .inl ⟨m, s.self, fun _ => rfl⟩
  | activate =>
    by_cases hactive : s.Active
    · by_cases hinterval : s.interval = none
      · exact .inr (.inr ⟨hactive, _, .inr ⟨hinterval, rfl⟩, activate_stopped hactive hinterval⟩)
      · exact .inl ⟨s.moment, s.self, activate_running hactive (Option.isSome_iff_ne_none.2 hinterval)⟩
    · exact .inr (.inl ⟨hactive, activate_inactive hactive⟩)
  | tick timer =>
    by_cases htimer : timer ∈ s.timers
    · by_cases hactive : s.Active
      · exact .inr (.inr ⟨hactive, _, .inl rfl, tick_active hactive htimer⟩)
      · exact .inr (.inl ⟨hactive, tick_inactive hactive htimer⟩)
    · exact .inl ⟨s.moment, s.self, tick_cleared htimer⟩

theorem step_grows (options : TraceUpstreamPeriodicOptions) (s : PeriodicTracer env) (e : PeriodicEvent env) :
    Grows .outOfFuel (fun fuel => s.step options fuel e) := by
  rcases step_cases options s e with ⟨moment, self, heq⟩ | ⟨-, heq⟩ | ⟨-, next, -, heq⟩ <;> simp only [heq]
  · exact .const _
  · exact .const _
  · exact walk_grows options s.moment next

theorem runs_grows (options : TraceUpstreamPeriodicOptions) (s : PeriodicTracer env) (es : List (PeriodicEvent env)) :
    Grows .outOfFuel (fun fuel => s.runs options fuel es) := by
  induction es generalizing s with
  | nil => exact .const _
  | cons e es ih => exact (step_grows options s e).bind fun s' => ih s'

theorem Ticking.step (henv : ∀ m, (env.lib m).Lawful) (h : Ticking options s) (e : PeriodicEvent env) :
    Returns (fun fuel => s.step options fuel e) (Ticking options) := by
  rcases step_cases options s e with ⟨moment, self, heq⟩ | ⟨-, heq⟩ | ⟨-, next, hnext, heq⟩ <;> simp only [heq]
  · exact .ok ⟨h.timers, h.shown⟩
  · exact .ok h.stop_periodic
  · refine walk_returns henv s.moment fun w hw => ?_
    rcases hnext with rfl | ⟨hinterval, rfl⟩
    · exact h.record hw
    · exact (h.record hw).set_timer hinterval

theorem Ticking.runs (henv : ∀ m, (env.lib m).Lawful) (h : Ticking options s) (es : List (PeriodicEvent env)) :
    Returns (fun fuel => s.runs options fuel es) (Ticking options) := by
  induction es generalizing s with
  | nil => exact .ok h
  | cons e es ih =>
    exact (h.step henv e).bind (step_grows options s e) (fun s' => runs_grows options s' es) fun s' hs' => ih hs'

/-! ## On its root -/

theorem runs_become (options : TraceUpstreamPeriodicOptions) (s : PeriodicTracer env) (m' : env.Moment)
    (e : PeriodicEvent env) (fuel : ℕ) :
    s.runs options fuel [.become m', e] = step options fuel { s with moment := m' } e :=
  bind_pure (step options fuel { s with moment := m' } e)

theorem tick_walks (henv : ∀ m, (env.lib m).Lawful) (hself : s.self = true) {timer : ℕ} (htimers : s.timers = [timer])
    {m' : env.Moment} (hm' : env.attached m' = true) :
    Returns (fun fuel => s.runs options fuel [.become m', .tick timer]) fun s' =>
      s'.timers = [timer] ∧ ∃ w, Drawn (env.root m') options.max_nodes w ∧ s'.walks = s.walks ++ [(m', w)] := by
  have hactive : Active { s with moment := m' } := ⟨hself, hm'⟩
  have hmem : timer ∈ s.timers := by simp [htimers]
  have hstep : ∀ fuel, s.runs options fuel [.become m', .tick timer] =
      upstream_walk fuel (env.root m') options.max_nodes >>= fun w => .ok (record w { s with moment := m' }) :=
    fun fuel => (runs_become options s m' _ fuel).trans (tick_active hactive hmem fuel)
  simp only [hstep]
  exact walk_returns henv m' fun w hw => ⟨htimers, w, hw, rfl⟩

/-- The timer runs already, or one is started with a walk. -/
theorem activate_runs (henv : ∀ m, (env.lib m).Lawful) (hs : Ticking options s) (hself : s.self = true) {m' : env.Moment}
    (hm' : env.attached m' = true) : Returns (fun fuel => s.runs options fuel [.become m', .activate]) fun s' =>
      s'.self = true ∧ ∃ timer, s'.timers = [timer] ∧
        ((s.timers = [timer] ∧ s'.walks = s.walks) ∨
          (s.timers = [] ∧ ∃ w, Drawn (env.root m') options.max_nodes w ∧ s'.walks = s.walks ++ [(m', w)])) := by
  have hactive : Active { s with moment := m' } := ⟨hself, hm'⟩
  have htimers := hs.timers
  cases hinterval : s.interval with
  | none =>
    rw [hinterval] at htimers
    have hstep : ∀ fuel, s.runs options fuel [.become m', .activate] =
        upstream_walk fuel (env.root m') options.max_nodes >>= fun w => .ok (record w { s with moment := m' }).set_timer :=
      fun fuel => (runs_become options s m' _ fuel).trans (activate_stopped hactive hinterval fuel)
    simp only [hstep]
    refine walk_returns henv m' fun w hw => ⟨hself, s.started, ?_, .inr ⟨htimers, w, hw, rfl⟩⟩
    simp [record, PeriodicTracer.set_timer, htimers]
  | some timer =>
    rw [hinterval] at htimers
    have hsome : s.interval.isSome = true := by rw [hinterval]; rfl
    have hstep : ∀ fuel, s.runs options fuel [.become m', .activate] = .ok { s with moment := m' } :=
      fun fuel => (runs_become options s m' _ fuel).trans (activate_running hactive hsome fuel)
    simp only [hstep]
    exact .ok ⟨hself, timer, htimers, .inl ⟨htimers, rfl⟩⟩

/-! ## Off its root -/

/-- Nothing was walked or started since, and the timer is the one from before or gone. -/
structure Stopping (before s : PeriodicTracer env) : Prop where
  detached : env.attached s.moment = false
  walks : s.walks = before.walks
  emitted : s.emitted = before.emitted
  started : s.started = before.started
  timers : s.timers = before.timers ∨ s.timers = []

theorem Stopping.stop_periodic {before : PeriodicTracer env} (h : Stopping before s) (hticking : Ticking options s) :
    Stopping before s.stop_periodic :=
  ⟨h.detached, h.walks, h.emitted, h.started, .inr hticking.stop_periodic_timers⟩

theorem Stopping.step {before : PeriodicTracer env} (h : Stopping before s) (hticking : Ticking options s)
    {e : PeriodicEvent env} (he : ∀ m', e = .become m' → env.attached m' = false) {fuel : ℕ} {s' : PeriodicTracer env}
    (hs' : s.step options fuel e = .ok s') :
    Stopping before s' ∧ (e = .activate ∨ (∃ timer ∈ s.timers, e = .tick timer) → s'.timers = []) := by
  have hactive : ¬s.Active := fun hactive => Bool.false_ne_true (h.detached.symm.trans hactive.2)
  cases e with
  | assigned =>
    obtain rfl := Except.ok.inj hs'
    exact ⟨⟨h.detached, h.walks, h.emitted, h.started, h.timers⟩, by simp⟩
  | become m =>
    obtain rfl := Except.ok.inj hs'
    exact ⟨⟨he m rfl, h.walks, h.emitted, h.started, h.timers⟩, by simp⟩
  | activate =>
    obtain rfl := Except.ok.inj ((activate_inactive hactive fuel).symm.trans hs')
    exact ⟨h.stop_periodic hticking, fun _ => hticking.stop_periodic_timers⟩
  | tick timer =>
    by_cases htimer : timer ∈ s.timers
    · obtain rfl := Except.ok.inj ((tick_inactive hactive htimer fuel).symm.trans hs')
      exact ⟨h.stop_periodic hticking, fun _ => hticking.stop_periodic_timers⟩
    · obtain rfl := Except.ok.inj ((tick_cleared htimer fuel).symm.trans hs')
      refine ⟨h, ?_⟩
      rintro (hnot | ⟨timer', htimer', heq⟩)
      · cases hnot
      · cases heq
        exact absurd htimer' htimer

theorem Stopping.runs (henv : ∀ m, (env.lib m).Lawful) {before : PeriodicTracer env} (h : Stopping before s)
    (hticking : Ticking options s) {es : List (PeriodicEvent env)}
    (hes : ∀ m', .become m' ∈ es → env.attached m' = false) {fuel : ℕ} {s' : PeriodicTracer env}
    (hs' : s.runs options fuel es = .ok s') :
    Stopping before s' ∧ (s'.timers = s.timers ∨ s'.timers = []) ∧
      (.activate ∈ es ∨ (∃ timer ∈ s.timers, .tick timer ∈ es) → s'.timers = []) := by
  induction es generalizing s with
  | nil =>
    obtain rfl := Except.ok.inj hs'
    exact ⟨h, .inl rfl, by simp⟩
  | cons e es ih =>
    obtain ⟨t, ht, hs'⟩ := except_bind_eq_ok hs'
    have he : ∀ m', e = .become m' → env.attached m' = false := fun m' heq => hes m' (heq ▸ List.mem_cons_self)
    have hsame : Stopping s s := ⟨h.detached, rfl, rfl, rfl, .inl rfl⟩
    obtain ⟨hstep, hcleared⟩ := h.step hticking he ht
    have htimers := (hsame.step hticking he ht).1.timers
    obtain ⟨hend, hkept, hlater⟩ := ih hstep ((hticking.step henv e).2 fuel t ht)
      (fun m' hm' => hes m' (List.mem_cons_of_mem e hm')) hs'
    -- A timer that is gone does not come back.
    have hgone : t.timers = [] → s'.timers = [] := fun hnone => hkept.elim (fun heq => heq.trans hnone) fun hnone => hnone
    refine ⟨hend, ?_, fun hevent => ?_⟩
    · rcases htimers with heq | hnone
      · rw [← heq]
        exact hkept
      · exact .inr (hgone hnone)
    · rcases htimers with heq | hnone
      · rcases hevent with hevent | ⟨timer, htimer, hevent⟩
        · rcases List.mem_cons.1 hevent with hevent | hevent
          · exact hgone (hcleared (.inl hevent.symm))
          · exact hlater (.inl hevent)
        · rcases List.mem_cons.1 hevent with hevent | hevent
          · exact hgone (hcleared (.inr ⟨timer, htimer, hevent.symm⟩))
          · exact hlater (.inr ⟨timer, heq ▸ htimer, hevent⟩)
      · exact hgone hnone

end steps

end PeriodicTracer

/-! ## The tracer from its start -/

open PeriodicTracer

section start
variable (options : TraceUpstreamPeriodicOptions) (m : env.Moment) (es : List (PeriodicEvent env))

/-- From every state that events lead to: an activation on the root leaves one timer
running, the one there was or, with a walk at once, a new one, and each of its ticks on
the root walks the network it finds. Off the root nothing is walked, written or started,
and an activation or a tick is enough to clear the timer. -/
theorem periodic_tracer_timer (henv : ∀ m, (env.lib m).Lawful) :
    Returns (fun fuel => (start m).runs options fuel es) fun s =>
      (s.self = true → ∀ m', env.attached m' = true →
        Returns (fun fuel => s.runs options fuel [.become m', .activate]) fun s' =>
          ∃ timer, s'.timers = [timer] ∧
            ((s.timers = [timer] ∧ s'.walks = s.walks) ∨
              (s.timers = [] ∧ ∃ w, Drawn (env.root m') options.max_nodes w ∧ s'.walks = s.walks ++ [(m', w)])) ∧
            ∀ m'', env.attached m'' = true →
              Returns (fun fuel => s'.runs options fuel [.become m'', .tick timer]) fun s'' =>
                s''.timers = [timer] ∧
                  ∃ w, Drawn (env.root m'') options.max_nodes w ∧ s''.walks = s'.walks ++ [(m'', w)]) ∧
      (env.attached s.moment = false → ∀ es', (∀ m', .become m' ∈ es' → env.attached m' = false) →
        Returns (fun fuel => s.runs options fuel es') fun s' =>
          s'.walks = s.walks ∧ s'.emitted = s.emitted ∧ s'.started = s.started ∧ s'.timers ⊆ s.timers ∧
            (.activate ∈ es' ∨ (∃ timer ∈ s.timers, .tick timer ∈ es') → s'.timers = [])) := by
  refine ((Ticking.start options m).runs henv es).mono fun s hs => ⟨fun hself m' hm' => ?_, fun hdetached es' hes' => ?_⟩
  · refine (activate_runs henv hs hself hm').mono fun s' ⟨hself', timer, htimer, hwalks⟩ => ⟨timer, htimer, hwalks, ?_⟩
    exact fun m'' hm'' => tick_walks henv hself' htimer hm''
  · have hruns := hs.runs henv es'
    refine ⟨hruns.1, fun fuel s' hs' => ?_⟩
    have hstopping : Stopping s s := ⟨hdetached, rfl, rfl, rfl, .inl rfl⟩
    obtain ⟨hend, -, hcleared⟩ := hstopping.runs henv hs hes' hs'
    refine ⟨hend.walks, hend.emitted, hend.started, ?_, hcleared⟩
    rcases hend.timers with heq | hnone
    · rw [heq]
      exact List.Subset.refl _
    · rw [hnone]
      exact List.nil_subset _

/-- The tracer runs and leaves its root. -/
def leavingEvents : List (PeriodicEvent feedbackSurroundings) := [.assigned, .activate, .become false]

theorem periodic_tracer_timer_feedback : ∃ s, (start true).runs ⟨none⟩ 9 leavingEvents = .ok s ∧ s.timers = [0] ∧
    (Returns (fun fuel => s.runs ⟨none⟩ fuel [.tick 0]) fun s' => s'.timers = [] ∧ s'.emitted = s.emitted) ∧
    Returns (fun fuel => s.runs ⟨none⟩ fuel [.become true, .activate]) fun s' => s'.timers = [0] := by
  obtain ⟨s, hs, htimers, hself, hmoment⟩ : ∃ s, (start true).runs ⟨none⟩ 9 leavingEvents = .ok s ∧ s.timers = [0] ∧
      s.self = true ∧ s.moment = false := ⟨_, rfl, rfl, rfl, rfl⟩
  obtain ⟨hon, hoff⟩ := (periodic_tracer_timer ⟨none⟩ true leavingEvents fun _ => feedback_lawful).2 9 s hs
  refine ⟨s, hs, htimers, ?_, ?_⟩
  · have hdetached : feedbackSurroundings.attached s.moment = false := by rw [hmoment]; rfl
    refine (hoff hdetached [.tick 0] (by simp)).mono fun s' ⟨_, hemitted, _, _, hcleared⟩ => ⟨?_, hemitted⟩
    exact hcleared (.inr ⟨0, by simp [htimers], List.mem_singleton_self _⟩)
  · refine (hon hself true rfl).mono fun s' ⟨timer, htimer, hwalks, _⟩ => ?_
    rcases hwalks with ⟨hsame, -⟩ | ⟨hnone, -⟩
    · rw [htimer, ← hsame, htimers]
    · rw [htimers] at hnone
      cases hnone

end start

end LainLang.Tracer
