import LainLang.Tracer.ReactiveTracer
/-!
# Runs of the reactive tracer

What holds in every run: the taps and the queued microtask are accounted for, a fire
is answered by a walk, the gatherer shows what was walked last, and off its root the
tracer writes nothing and drops its taps.
-/
open LainLang.Lib LainLang.Js

namespace LainLang.Tracer

variable {env : Surroundings}

namespace ReactiveTracer

section runs
variable {options : TraceUpstreamOptions} {gatherer_id : String} {slack : ℕ} {s : ReactiveTracer env}

/-! ## The taps -/

/-- Where no tap was disposed of, every cell that a complete walk found is watched. -/
theorem Consistent.watches (h : Consistent options gatherer_id slack s) (hnone : s.disposed = []) {w : env.Moment × Walk}
    (hw : w ∈ s.walks) (hall : w.2.truncated = false) {c : (env.lib w.1).Cell} (hc : UpstreamCell (env.root w.1) c)
    (hgatherer : (env.lib w.1).cell_id c ≠ gatherer_id) : s.taps.has ((env.lib w.1).cell_id c) = true := by
  have hvisited := (h.shown.drawn w hw).all_visited hall c hc
  rcases h.taps.watched hnone w hw _ hvisited with heq | hmem
  · exact absurd heq hgatherer
  · exact (h.taps.tapped _).1 hmem

/-! ## Fires -/

/-- A rebuild is pending, and nothing was walked since `walks`. -/
structure Awaits (walks : List (env.Moment × Walk)) (s : ReactiveTracer env) : Prop where
  self : s.self = true
  pending : s.pending = true
  walks : s.walks = walks

theorem Awaits.guard_active {walks : List (env.Moment × Walk)} (h : Awaits walks s) : Awaits walks s.guard_active.2 := by
  by_cases hactive : s.Active
  · rw [guard_active_of hactive]
    exact h
  · rw [guard_active_of_not hactive]
    exact ⟨h.self, h.pending, h.walks⟩

theorem Awaits.schedule {walks : List (env.Moment × Walk)} (h : Awaits walks s) : Awaits walks (s.schedule options) := by
  have hguard := h.guard_active
  unfold ReactiveTracer.schedule
  dsimp only
  split
  · exact hguard
  · split
    · exact hguard
    · exact ⟨hguard.self, rfl, hguard.walks⟩

/-- Only the microtask takes a pending rebuild away. -/
theorem Awaits.event {walks : List (env.Moment × Walk)} (h : Awaits walks s) {e : TracerEvent env} (he : e ≠ .microtask)
    (fuel : ℕ) : ∃ s', s.step options gatherer_id fuel e = .ok s' ∧ Awaits walks s' := by
  cases e with
  | microtask => exact absurd rfl he
  | assigned => exact ⟨_, rfl, rfl, h.pending, h.walks⟩
  | become m => exact ⟨_, rfl, h.self, h.pending, h.walks⟩
  | after =>
    refine ⟨_, rfl, ?_⟩
    unfold ReactiveTracer.on_after
    split
    · exact ⟨h.self, h.pending, h.walks⟩
    · exact h
  | activate =>
    refine ⟨_, rfl, ?_⟩
    unfold ReactiveTracer.activate
    split
    · exact h
    · exact Awaits.schedule ⟨h.self, h.pending, h.walks⟩
  | fire =>
    refine ⟨_, rfl, ?_⟩
    split
    · exact h
    · unfold ReactiveTracer.on_fire
      dsimp only
      split
      · exact h.guard_active
      · split
        · exact h.guard_active
        · exact h.guard_active.schedule

theorem Awaits.runs {walks : List (env.Moment × Walk)} {es : List (TracerEvent env)} (hes : ∀ e ∈ es, e ≠ .microtask)
    (h : Awaits walks s) {fuel : ℕ} {s' : ReactiveTracer env} (hs' : s.runs options gatherer_id fuel es = .ok s') :
    Awaits walks s' := by
  induction es generalizing s with
  | nil =>
    obtain rfl := Except.ok.inj hs'
    exact h
  | cons e es ih =>
    rw [List.forall_mem_cons] at hes
    obtain ⟨t, ht, hs'⟩ := except_bind_eq_ok hs'
    obtain ⟨t', ht', hawaits⟩ := @Awaits.event _ options gatherer_id s walks h e hes.1 fuel
    rw [ht] at ht'
    obtain rfl := Except.ok.inj ht'
    exact ih hes.2 hawaits hs'

/-- A fire that is heard leaves a rebuild pending. -/
theorem awaits_fire (hactive : s.Active) (hspent : s.spent options = false) : Awaits s.walks (s.on_fire options) := by
  have hguard := guard_active_of hactive
  rw [ReactiveTracer.on_fire, hguard]
  dsimp only
  rw [if_neg (by decide), if_neg (by rw [hspent]; decide), ReactiveTracer.schedule, hguard]
  dsimp only
  rw [if_neg (by decide), hspent, Bool.or_false]
  split
  · rename_i hpending
    exact ⟨hactive.1, hpending, rfl⟩
  · exact ⟨hactive.1, rfl, rfl⟩

theorem runs_append (fuel : ℕ) (s : ReactiveTracer env) (es es' : List (TracerEvent env)) :
    s.runs options gatherer_id fuel (es ++ es') =
      s.runs options gatherer_id fuel es >>= fun t => t.runs options gatherer_id fuel es' := by
  induction es generalizing s with
  | nil => rfl
  | cons e es ih =>
    rw [List.cons_append, ReactiveTracer.runs, ReactiveTracer.runs]
    cases s.step options gatherer_id fuel e with
    | ok t => exact ih t
    | error stop => rfl

theorem on_after_idle (s : ReactiveTracer env) : s.on_after.rebuilding = false := by
  unfold ReactiveTracer.on_after
  split
  · rfl
  · rename_i hidle
    exact Bool.not_eq_true _ ▸ hidle

theorem on_after_frame (s : ReactiveTracer env) : s.on_after.microtasks = s.microtasks ∧ s.on_after.self = s.self ∧
    s.on_after.walks = s.walks := by
  unfold ReactiveTracer.on_after
  split <;> exact ⟨rfl, rfl, rfl⟩

/-- The pending rebuild walks the network of the moment in which its microtask runs, or
finds the tracer off its root there and drops the taps. -/
theorem Awaits.microtask {walks : List (env.Moment × Walk)} (h : Awaits walks s) (hqueue : Queued options slack s)
    (m : env.Moment) {fuel : ℕ} {s' : ReactiveTracer env}
    (hs' : s.runs options gatherer_id fuel [.after, .become m, .microtask] = .ok s') :
    (env.attached m = true → ∃ w, upstream_walk fuel (env.root m) options.max_nodes = .ok w ∧ s'.walks = walks ++ [(m, w)]) ∧
      (env.attached m = false → s'.walks = walks ∧ s'.taps = .empty) := by
  obtain ⟨hmicrotasks, hself, hwalks⟩ := s.on_after_frame
  have hidle := s.on_after_idle
  have hqueued : s.on_after.microtasks ≠ 0 := by
    rw [hmicrotasks, hqueue.queued, if_pos h.pending]
    decide
  obtain ⟨t, ht, hs'⟩ := except_bind_eq_ok hs'
  obtain rfl := Except.ok.inj ht
  obtain ⟨t, ht, hs'⟩ := except_bind_eq_ok hs'
  obtain rfl := Except.ok.inj ht
  obtain ⟨t, ht, hs'⟩ := except_bind_eq_ok hs'
  obtain rfl := Except.ok.inj hs'
  refine ⟨fun hm => ?_, fun hm => ?_⟩
  · have hactive : Active { s.on_after with moment := m } := ⟨hself.trans h.self, hm⟩
    have hwalk := @microtask_active env options gatherer_id { s.on_after with moment := m } hqueued hidle hactive fuel
    obtain ⟨w, hw, ht⟩ := except_bind_eq_ok (hwalk.symm.trans ht)
    obtain rfl := Except.ok.inj ht
    refine ⟨w, hw, ?_⟩
    obtain ⟨tapped, taps, created, hframe⟩ := attach_taps_frame gatherer_id w.visited
      { s.on_after with moment := m, pending := false, microtasks := s.on_after.microtasks - 1 }
    rw [record, hframe]
    dsimp only
    rw [hwalks, h.walks]
  · have hinactive : ¬Active { s.on_after with moment := m } := fun hactive => Bool.false_ne_true (hm.symm.trans hactive.2)
    have hdrop := @microtask_inactive env options gatherer_id { s.on_after with moment := m } hqueued hidle hinactive fuel
    obtain rfl := Except.ok.inj (hdrop.symm.trans ht)
    exact ⟨hwalks.trans h.walks, rfl⟩

/-! ## Off the root -/

/-- The tracer is off its root, and has done no more than `before`. -/
structure Silent (before s : ReactiveTracer env) : Prop where
  detached : env.attached s.moment = false
  emitted : s.emitted = before.emitted
  walks : s.walks = before.walks
  created : s.created = before.created
  microtasks : s.microtasks ≤ before.microtasks

theorem Silent.dispose_taps {before : ReactiveTracer env} (h : Silent before s) : Silent before s.dispose_taps :=
  ⟨h.detached, h.emitted, h.walks, h.created, h.microtasks⟩

theorem not_active (h : env.attached s.moment = false) : ¬s.Active := fun hactive =>
  Bool.false_ne_true (h.symm.trans hactive.2)

theorem schedule_detached (h : env.attached s.moment = false) : s.schedule options = s.dispose_taps := by
  rw [ReactiveTracer.schedule, guard_active_of_not (not_active h)]
  rfl

theorem on_fire_detached (h : env.attached s.moment = false) : s.on_fire options = s.dispose_taps := by
  rw [ReactiveTracer.on_fire, guard_active_of_not (not_active h)]
  rfl

/-- Off the root every event leaves the tracer as it was or without taps. -/
theorem Silent.event {before : ReactiveTracer env} (h : Silent before s) {e : TracerEvent env}
    (he : ∀ m, e = .become m → env.attached m = false) {fuel : ℕ} {s' : ReactiveTracer env}
    (hs' : s.step options gatherer_id fuel e = .ok s') :
    Silent before s' ∧ (s.taps = .empty → s'.taps = .empty) ∧ (e = .fire → 0 < before.created → s'.taps = .empty) := by
  cases e with
  | assigned =>
    obtain rfl := Except.ok.inj hs'
    exact ⟨⟨h.detached, h.emitted, h.walks, h.created, h.microtasks⟩, fun hnone => hnone, by simp⟩
  | become m =>
    obtain rfl := Except.ok.inj hs'
    exact ⟨⟨he m rfl, h.emitted, h.walks, h.created, h.microtasks⟩, fun hnone => hnone, by simp⟩
  | after =>
    obtain rfl := Except.ok.inj hs'
    unfold ReactiveTracer.on_after
    split
    · exact ⟨⟨h.detached, h.emitted, h.walks, h.created, h.microtasks⟩, fun hnone => hnone, by simp⟩
    · exact ⟨h, fun hnone => hnone, by simp⟩
  | activate =>
    obtain rfl := Except.ok.inj hs'
    unfold ReactiveTracer.activate
    split
    · exact ⟨h, fun hnone => hnone, by simp⟩
    · rw [@schedule_detached env options { s with initialized := true } h.detached]
      exact ⟨⟨h.detached, h.emitted, h.walks, h.created, h.microtasks⟩, fun _ => rfl, by simp⟩
  | fire =>
    obtain rfl := Except.ok.inj hs'
    split
    · rename_i hnone
      refine ⟨h, fun hempty => hempty, fun _ hpos => ?_⟩
      rw [← h.created, hnone] at hpos
      exact absurd hpos (Nat.lt_irrefl 0)
    · rw [on_fire_detached h.detached]
      exact ⟨h.dispose_taps, fun _ => rfl, fun _ _ => rfl⟩
  | microtask =>
    by_cases hnone : s.microtasks = 0 ∨ s.rebuilding = true
    · rw [ReactiveTracer.step, ReactiveTracer.microtask, if_pos hnone] at hs'
      obtain rfl := Except.ok.inj hs'
      exact ⟨h, fun hempty => hempty, by simp⟩
    · rw [not_or, Bool.not_eq_true] at hnone
      rw [ReactiveTracer.step, microtask_inactive hnone.1 hnone.2 (not_active h.detached)] at hs'
      obtain rfl := Except.ok.inj hs'
      refine ⟨⟨h.detached, h.emitted, h.walks, h.created, ?_⟩, fun _ => rfl, by simp⟩
      exact (Nat.sub_le ..).trans h.microtasks

theorem Silent.runs {before : ReactiveTracer env} {es : List (TracerEvent env)}
    (hes : ∀ m, .become m ∈ es → env.attached m = false) (h : Silent before s) {fuel : ℕ} {s' : ReactiveTracer env}
    (hs' : s.runs options gatherer_id fuel es = .ok s') :
    Silent before s' ∧ (s.taps = .empty → s'.taps = .empty) ∧ (.fire ∈ es → 0 < before.created → s'.taps = .empty) := by
  induction es generalizing s with
  | nil =>
    obtain rfl := Except.ok.inj hs'
    exact ⟨h, fun hnone => hnone, fun hmem => absurd hmem List.not_mem_nil⟩
  | cons e es ih =>
    obtain ⟨t, ht, hs'⟩ := except_bind_eq_ok hs'
    obtain ⟨hsilent, hkept, hfire⟩ := h.event (fun m hm => hes m (hm ▸ List.mem_cons_self)) ht
    obtain ⟨hsilent', hkept', hfire'⟩ := ih (fun m hm => hes m (List.mem_cons_of_mem e hm)) hsilent hs'
    refine ⟨hsilent', fun hnone => hkept' (hkept hnone), fun hmem hpos => ?_⟩
    rcases List.mem_cons.1 hmem with rfl | hmem
    · exact hkept' (hfire rfl hpos)
    · exact hfire' hmem hpos

end runs

end ReactiveTracer

/-! ## The tracer from its start -/

open ReactiveTracer

/-- The network of two cells that feed each other; the tracer may leave its root. -/
def feedbackSurroundings : Surroundings where
  Moment := Bool
  lib _ := feedback
  root _ := feedbackRoot
  attached m := m

/-- The tracer is attached, draws twice and leaves its root. -/
def feedbackEvents : List (TracerEvent feedbackSurroundings) :=
  [.assigned, .activate, .microtask, .after, .fire, .microtask, .after, .become false]

/-- One rebuild at most. -/
def onceOptions : TraceUpstreamOptions := ⟨none, some 1⟩

theorem feedbackEvents_undisturbed (fuel : ℕ) : (start true).Undisturbed onceOptions "b" fuel feedbackEvents := by
  refine ⟨nofun, fun _ _ => ⟨nofun, fun _ _ => ⟨nofun, fun s _ => ⟨nofun, fun s' hs' => ⟨fun _ => ?_, fun _ _ => ?_⟩⟩⟩⟩⟩
  · obtain rfl := Except.ok.inj hs'
    exact s.on_after_idle
  · exact ⟨nofun, fun _ _ => ⟨nofun, fun _ _ => ⟨nofun, fun _ _ => trivial⟩⟩⟩

section start
variable (options : TraceUpstreamOptions) (gatherer_id : String) (m : env.Moment) (es : List (TracerEvent env))

/-- In any order of events: a pending rebuild has the one microtask that is queued,
every tap is live for one visited cell or was disposed of once, every cell of a complete
walk but the gatherer is watched as long as no tap was disposed of, and `maxRebuilds` is
exceeded by one at most. -/
theorem reactive_tracer_accounts (henv : ∀ m, (env.lib m).Lawful) :
    Returns (fun fuel => (start m).runs options gatherer_id fuel es) fun s =>
      (s.microtasks = if s.pending then 1 else 0) ∧ TapsKept gatherer_id s ∧ OnVisited s ∧
        (s.disposed = [] → ∀ w ∈ s.walks, w.2.truncated = false → ∀ c, UpstreamCell (env.root w.1) c →
          (env.lib w.1).cell_id c ≠ gatherer_id → s.taps.has ((env.lib w.1).cell_id c) = true) ∧
        ∀ n, options.maxRebuilds = some n → (s.walks.length : ℤ) ≤ max n 0 + 1 := by
  refine ((Consistent.start options gatherer_id 1 m).runs henv es).mono fun s hs =>
    ⟨hs.queue.queued, hs.taps, hs.visited, fun hnone w hw hall c hc hgatherer => hs.watches hnone hw hall hc hgatherer, ?_⟩
  intro n hn
  have hbudget := hs.queue.budget n hn
  rw [hs.queue.walked]
  push_cast at hbudget ⊢
  omega

theorem reactive_tracer_accounts_feedback :
    Returns (fun fuel => (start true).runs onceOptions "b" fuel feedbackEvents) fun s =>
      (s.microtasks = if s.pending then 1 else 0) ∧ TapsKept "b" s ∧ OnVisited s ∧
        (s.disposed = [] → ∀ w ∈ s.walks, w.2.truncated = false → ∀ c, UpstreamCell feedbackRoot c →
          feedback.cell_id c ≠ "b" → s.taps.has (feedback.cell_id c) = true) ∧
        ∀ n, onceOptions.maxRebuilds = some n → (s.walks.length : ℤ) ≤ max n 0 + 1 :=
  reactive_tracer_accounts onceOptions "b" _ feedbackEvents fun _ => feedback_lawful

/-- `maxRebuilds` is not exceeded unless a tap fires while a rebuild runs. -/
theorem reactive_tracer_budget (henv : ∀ m, (env.lib m).Lawful)
    (hes : ∀ fuel, (start m).Undisturbed options gatherer_id fuel es) :
    Returns (fun fuel => (start m).runs options gatherer_id fuel es) fun s =>
      ∀ n, options.maxRebuilds = some n → (s.walks.length : ℤ) ≤ max n 0 := by
  refine ⟨((Consistent.start options gatherer_id 1 m).runs henv es).1, fun fuel s hs n hn => ?_⟩
  have hend := (Consistent.start options gatherer_id 0 m).runs_undisturbed henv (hes fuel) hs
  have hbudget := hend.queue.budget n hn
  rw [hend.queue.walked]
  push_cast at hbudget ⊢
  omega

theorem reactive_tracer_budget_feedback :
    Returns (fun fuel => (start true).runs onceOptions "b" fuel feedbackEvents) fun s =>
      ∀ n, onceOptions.maxRebuilds = some n → (s.walks.length : ℤ) ≤ max n 0 :=
  reactive_tracer_budget onceOptions "b" _ feedbackEvents (fun _ => feedback_lawful) feedbackEvents_undisturbed

/-- A fire that is heard, with the budget not spent, is answered: whatever happens before
the microtask, it walks the network it finds when it runs. If the tracer is off its root
then, it walks nothing and has disposed of every tap. -/
theorem reactive_tracer_hears_fires (henv : ∀ m, (env.lib m).Lawful) :
    Returns (fun fuel => (start m).runs options gatherer_id fuel es) fun s =>
      s.Active → s.spent options = false → s.created ≠ 0 → ∀ es', (∀ e ∈ es', e ≠ .microtask) → ∀ m',
        Returns (fun fuel => s.runs options gatherer_id fuel (.fire :: es' ++ [.after, .become m', .microtask]))
          fun s' =>
            (env.attached m' = true → ∃ w, Drawn (env.root m') options.max_nodes w ∧ s'.walks = s.walks ++ [(m', w)]) ∧
            (env.attached m' = false → s'.walks = s.walks ∧ s'.disposed.Perm (List.range s'.created)) := by
  refine ((Consistent.start options gatherer_id 1 m).runs henv es).mono fun s hs hactive hspent hcreated es' hes' m' => ?_
  have hruns := hs.runs henv (.fire :: es' ++ [.after, .become m', .microtask])
  refine ⟨hruns.1, fun fuel s' hs' => ?_⟩
  have haccounted := (hruns.2 fuel s' hs').taps.accounted
  obtain ⟨t, ht, hs'⟩ := except_bind_eq_ok ((runs_append fuel s (.fire :: es') _).symm.trans hs')
  have hqueue := ((hs.runs henv (.fire :: es')).2 fuel t ht).queue
  obtain ⟨t', ht', ht⟩ := except_bind_eq_ok ht
  rw [step, if_neg hcreated] at ht'
  obtain rfl := Except.ok.inj ht'
  obtain ⟨hon, hoff⟩ := ((awaits_fire hactive hspent).runs hes' ht).microtask hqueue m' hs'
  refine ⟨fun hm' => ?_, fun hm' => ?_⟩
  · obtain ⟨w, hw, hwalks⟩ := hon hm'
    exact ⟨w, (upstream_walk_returns (henv m') (env.root m') options.max_nodes).2 fuel w hw, hwalks⟩
  · obtain ⟨hwalks, hnone⟩ := hoff hm'
    rw [hnone] at haccounted
    exact ⟨hwalks, haccounted⟩

/-- A tap is alive after the first walk, and its fire is heard, or the tracer is off its
root when it would be. -/
theorem reactive_tracer_hears_fires_feedback : ∃ s : ReactiveTracer feedbackSurroundings,
    (start true).runs ⟨none, none⟩ "b" 9 [.assigned, .activate, .microtask, .after] = .ok s ∧
    (Returns (fun fuel => s.runs ⟨none, none⟩ "b" fuel [.fire, .after, .become true, .microtask]) fun s' =>
      ∃ w : Walk, Drawn (feedbackSurroundings.root true) 2000 w ∧
        s'.walks = s.walks ++ [((true, w) : feedbackSurroundings.Moment × Walk)]) ∧
    Returns (fun fuel => s.runs ⟨none, none⟩ "b" fuel [.fire, .after, .become false, .microtask]) fun s' =>
      s'.walks = s.walks ∧ s'.disposed.Perm (List.range s'.created) := by
  have hall := @reactive_tracer_hears_fires feedbackSurroundings ⟨none, none⟩ "b" true
    [.assigned, .activate, .microtask, .after] fun _ => feedback_lawful
  have hready : ((@start feedbackSurroundings true).runs ⟨none, none⟩ "b" 9
      [.assigned, .activate, .microtask, .after]).toOption.any (fun s =>
        decide s.Active && !s.spent ⟨none, none⟩ && decide (s.created ≠ 0)) = true := by decide +kernel
  cases hruns : (@start feedbackSurroundings true).runs ⟨none, none⟩ "b" 9 [.assigned, .activate, .microtask, .after] with
  | error e =>
    rw [hruns] at hready
    cases hready
  | ok s =>
    rw [hruns] at hready
    simp only [Except.toOption, Option.any_some, Bool.and_eq_true, decide_eq_true_eq, Bool.not_eq_true'] at hready
    obtain ⟨⟨hactive, hspent⟩, hcreated⟩ := hready
    have hfire := hall.2 9 s hruns hactive hspent hcreated [] nofun
    exact ⟨s, rfl, (hfire true).mono fun s' hs' => hs'.1 rfl, (hfire false).mono fun s' hs' => hs'.2 rfl⟩

/-- While the tracer is off its root nothing is walked, written, tapped or queued, and
one fire is enough for every tap to be disposed of. -/
theorem reactive_tracer_detached (henv : ∀ m, (env.lib m).Lawful) :
    Returns (fun fuel => (start m).runs options gatherer_id fuel es) fun s =>
      env.attached s.moment = false → ∀ es', (∀ m', .become m' ∈ es' → env.attached m' = false) →
        Returns (fun fuel => s.runs options gatherer_id fuel es') fun s' =>
          s'.emitted = s.emitted ∧ s'.walks = s.walks ∧ s'.created = s.created ∧ s'.microtasks ≤ s.microtasks ∧
            (.fire ∈ es' → s'.disposed.Perm (List.range s'.created)) := by
  refine ((Consistent.start options gatherer_id 1 m).runs henv es).mono fun s hs hdetached es' hes' => ?_
  have hruns := hs.runs henv es'
  refine ⟨hruns.1, fun fuel s' hs' => ?_⟩
  have hsilent : Silent s s := ⟨hdetached, rfl, rfl, rfl, le_rfl⟩
  obtain ⟨hend, -, hfire⟩ := hsilent.runs hes' hs'
  refine ⟨hend.emitted, hend.walks, hend.created, hend.microtasks, fun hmem => ?_⟩
  have haccounted := (hruns.2 fuel s' hs').taps.accounted
  rcases Nat.eq_zero_or_pos s.created with hzero | hpos
  · -- There was never a tap to dispose of.
    rw [hend.created, hzero] at haccounted ⊢
    have hnil := List.append_eq_nil_iff.1 (List.perm_nil.1 haccounted)
    rw [hnil.2]
    exact .refl _
  · rw [hfire hmem hpos] at haccounted
    exact haccounted

/-- The tracer has left its root, and a fire disposes of the taps. -/
theorem reactive_tracer_detached_feedback : ∃ s : ReactiveTracer feedbackSurroundings,
    (start true).runs onceOptions "b" 9 feedbackEvents = .ok s ∧
    Returns (fun fuel => s.runs onceOptions "b" fuel [.fire]) fun s' =>
      s'.emitted = s.emitted ∧ s'.walks = s.walks ∧ s'.created = s.created ∧ s'.microtasks ≤ s.microtasks ∧
        s'.disposed.Perm (List.range s'.created) := by
  have hall := reactive_tracer_detached onceOptions "b" true feedbackEvents fun _ => feedback_lawful
  have hready : (((start true).runs onceOptions "b" 9 feedbackEvents).toOption.any fun s => !s.moment) = true := by
    decide +kernel
  cases hruns : (start true).runs onceOptions "b" 9 feedbackEvents with
  | error e =>
    rw [hruns] at hready
    cases hready
  | ok s =>
    rw [hruns] at hready
    have hdetached : feedbackSurroundings.attached s.moment = false := (Bool.not_eq_true' s.moment).mp hready
    refine ⟨s, rfl, (hall.2 9 s hruns hdetached [.fire] (by simp)).mono fun s' hs' => ?_⟩
    exact ⟨hs'.1, hs'.2.1, hs'.2.2.1, hs'.2.2.2.1, hs'.2.2.2.2 (by simp)⟩

end start

end LainLang.Tracer
