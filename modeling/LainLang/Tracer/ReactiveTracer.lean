import LainLang.Tracer.Rebuild
import Mathlib.Data.List.Chain
/-!
# The reactive tracer

`trace_upstream_reactively` walks upstream from its root, taps every cell it visits,
and walks again when a tap fires. Fires are gathered: the first one queues a
microtask, and those that come before it runs do nothing. The network changes while
the tracer runs, so a run is a list of events in any order: activations, fires, the
two halves of a microtask, and changes of the network.

No order of events queues two microtasks, loses a tap or a fire, or lets a tracer
that was taken off its root write.
-/
open LainLang.Lib LainLang.Js

namespace LainLang.Tracer

/-- The networks a tracer meets, one for each moment. It is `attached` while it is a
neighbour of its root. -/
structure Surroundings where
  Moment : Type
  lib : Moment → CellLibrary
  root : ∀ m, (lib m).Cell
  attached : Moment → Bool

/-! ## What a tracer shows -/

/-- What was emitted is what was walked, less what had the signature of the one before. -/
structure Gathered {env : Surroundings} (max_nodes : ℤ) (walks : List (env.Moment × Walk)) (graphs : List DirectedGraph)
    (last_sig : Option String) : Prop where
  drawn : ∀ w ∈ walks, Drawn (env.root w.1) max_nodes w.2
  emitted : graphs.Sublist (walks.map fun w => w.2.graph)
  changed : graphs.IsChain fun g h => graph_signature g ≠ graph_signature h
  last_emitted : last_sig = graphs.getLast?.map graph_signature
  last_walk : last_sig = walks.getLast?.map fun w => graph_signature w.2.graph

namespace Gathered

variable {env : Surroundings} {max_nodes : ℤ} {walks : List (env.Moment × Walk)} {graphs : List DirectedGraph}
  {last_sig : Option String}

theorem start (env : Surroundings) (max_nodes : ℤ) : @Gathered env max_nodes [] [] none :=
  ⟨fun _ hw => absurd hw List.not_mem_nil, .refl _, .nil, rfl, rfl⟩

/-- A walk is shown unless the last one had its signature. -/
theorem add (h : Gathered max_nodes walks graphs last_sig) (m : env.Moment) {w : Walk}
    (hw : Drawn (env.root m) max_nodes w) :
    Gathered max_nodes (walks ++ [(m, w)]) (graphs ++ (emit_if_changed w.graph last_sig).1.toList)
      (emit_if_changed w.graph last_sig).2 := by
  have hdrawn : ∀ v ∈ walks ++ [(m, w)], Drawn (env.root v.1) max_nodes v.2 := by
    intro v hv
    rcases List.mem_append.1 hv with hv | hv
    · exact h.drawn v hv
    · rw [List.mem_singleton.1 hv]
      exact hw
  by_cases hnew : some (graph_signature w.graph) ≠ last_sig
  · have hemit : emit_if_changed w.graph last_sig = (some w.graph, some (graph_signature w.graph)) := if_pos hnew
    rw [hemit]
    refine ⟨hdrawn, ?_, ?_, ?_, ?_⟩
    · rw [List.map_append]
      exact h.emitted.append (List.Sublist.refl _)
    · refine h.changed.append (.singleton _) fun g hg g' hg' => ?_
      obtain rfl := Option.some.inj hg'
      rw [h.last_emitted, Option.mem_def.1 hg] at hnew
      exact fun heq => hnew (congrArg some heq.symm)
    · simp
    · simp
  · have hemit : emit_if_changed w.graph last_sig = (none, last_sig) := if_neg hnew
    rw [hemit]
    refine ⟨hdrawn, ?_, ?_, ?_, ?_⟩
    · rw [List.map_append, Option.toList_none]
      exact h.emitted.append (List.nil_sublist _)
    · rw [Option.toList_none, List.append_nil]
      exact h.changed
    · rw [Option.toList_none, List.append_nil]
      exact h.last_emitted
    · simpa using (not_not.1 hnew).symm

end Gathered

/-! ## The tracer -/

/-- The options that bound the tracer. -/
structure TraceUpstreamOptions where
  maxNodes : Option ℤ
  maxRebuilds : Option ℤ

def TRACER_MAX_NODES : ℤ := 2000

/-- `maxNodes`, or the default. -/
def TraceUpstreamOptions.max_nodes (options : TraceUpstreamOptions) : ℤ := options.maxNodes.getD TRACER_MAX_NODES

/-- The variables of the tracer, up to `taps`, and what it has done: `microtasks`
are queued, `rebuilding` is one that has not come to `on_after` yet. A tap is the
number of taps `created` before it. -/
structure ReactiveTracer (env : Surroundings) where
  moment : env.Moment
  self : Bool
  initialized : Bool
  pending : Bool
  rebuild_count : ℕ
  last_sig : Option String
  tapped : List String
  taps : OrdMap String ℕ
  microtasks : ℕ
  rebuilding : Bool
  created : ℕ
  disposed : List ℕ
  walks : List (env.Moment × Walk)
  emitted : List DirectedGraph

/-- What happens to a tracer. `assigned` is the end of `construct_propagator`, and
`become` a change of the network. -/
inductive TracerEvent (env : Surroundings) where
  | assigned
  | activate
  | fire
  | microtask
  | after
  | become (m : env.Moment)

variable {env : Surroundings}

namespace ReactiveTracer

/-- The tracer before its propagator is assigned. -/
def start (m : env.Moment) : ReactiveTracer env where
  moment := m
  self := false
  initialized := false
  pending := false
  rebuild_count := 0
  last_sig := none
  tapped := []
  taps := .empty
  microtasks := 0
  rebuilding := false
  created := 0
  disposed := []
  walks := []
  emitted := []

/-- Every live tap is disposed of and forgotten. -/
def dispose_taps (s : ReactiveTracer env) : ReactiveTracer env :=
  { s with disposed := s.disposed ++ s.taps.values, taps := .empty, tapped := [] }

/-- `guard_active`: an inactive tracer loses its taps. -/
def guard_active (s : ReactiveTracer env) : Bool × ReactiveTracer env :=
  if s.self = false ∨ env.attached s.moment = false then (false, s.dispose_taps) else (true, s)

/-- `max_rebuilds != null && rebuild_count >= max_rebuilds`. -/
def spent (options : TraceUpstreamOptions) (s : ReactiveTracer env) : Bool :=
  options.maxRebuilds.any fun max_rebuilds : ℤ => decide (max_rebuilds ≤ s.rebuild_count)

/-- `schedule`: at most one microtask waits. -/
def schedule (options : TraceUpstreamOptions) (s : ReactiveTracer env) : ReactiveTracer env :=
  let (active, s) := s.guard_active
  if !active then s
  else if s.pending || s.spent options then s
  else { s with pending := true, microtasks := s.microtasks + 1 }

/-- `on_fire` of a tap. -/
def on_fire (options : TraceUpstreamOptions) (s : ReactiveTracer env) : ReactiveTracer env :=
  let (active, s) := s.guard_active
  if !active then s
  else if s.spent options then s
  else s.schedule options

/-- The activation of the tracer's propagator. -/
def activate (options : TraceUpstreamOptions) (s : ReactiveTracer env) : ReactiveTracer env :=
  if s.initialized then s else schedule options { s with initialized := true }

/-- `attach_tap_if_needed`: not the gatherer, and no cell twice. -/
def attach_tap_if_needed (gatherer_id : String) (s : ReactiveTracer env) (id : String) : ReactiveTracer env :=
  if id = gatherer_id ∨ id ∈ s.tapped then s
  else { s with tapped := id :: s.tapped, taps := s.taps.set id s.created, created := s.created + 1 }

/-- What `rebuild_core` does with a walk, before `on_after`. -/
def record (gatherer_id : String) (w : Walk) (s : ReactiveTracer env) : ReactiveTracer env :=
  let s := w.visited.foldl (attach_tap_if_needed gatherer_id) s
  let shown := emit_if_changed w.graph s.last_sig
  { s with
    last_sig := shown.2
    emitted := s.emitted ++ shown.1.toList
    walks := s.walks ++ [(s.moment, w)]
    rebuilding := true }

/-- The queued microtask, up to `on_after`. A microtask runs alone. -/
def microtask (options : TraceUpstreamOptions) (gatherer_id : String) (fuel : ℕ) (s : ReactiveTracer env) :
    Run (ReactiveTracer env) :=
  if s.microtasks = 0 ∨ s.rebuilding then .ok s
  else
    let (active, s) := guard_active { s with pending := false, microtasks := s.microtasks - 1 }
    if !active then .ok s
    else do
      let w ← upstream_walk fuel (env.root s.moment) options.max_nodes
      return s.record gatherer_id w

/-- `on_after`: a rebuild is counted when it is over. -/
def on_after (s : ReactiveTracer env) : ReactiveTracer env :=
  if s.rebuilding then { s with rebuild_count := s.rebuild_count + 1, rebuilding := false } else s

/-- A tap fires once there is one, and may still fire after it was disposed. -/
def step (options : TraceUpstreamOptions) (gatherer_id : String) (fuel : ℕ) (s : ReactiveTracer env) :
    TracerEvent env → Run (ReactiveTracer env)
  | .assigned => .ok { s with self := true }
  | .activate => .ok (s.activate options)
  | .fire => .ok (if s.created = 0 then s else s.on_fire options)
  | .microtask => s.microtask options gatherer_id fuel
  | .after => .ok s.on_after
  | .become m => .ok { s with moment := m }

/-- All events of a run. -/
def runs (options : TraceUpstreamOptions) (gatherer_id : String) (fuel : ℕ) (s : ReactiveTracer env) :
    List (TracerEvent env) → Run (ReactiveTracer env)
  | [] => .ok s
  | e :: es => do
    let s ← s.step options gatherer_id fuel e
    s.runs options gatherer_id fuel es

/-! ## What every event keeps -/

/-- Each tap that was created is live for one visited cell or was disposed of once,
and as long as none was disposed of every visited cell but the gatherer has one. -/
structure TapsKept (gatherer_id : String) (s : ReactiveTracer env) : Prop where
  tapped : ∀ id, id ∈ s.tapped ↔ s.taps.has id = true
  gatherer : gatherer_id ∉ s.tapped
  accounted : (s.taps.values ++ s.disposed).Perm (List.range s.created)
  watched : s.disposed = [] → ∀ w ∈ s.walks, ∀ id ∈ w.2.visited, id = gatherer_id ∨ id ∈ s.tapped

/-- A tap is on a cell that a walk came to. -/
def OnVisited (s : ReactiveTracer env) : Prop := ∀ id ∈ s.tapped, ∃ w ∈ s.walks, id ∈ w.2.visited

/-- One microtask is queued if a rebuild is pending, none otherwise, and `slack` rebuilds
at most are above the budget. Before the first activation there is nothing. -/
structure Queued (options : TraceUpstreamOptions) (slack : ℕ) (s : ReactiveTracer env) : Prop where
  queued : s.microtasks = if s.pending then 1 else 0
  walked : s.walks.length = s.rebuild_count + s.rebuilding.toNat
  budget : ∀ m, options.maxRebuilds = some m →
    (s.rebuild_count + s.rebuilding.toNat + s.pending.toNat : ℤ) ≤ max m 0 + slack
  fresh : s.initialized = false → s.pending = false ∧ s.rebuilding = false ∧ s.created = 0

/-- What the tracer has drawn and emitted. -/
abbrev Shown (options : TraceUpstreamOptions) (s : ReactiveTracer env) : Prop :=
  Gathered options.max_nodes s.walks s.emitted s.last_sig

/-- What `guard_active` asks. -/
def Active (s : ReactiveTracer env) : Prop := s.self = true ∧ env.attached s.moment = true

instance (s : ReactiveTracer env) : Decidable s.Active := inferInstanceAs (Decidable (_ ∧ _))

section steps
variable {options : TraceUpstreamOptions} {gatherer_id : String} {slack : ℕ} {s : ReactiveTracer env}

theorem guard_active_of (h : s.Active) : s.guard_active = (true, s) :=
  if_neg (by rw [h.1, h.2]; decide)

theorem guard_active_of_not (h : ¬s.Active) : s.guard_active = (false, s.dispose_taps) := by
  refine if_pos ?_
  rw [Active, not_and_or, Bool.not_eq_true, Bool.not_eq_true] at h
  exact h

/-- A microtask that is queued walks if the tracer is attached. -/
theorem microtask_active (hqueued : s.microtasks ≠ 0) (hrebuilding : s.rebuilding = false) (hactive : s.Active) (fuel : ℕ) :
    s.microtask options gatherer_id fuel = do
      let w ← upstream_walk fuel (env.root s.moment) options.max_nodes
      return record gatherer_id w { s with pending := false, microtasks := s.microtasks - 1 } := by
  have hnone : ¬(s.microtasks = 0 ∨ s.rebuilding = true) := by
    rw [hrebuilding]
    simpa using hqueued
  have hguard : guard_active { s with pending := false, microtasks := s.microtasks - 1 } = (true, _) := guard_active_of hactive
  rw [ReactiveTracer.microtask, if_neg hnone, hguard]
  rfl

theorem microtask_inactive (hqueued : s.microtasks ≠ 0) (hrebuilding : s.rebuilding = false) (hactive : ¬s.Active)
    (fuel : ℕ) : s.microtask options gatherer_id fuel =
      .ok (dispose_taps { s with pending := false, microtasks := s.microtasks - 1 }) := by
  have hnone : ¬(s.microtasks = 0 ∨ s.rebuilding = true) := by
    rw [hrebuilding]
    simpa using hqueued
  have hguard : guard_active { s with pending := false, microtasks := s.microtasks - 1 } = (false, _) :=
    guard_active_of_not hactive
  rw [ReactiveTracer.microtask, if_neg hnone, hguard]
  rfl

theorem has_eq_false_of_values_nil {m : OrdMap String ℕ} (h : m.values = []) (id : String) : m.has id = false := by
  rw [OrdMap.values, List.map_eq_nil_iff] at h
  rw [OrdMap.has, OrdMap.get?, h]
  rfl

theorem values_set_new {m : OrdMap String ℕ} {id : String} (h : m.has id = false) (v : ℕ) :
    (m.set id v).values = m.values ++ [v] := by
  have hnew : id ∉ m.entries.map Prod.fst := by
    rw [← OrdMap.keys, ← OrdMap.has_iff_mem_keys, h]
    exact Bool.false_ne_true
  have hentries : (m.set id v).entries = m.entries ++ [(id, v)] := OrdMap.setEntries_of_notMem hnew v
  rw [OrdMap.values, hentries, List.map_append]
  rfl

theorem TapsKept.dispose_taps (h : TapsKept gatherer_id s) : TapsKept gatherer_id s.dispose_taps where
  tapped := by simp [ReactiveTracer.dispose_taps]
  gatherer := List.not_mem_nil
  accounted := by
    have hperm := List.perm_append_comm.trans h.accounted
    simpa [ReactiveTracer.dispose_taps, OrdMap.values, OrdMap.empty] using hperm
  watched := by
    intro hnone w hw id hid
    obtain ⟨hbefore, hvalues⟩ := List.append_eq_nil_iff.1 hnone
    -- There was no tap, so every visited cell is the gatherer.
    rcases h.watched hbefore w hw id hid with heq | hmem
    · exact .inl heq
    · rw [h.tapped, has_eq_false_of_values_nil hvalues] at hmem
      exact absurd hmem Bool.false_ne_true

theorem TapsKept.attach_tap (h : TapsKept gatherer_id s) (id : String) :
    TapsKept gatherer_id (s.attach_tap_if_needed gatherer_id id) := by
  unfold attach_tap_if_needed
  split
  · exact h
  · rename_i hnew
    rw [not_or] at hnew
    have hfree : s.taps.has id = false := by
      rw [← Bool.not_eq_true, ← h.tapped]
      exact hnew.2
    refine ⟨fun x => ?_, ?_, ?_, fun hnone w hw x hx => ?_⟩
    · dsimp only
      rw [List.mem_cons, OrdMap.has_set, h.tapped, Bool.or_eq_true, decide_eq_true_eq]
    · rw [List.mem_cons, not_or]
      exact ⟨Ne.symm hnew.1, h.gatherer⟩
    · dsimp only
      rw [values_set_new hfree, List.append_assoc, List.range_succ]
      have hmove : ([s.created] ++ s.disposed).Perm (s.disposed ++ [s.created]) := List.perm_append_comm
      refine (hmove.append_left s.taps.values).trans ?_
      rw [← List.append_assoc]
      exact h.accounted.append_right [s.created]
    · rcases h.watched hnone w hw x hx with heq | hmem
      · exact .inl heq
      · exact .inr (List.mem_cons_of_mem id hmem)

/-- Attaching taps changes nothing but them. -/
theorem attach_taps_frame (gatherer_id : String) (ids : List String) (s : ReactiveTracer env) :
    ∃ tapped taps created, ids.foldl (attach_tap_if_needed gatherer_id) s = { s with tapped, taps, created } := by
  induction ids generalizing s with
  | nil => exact ⟨_, _, _, rfl⟩
  | cons id ids ih =>
    obtain ⟨tapped, taps, created, h⟩ := ih (s.attach_tap_if_needed gatherer_id id)
    refine ⟨tapped, taps, created, ?_⟩
    rw [List.foldl_cons, h]
    unfold attach_tap_if_needed
    split <;> rfl

theorem tapped_attach_tap (gatherer_id : String) (s : ReactiveTracer env) (id : String) :
    s.tapped ⊆ (s.attach_tap_if_needed gatherer_id id).tapped ∧
      (id = gatherer_id ∨ id ∈ (s.attach_tap_if_needed gatherer_id id).tapped) ∧
      (s.attach_tap_if_needed gatherer_id id).tapped ⊆ id :: s.tapped := by
  unfold attach_tap_if_needed
  split
  · rename_i h
    exact ⟨List.Subset.refl _, h, List.subset_cons_self ..⟩
  · exact ⟨List.subset_cons_self .., .inr List.mem_cons_self, List.Subset.refl _⟩

/-- The taps after a walk are those before it and those of the cells it came to. -/
theorem tapped_attach_taps (gatherer_id : String) (s : ReactiveTracer env) (ids : List String) :
    let s' := ids.foldl (attach_tap_if_needed gatherer_id) s
    s.tapped ⊆ s'.tapped ∧ (∀ id ∈ ids, id = gatherer_id ∨ id ∈ s'.tapped) ∧ ∀ id ∈ s'.tapped, id ∈ ids ∨ id ∈ s.tapped := by
  induction ids generalizing s with
  | nil => exact ⟨List.Subset.refl _, fun id hid => absurd hid List.not_mem_nil, fun id hid => .inr hid⟩
  | cons id ids ih =>
    obtain ⟨hsub, hid, hone⟩ := tapped_attach_tap gatherer_id s id
    obtain ⟨hsub', hall, hfrom⟩ := ih (s.attach_tap_if_needed gatherer_id id)
    refine ⟨fun x hx => hsub' (hsub hx), fun x hx => ?_, fun x hx => ?_⟩
    · rcases List.mem_cons.1 hx with rfl | hx
      · exact hid.imp_right fun hmem => hsub' hmem
      · exact hall x hx
    · rcases hfrom x hx with hx | hx
      · exact .inl (List.mem_cons_of_mem id hx)
      · rcases List.mem_cons.1 (hone hx) with rfl | hx
        · exact .inl List.mem_cons_self
        · exact .inr hx

theorem TapsKept.attach_taps (h : TapsKept gatherer_id s) (ids : List String) :
    TapsKept gatherer_id (ids.foldl (attach_tap_if_needed gatherer_id) s) := by
  induction ids generalizing s with
  | nil => exact h
  | cons id ids ih => exact ih (h.attach_tap id)

theorem TapsKept.record (h : TapsKept gatherer_id s) (w : Walk) : TapsKept gatherer_id (s.record gatherer_id w) := by
  have hkept := h.attach_taps w.visited
  obtain ⟨-, hall, -⟩ := tapped_attach_taps gatherer_id s w.visited
  obtain ⟨tapped, taps, created, hframe⟩ := attach_taps_frame gatherer_id w.visited s
  rw [hframe] at hkept hall
  rw [ReactiveTracer.record, hframe]
  refine ⟨hkept.tapped, hkept.gatherer, hkept.accounted, fun hnone v hv id hid => ?_⟩
  rcases List.mem_append.1 hv with hv | hv
  · exact hkept.watched hnone v hv id hid
  · rw [List.mem_singleton.1 hv] at hid
    exact hall id hid

theorem OnVisited.record (h : OnVisited s) (w : Walk) : OnVisited (s.record gatherer_id w) := by
  obtain ⟨-, -, hfrom⟩ := tapped_attach_taps gatherer_id s w.visited
  obtain ⟨tapped, taps, created, hframe⟩ := attach_taps_frame gatherer_id w.visited s
  rw [hframe] at hfrom
  rw [ReactiveTracer.record, hframe]
  intro id hid
  rcases hfrom id hid with hwalk | hbefore
  · exact ⟨_, List.mem_append_right _ (List.mem_singleton_self _), hwalk⟩
  · obtain ⟨v, hv, hvisited⟩ := h id hbefore
    exact ⟨v, List.mem_append_left _ hv, hvisited⟩

theorem OnVisited.dispose_taps : OnVisited s.dispose_taps := fun _ hid => absurd hid List.not_mem_nil

theorem Queued.dispose_taps (h : Queued options slack s) : Queued options slack s.dispose_taps :=
  ⟨h.queued, h.walked, h.budget, h.fresh⟩

theorem Shown.dispose_taps (h : Shown options s) : Shown options s.dispose_taps :=
  ⟨h.drawn, h.emitted, h.changed, h.last_emitted, h.last_walk⟩

/-- The graph is shown unless the last one had its signature. -/
theorem Shown.record (h : Shown options s) {w : Walk} (hw : Drawn (env.root s.moment) options.max_nodes w) :
    Shown options (s.record gatherer_id w) := by
  obtain ⟨tapped, taps, created, hframe⟩ := attach_taps_frame gatherer_id w.visited s
  rw [ReactiveTracer.record, hframe]
  exact Gathered.add h s.moment hw

/-- All that every event keeps. -/
structure Consistent (options : TraceUpstreamOptions) (gatherer_id : String) (slack : ℕ) (s : ReactiveTracer env) : Prop where
  taps : TapsKept gatherer_id s
  visited : OnVisited s
  queue : Queued options slack s
  shown : Shown options s

theorem Consistent.start (options : TraceUpstreamOptions) (gatherer_id : String) (slack : ℕ) (m : env.Moment) :
    Consistent options gatherer_id slack (start m) where
  taps := ⟨by simp [ReactiveTracer.start], List.not_mem_nil, .refl _, fun _ w hw => absurd hw List.not_mem_nil⟩
  visited := fun _ hid => absurd hid List.not_mem_nil
  queue := ⟨rfl, rfl, fun m _ => by simp [ReactiveTracer.start]; omega, fun _ => ⟨rfl, rfl, rfl⟩⟩
  shown := .start env options.max_nodes

/-- Neither the moment nor `self` matters. -/
theorem Consistent.elsewhere (h : Consistent options gatherer_id slack s) (moment : env.Moment) (self : Bool) :
    Consistent options gatherer_id slack { s with moment, self } where
  taps := ⟨h.taps.tapped, h.taps.gatherer, h.taps.accounted, h.taps.watched⟩
  visited := h.visited
  queue := ⟨h.queue.queued, h.queue.walked, h.queue.budget, h.queue.fresh⟩
  shown := ⟨h.shown.drawn, h.shown.emitted, h.shown.changed, h.shown.last_emitted, h.shown.last_walk⟩

theorem Consistent.dispose_taps (h : Consistent options gatherer_id slack s) :
    Consistent options gatherer_id slack s.dispose_taps :=
  ⟨h.taps.dispose_taps, .dispose_taps, h.queue.dispose_taps, h.shown.dispose_taps⟩

theorem lt_of_not_spent (h : s.spent options = false) {m : ℤ} (hm : options.maxRebuilds = some m) :
    (s.rebuild_count : ℤ) < m := by
  rw [spent, hm, Option.any_some, decide_eq_false_iff_not] at h
  omega

/-- A rebuild is queued while the budget lasts; one that is running needs slack. -/
theorem Queued.queue (h : Queued options slack s) (hinit : s.initialized = true) (hslack : s.rebuilding.toNat ≤ slack)
    (hpending : s.pending = false) (hspent : s.spent options = false) :
    Queued options slack { s with pending := true, microtasks := s.microtasks + 1 } where
  queued := by
    have hnone := h.queued
    rw [hpending] at hnone
    simp [hnone]
  walked := h.walked
  budget := by
    intro m hm
    have hlt := lt_of_not_spent hspent hm
    simp only [Bool.toNat_true]
    omega
  fresh := fun hnot => absurd (hinit.symm.trans hnot) (by decide)

theorem Consistent.schedule (h : Consistent options gatherer_id slack s) (hinit : s.initialized = true)
    (hslack : s.rebuilding.toNat ≤ slack) : Consistent options gatherer_id slack (s.schedule options) := by
  unfold ReactiveTracer.schedule
  by_cases hactive : s.Active
  · rw [guard_active_of hactive]
    dsimp only
    rw [if_neg (by decide)]
    split
    · exact h
    · rename_i hfree
      rw [Bool.or_eq_true, not_or, Bool.not_eq_true, Bool.not_eq_true] at hfree
      exact ⟨⟨h.taps.tapped, h.taps.gatherer, h.taps.accounted, h.taps.watched⟩, h.visited,
        h.queue.queue hinit hslack hfree.1 hfree.2,
        ⟨h.shown.drawn, h.shown.emitted, h.shown.changed, h.shown.last_emitted, h.shown.last_walk⟩⟩
  · rw [guard_active_of_not hactive]
    exact h.dispose_taps

theorem Consistent.on_fire (h : Consistent options gatherer_id slack s) (hinit : s.initialized = true)
    (hslack : s.rebuilding.toNat ≤ slack) : Consistent options gatherer_id slack (s.on_fire options) := by
  unfold ReactiveTracer.on_fire
  by_cases hactive : s.Active
  · rw [guard_active_of hactive]
    dsimp only
    rw [if_neg (by decide)]
    split
    · exact h
    · exact h.schedule hinit hslack
  · rw [guard_active_of_not hactive]
    exact h.dispose_taps

theorem Consistent.activate (h : Consistent options gatherer_id slack s) :
    Consistent options gatherer_id slack (s.activate options) := by
  unfold ReactiveTracer.activate
  split
  · exact h
  · rename_i hnot
    obtain ⟨hpending, hrebuilding, hcreated⟩ := h.queue.fresh (Bool.not_eq_true _ ▸ hnot)
    have hstarted : Consistent options gatherer_id slack { s with initialized := true } := {
      taps := ⟨h.taps.tapped, h.taps.gatherer, h.taps.accounted, h.taps.watched⟩
      visited := h.visited
      queue := ⟨h.queue.queued, h.queue.walked, h.queue.budget, fun _ => ⟨hpending, hrebuilding, hcreated⟩⟩
      shown := ⟨h.shown.drawn, h.shown.emitted, h.shown.changed, h.shown.last_emitted, h.shown.last_walk⟩ }
    refine hstarted.schedule rfl ?_
    dsimp only
    rw [hrebuilding]
    exact Nat.zero_le slack

/-- A tap there is was created by a walk, which comes after the first activation. -/
theorem Consistent.fire (h : Consistent options gatherer_id slack s) (hslack : s.rebuilding.toNat ≤ slack) :
    Consistent options gatherer_id slack (if s.created = 0 then s else s.on_fire options) := by
  split
  · exact h
  · rename_i hcreated
    refine h.on_fire ?_ hslack
    by_contra hnot
    exact hcreated (h.queue.fresh (Bool.not_eq_true _ ▸ hnot)).2.2

/-- The rebuild that was running is counted. -/
theorem Consistent.on_after (h : Consistent options gatherer_id slack s) :
    Consistent options gatherer_id slack s.on_after := by
  unfold ReactiveTracer.on_after
  split
  · rename_i hrebuilding
    refine ⟨⟨h.taps.tapped, h.taps.gatherer, h.taps.accounted, h.taps.watched⟩, h.visited,
      ⟨h.queue.queued, ?_, fun m hm => ?_, fun hnot => ?_⟩,
      ⟨h.shown.drawn, h.shown.emitted, h.shown.changed, h.shown.last_emitted, h.shown.last_walk⟩⟩
    · have hwalked := h.queue.walked
      simpa [hrebuilding] using hwalked
    · have hbudget := h.queue.budget m hm
      rw [hrebuilding] at hbudget
      simp only [Bool.toNat_true, Bool.toNat_false] at hbudget ⊢
      push_cast at hbudget ⊢
      omega
    · obtain ⟨hpending, -, hcreated⟩ := h.queue.fresh hnot
      exact ⟨hpending, rfl, hcreated⟩
  · exact h

theorem Queued.record (h : Queued options slack s) (hinit : s.initialized = true) (hrebuilding : s.rebuilding = false)
    (w : Walk) (hpending : s.pending = false)
    (hroom : ∀ m, options.maxRebuilds = some m → (s.rebuild_count + 1 : ℤ) ≤ max m 0 + slack) :
    Queued options slack (s.record gatherer_id w) := by
  obtain ⟨tapped, taps, created, hframe⟩ := attach_taps_frame gatherer_id w.visited s
  rw [ReactiveTracer.record, hframe]
  refine ⟨h.queued, ?_, fun m hm => ?_, fun hnot => absurd (hinit.symm.trans hnot) (by decide)⟩
  · have hwalked := h.walked
    rw [hrebuilding] at hwalked
    simpa using hwalked
  · have := hroom m hm
    simp only [hpending, Bool.toNat_true, Bool.toNat_false]
    push_cast
    omega

theorem microtask_grows (options : TraceUpstreamOptions) (gatherer_id : String) (s : ReactiveTracer env) :
    Grows .outOfFuel (fun fuel => s.microtask options gatherer_id fuel) := by
  unfold ReactiveTracer.microtask
  split
  · exact .const _
  · dsimp only
    split
    · exact .const _
    · exact (upstream_walk_grows _ _).bind fun _ => .const _

theorem Queued.pending_of_microtask (h : Queued options slack s) (hsome : s.microtasks ≠ 0) : s.pending = true := by
  by_contra hnot
  have hqueued := h.queued
  rw [if_neg hnot] at hqueued
  exact hsome hqueued

theorem Consistent.microtask (henv : ∀ m, (env.lib m).Lawful) (h : Consistent options gatherer_id slack s) :
    Returns (fun fuel => s.microtask options gatherer_id fuel) (Consistent options gatherer_id slack) := by
  by_cases hruns : s.microtasks = 0 ∨ s.rebuilding = true
  · have hidle : ∀ fuel, s.microtask options gatherer_id fuel = .ok s := fun fuel => if_pos hruns
    simp only [hidle]
    exact .ok h
  · rw [not_or, Bool.not_eq_true] at hruns
    obtain ⟨hsome, hrebuilding⟩ := hruns
    have hpending := h.queue.pending_of_microtask hsome
    have hqueued : s.microtasks = 1 := by rw [h.queue.queued, if_pos hpending]
    have hinit : s.initialized = true := by
      by_contra hnot
      exact absurd (hpending.symm.trans (h.queue.fresh (Bool.not_eq_true _ ▸ hnot)).1) (by decide)
    have hroom : ∀ m, options.maxRebuilds = some m → (s.rebuild_count + 1 : ℤ) ≤ max m 0 + slack := by
      intro m hm
      have hbudget := h.queue.budget m hm
      rw [hpending, hrebuilding] at hbudget
      simpa using hbudget
    have htaken : Consistent options gatherer_id slack { s with pending := false, microtasks := s.microtasks - 1 } := by
      refine ⟨⟨h.taps.tapped, h.taps.gatherer, h.taps.accounted, h.taps.watched⟩, h.visited,
        ⟨?_, h.queue.walked, fun m hm => ?_, fun hnot => ⟨rfl, (h.queue.fresh hnot).2⟩⟩,
        ⟨h.shown.drawn, h.shown.emitted, h.shown.changed, h.shown.last_emitted, h.shown.last_walk⟩⟩
      · simp [hqueued]
      · have hbudget := h.queue.budget m hm
        simp only [hpending, Bool.toNat_true, Bool.toNat_false] at hbudget ⊢
        push_cast at hbudget ⊢
        omega
    by_cases hactive : s.Active
    · simp only [microtask_active hsome hrebuilding hactive]
      have hwalk := upstream_walk_returns (henv s.moment) (env.root s.moment) options.max_nodes
      refine hwalk.bind (upstream_walk_grows _ _) (fun w => Grows.const (pure (record gatherer_id w _))) fun w hw => ?_
      refine Returns.ok ?_
      exact ⟨htaken.taps.record w, htaken.visited.record w, htaken.queue.record hinit hrebuilding w rfl hroom,
        htaken.shown.record hw⟩
    · simp only [microtask_inactive hsome hrebuilding hactive]
      exact .ok htaken.dispose_taps

theorem step_grows (options : TraceUpstreamOptions) (gatherer_id : String) (s : ReactiveTracer env) (e : TracerEvent env) :
    Grows .outOfFuel (fun fuel => s.step options gatherer_id fuel e) := by
  cases e with
  | microtask => exact microtask_grows options gatherer_id s
  | assigned => exact .const _
  | activate => exact .const _
  | fire => exact .const _
  | after => exact .const _
  | become m => exact .const _

theorem runs_grows (options : TraceUpstreamOptions) (gatherer_id : String) (s : ReactiveTracer env)
    (es : List (TracerEvent env)) : Grows .outOfFuel (fun fuel => s.runs options gatherer_id fuel es) := by
  induction es generalizing s with
  | nil => exact .const _
  | cons e es ih => exact (step_grows options gatherer_id s e).bind fun s' => ih s'

/-- An event keeps all of it; a fire needs slack for the rebuild that is running. -/
theorem Consistent.step (henv : ∀ m, (env.lib m).Lawful) (h : Consistent options gatherer_id slack s) (e : TracerEvent env)
    (hslack : e = .fire → s.rebuilding.toNat ≤ slack) :
    Returns (fun fuel => s.step options gatherer_id fuel e) (Consistent options gatherer_id slack) := by
  cases e with
  | assigned => exact .ok (h.elsewhere s.moment true)
  | become m => exact .ok (h.elsewhere m s.self)
  | activate => exact .ok h.activate
  | after => exact .ok h.on_after
  | microtask => exact h.microtask henv
  | fire => exact .ok (h.fire (hslack rfl))

/-- Every run ends in a consistent state, from any that is. -/
theorem Consistent.runs (henv : ∀ m, (env.lib m).Lawful) (h : Consistent options gatherer_id 1 s)
    (es : List (TracerEvent env)) :
    Returns (fun fuel => s.runs options gatherer_id fuel es) (Consistent options gatherer_id 1) := by
  induction es generalizing s with
  | nil => exact .ok h
  | cons e es ih =>
    exact (h.step henv e fun _ => Bool.toNat_le _).bind (step_grows options gatherer_id s e)
      (fun s' => runs_grows options gatherer_id s' es) fun s' hs' => ih hs'

/-- No tap fires while a rebuild is running, from the walk that creates its taps to
`on_after`. -/
def Undisturbed (options : TraceUpstreamOptions) (gatherer_id : String) (fuel : ℕ) (s : ReactiveTracer env) :
    List (TracerEvent env) → Prop
  | [] => True
  | e :: es => (e = .fire → s.rebuilding = false) ∧
    ∀ s', s.step options gatherer_id fuel e = .ok s' → s'.Undisturbed options gatherer_id fuel es

/-- Without such a fire no slack is needed. -/
theorem Consistent.runs_undisturbed (henv : ∀ m, (env.lib m).Lawful) (h : Consistent options gatherer_id 0 s) {fuel : ℕ}
    {es : List (TracerEvent env)} (hes : s.Undisturbed options gatherer_id fuel es) {s' : ReactiveTracer env}
    (hs' : s.runs options gatherer_id fuel es = .ok s') : Consistent options gatherer_id 0 s' := by
  induction es generalizing s with
  | nil =>
    obtain rfl := Except.ok.inj hs'
    exact h
  | cons e es ih =>
    obtain ⟨t, ht, hs'⟩ := except_bind_eq_ok hs'
    have hslack : e = .fire → s.rebuilding.toNat ≤ 0 := by
      intro he
      rw [hes.1 he]
      exact le_rfl
    exact ih ((h.step henv e hslack).2 fuel t ht) (hes.2 t ht) hs'

end steps

end ReactiveTracer

end LainLang.Tracer
