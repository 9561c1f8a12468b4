import LainLang.Grpc.CardMetadata
/-!
# What the card code relies on the cells for

`Lawful` states the documented behaviour of the propagator library: a
constructed cell is new, `update_source_cell` substitutes what a link points
at, `p_sync_to_link` installs a permanent sync, and nothing else touches links.
`recorder` is a library that keeps exactly this record.
-/
open LainLang.Lib LainLang.Js

namespace LainLang.Grpc

namespace CellLibrary

/-- From `h` to `h'` no cell is lost, no link is re-pointed and no sync is added. -/
structure Frame (lib : CellLibrary) (h h' : lib.Heap) : Prop where
  known : ∀ c, lib.known h c → lib.known h' c
  target : ∀ c, lib.known h c → lib.target h' c = lib.target h c
  synced : ∀ x l, lib.synced h' x l ↔ lib.synced h x l

/-- `r` is a cell that was not there before, and the heap with it. -/
structure Fresh (lib : CellLibrary) (h : lib.Heap) (r : lib.Cell × lib.Heap) : Prop where
  unknown : ¬ lib.known h r.1
  known : lib.known r.2 r.1
  frame : lib.Frame h r.2

/-- Assumed of the propagator library. -/
structure Lawful (lib : CellLibrary) : Prop where
  synced_known : ∀ h x l, lib.synced h x l → lib.known h x ∧ lib.known h l
  target_known : ∀ h l c, lib.target h l = some c → lib.known h c
  construct_cell : ∀ name h, lib.Fresh h (lib.construct_cell name h)
  source_constant_cell : ∀ name h, lib.Fresh h (lib.source_constant_cell name h)
  update_known : ∀ l v h c, lib.known h c → lib.known (lib.update_source_cell l v h) c
  update_synced : ∀ l v h x m, lib.synced (lib.update_source_cell l v h) x m ↔ lib.synced h x m
  update_target : ∀ l v h, lib.known h l → lib.known h v → lib.target (lib.update_source_cell l v h) l = some v
  update_other : ∀ l v h c, lib.known h c → c ≠ l → lib.target (lib.update_source_cell l v h) c = lib.target h c
  sync_known : ∀ x l h c, lib.known h c → lib.known (lib.p_sync_to_link x l h) c
  sync_target : ∀ x l h c, lib.known h c → lib.target (lib.p_sync_to_link x l h) c = lib.target h c
  sync_synced : ∀ x l h, lib.known h x → lib.known h l → ∀ y m,
    lib.synced (lib.p_sync_to_link x l h) y m ↔ lib.synced h y m ∨ y = x ∧ m = l
  construct_propagator : ∀ inputs outputs name h, lib.Frame h (lib.construct_propagator inputs outputs name h).2
  dispose_propagator : ∀ p h, lib.Frame h (lib.dispose_propagator p h)
  execute : ∀ h, lib.Frame h (lib.execute_all_tasks_sequential h)
  seed : ∀ c h, lib.Frame h (lib.seed_with_empty_map c h)
  update_value : ∀ c name v h, lib.Frame h (lib.update_specialized_reactive_value c name v h)

variable {lib : CellLibrary}

theorem Frame.refl (h : lib.Heap) : lib.Frame h h := ⟨fun _ hc => hc, fun _ _ => rfl, fun _ _ => Iff.rfl⟩

theorem Frame.trans {h h' h'' : lib.Heap} (f : lib.Frame h h') (g : lib.Frame h' h'') : lib.Frame h h'' where
  known c hc := g.known c (f.known c hc)
  target c hc := (g.target c (f.known c hc)).trans (f.target c hc)
  synced x l := (g.synced x l).trans (f.synced x l)

/-! ### Several cells at once -/

/-- From `h` to `h'` the cells `cs` were made, and no link changed. -/
structure Allocates (lib : CellLibrary) (h h' : lib.Heap) (cs : List lib.Cell) : Prop where
  frame : lib.Frame h h'
  nodup : cs.Nodup
  unknown : ∀ c ∈ cs, ¬ lib.known h c
  known : ∀ c ∈ cs, lib.known h' c

theorem Allocates.refl (h : lib.Heap) : lib.Allocates h h [] :=
  ⟨.refl h, List.nodup_nil, fun _ => List.not_mem_nil.elim, fun _ => List.not_mem_nil.elim⟩

theorem Allocates.then {h h' h'' : lib.Heap} {cs : List lib.Cell} (a : lib.Allocates h h' cs)
    (f : lib.Frame h' h'') : lib.Allocates h h'' cs :=
  ⟨a.frame.trans f, a.nodup, a.unknown, fun c hc => f.known c (a.known c hc)⟩

theorem Allocates.make {h h' : lib.Heap} {cs : List lib.Cell} (a : lib.Allocates h h' cs)
    {r : lib.Cell × lib.Heap} (f : lib.Fresh h' r) : lib.Allocates h r.2 (cs ++ [r.1]) where
  frame := a.frame.trans f.frame
  nodup := List.nodup_append.2 ⟨a.nodup, List.nodup_singleton _, fun x hx y hy hxy => by
    rw [List.mem_singleton] at hy
    exact f.unknown (hy ▸ hxy ▸ a.known x hx)⟩
  unknown c hc := by
    rcases List.mem_append.1 hc with hc | hc
    · exact a.unknown c hc
    · rw [List.mem_singleton] at hc
      exact fun hk => f.unknown (hc ▸ a.frame.known c hk)
  known c hc := by
    rcases List.mem_append.1 hc with hc | hc
    · exact f.frame.known c (a.known c hc)
    · rw [List.mem_singleton] at hc
      exact hc ▸ f.known

/-- Each link of a list is pointed at its target, in order. -/
def pointAll (lib : CellLibrary) (ps : List (lib.Cell × lib.Cell)) (h : lib.Heap) : lib.Heap :=
  ps.foldl (fun h p => lib.update_source_cell p.1 p.2 h) h

/-- Each source of a list is synced to its link, in order. -/
def syncAll (lib : CellLibrary) (ps : List (lib.Cell × lib.Cell)) (h : lib.Heap) : lib.Heap :=
  ps.foldl (fun h p => lib.p_sync_to_link p.1 p.2 h) h

theorem Lawful.pointAll_known (hl : lib.Lawful) (ps : List (lib.Cell × lib.Cell)) {h : lib.Heap} {c : lib.Cell}
    (hc : lib.known h c) : lib.known (lib.pointAll ps h) c := by
  induction ps generalizing h with
  | nil => exact hc
  | cons p ps ih => exact ih (hl.update_known _ _ _ _ hc)

theorem Lawful.pointAll_synced (hl : lib.Lawful) (ps : List (lib.Cell × lib.Cell)) (h : lib.Heap)
    (x l : lib.Cell) : lib.synced (lib.pointAll ps h) x l ↔ lib.synced h x l := by
  induction ps generalizing h with
  | nil => exact Iff.rfl
  | cons p ps ih => exact (ih _).trans (hl.update_synced _ _ _ _ _)

theorem Lawful.pointAll_other (hl : lib.Lawful) (ps : List (lib.Cell × lib.Cell)) {h : lib.Heap} {c : lib.Cell}
    (hc : lib.known h c) (hn : c ∉ ps.map Prod.fst) : lib.target (lib.pointAll ps h) c = lib.target h c := by
  induction ps generalizing h with
  | nil => rfl
  | cons p ps ih =>
    rw [List.map_cons, List.mem_cons, not_or] at hn
    exact (ih (hl.update_known _ _ _ _ hc) hn.2).trans (hl.update_other _ _ _ _ hc hn.1)

/-- A link pointed at twice ends at its last target. -/
theorem Lawful.pointAll_target (hl : lib.Lawful) (ps : List (lib.Cell × lib.Cell)) {h : lib.Heap}
    (hk : ∀ p ∈ ps, lib.known h p.1 ∧ lib.known h p.2) {c : lib.Cell} (hc : c ∈ ps.map Prod.fst) :
    ∃ v, (c, v) ∈ ps ∧ lib.target (lib.pointAll ps h) c = some v := by
  induction ps generalizing h with
  | nil => cases hc
  | cons p ps ih =>
    have hk' : ∀ q ∈ ps, lib.known (lib.update_source_cell p.1 p.2 h) q.1 ∧
        lib.known (lib.update_source_cell p.1 p.2 h) q.2 := fun q hq =>
      have := hk q (List.mem_cons_of_mem _ hq)
      ⟨hl.update_known _ _ _ _ this.1, hl.update_known _ _ _ _ this.2⟩
    obtain ⟨hp1, hp2⟩ := hk p List.mem_cons_self
    by_cases hin : c ∈ ps.map Prod.fst
    · obtain ⟨v, hv, ht⟩ := ih hk' hin
      exact ⟨v, List.mem_cons_of_mem _ hv, ht⟩
    · have hcp : c = p.1 := by
        rcases List.mem_cons.1 hc with h | h
        · exact h
        · exact absurd h hin
      subst hcp
      refine ⟨p.2, List.mem_cons_self, ?_⟩
      exact (hl.pointAll_other ps (hl.update_known _ _ _ _ hp1) hin).trans (hl.update_target _ _ _ hp1 hp2)

theorem Lawful.syncAll_known (hl : lib.Lawful) (ps : List (lib.Cell × lib.Cell)) {h : lib.Heap} {c : lib.Cell}
    (hc : lib.known h c) : lib.known (lib.syncAll ps h) c := by
  induction ps generalizing h with
  | nil => exact hc
  | cons p ps ih => exact ih (hl.sync_known _ _ _ _ hc)

theorem Lawful.syncAll_target (hl : lib.Lawful) (ps : List (lib.Cell × lib.Cell)) {h : lib.Heap} {c : lib.Cell}
    (hc : lib.known h c) : lib.target (lib.syncAll ps h) c = lib.target h c := by
  induction ps generalizing h with
  | nil => rfl
  | cons p ps ih => exact (ih (hl.sync_known _ _ _ _ hc)).trans (hl.sync_target _ _ _ _ hc)

theorem Lawful.syncAll_synced (hl : lib.Lawful) (ps : List (lib.Cell × lib.Cell)) {h : lib.Heap}
    (hk : ∀ p ∈ ps, lib.known h p.1 ∧ lib.known h p.2) (x l : lib.Cell) :
    lib.synced (lib.syncAll ps h) x l ↔ lib.synced h x l ∨ (x, l) ∈ ps := by
  induction ps generalizing h with
  | nil => simp [syncAll]
  | cons p ps ih =>
    obtain ⟨hp1, hp2⟩ := hk p List.mem_cons_self
    have hk' : ∀ q ∈ ps, lib.known (lib.p_sync_to_link p.1 p.2 h) q.1 ∧
        lib.known (lib.p_sync_to_link p.1 p.2 h) q.2 := fun q hq =>
      have := hk q (List.mem_cons_of_mem _ hq)
      ⟨hl.sync_known _ _ _ _ this.1, hl.sync_known _ _ _ _ this.2⟩
    rw [List.mem_cons, ← or_assoc, Prod.ext_iff, ← hl.sync_synced p.1 p.2 h hp1 hp2]
    exact ih hk'

end CellLibrary

/-! ## A library that records -/

/-- Cells as numbers, with what points where and what is synced. -/
structure RecordedHeap where
  next : ℕ
  targets : OrdMap ℕ ℕ
  syncs : List (ℕ × ℕ)
  targets_known : ∀ l c, targets.get? l = some c → l < next ∧ c < next
  syncs_known : ∀ p ∈ syncs, p.1 < next ∧ p.2 < next

namespace RecordedHeap

/-- No cell yet. -/
def empty : RecordedHeap := ⟨0, .empty, [], by simp, by simp⟩

/-- A new cell. -/
def alloc (h : RecordedHeap) : RecordedHeap where
  next := h.next + 1
  targets := h.targets
  syncs := h.syncs
  targets_known l c hlc := ⟨Nat.lt_succ_of_lt (h.targets_known l c hlc).1, Nat.lt_succ_of_lt (h.targets_known l c hlc).2⟩
  syncs_known p hp := ⟨Nat.lt_succ_of_lt (h.syncs_known p hp).1, Nat.lt_succ_of_lt (h.syncs_known p hp).2⟩

/-- A cell comes to point at another. -/
def point (h : RecordedHeap) (l v : ℕ) : RecordedHeap :=
  if hlv : l < h.next ∧ v < h.next then
    { h with
      targets := h.targets.set l v
      targets_known := fun m c hc => by
        rw [OrdMap.get?_set] at hc
        split at hc
        · rename_i hm; cases hc; subst hm; exact hlv
        · exact h.targets_known m c hc }
  else h

/-- A cell is synced into another. -/
def sync (h : RecordedHeap) (x l : ℕ) : RecordedHeap :=
  if hxl : x < h.next ∧ l < h.next then
    { h with
      syncs := (x, l) :: h.syncs
      syncs_known := fun p hp => by
        rcases List.mem_cons.1 hp with rfl | hp
        · exact hxl
        · exact h.syncs_known p hp }
  else h

theorem point_next (h : RecordedHeap) (l v : ℕ) : (h.point l v).next = h.next := by
  unfold point; split <;> rfl

theorem mem_point (h : RecordedHeap) (l v x m : ℕ) : (x, m) ∈ (h.point l v).syncs ↔ (x, m) ∈ h.syncs := by
  unfold point; split <;> rfl

theorem point_target (h : RecordedHeap) (l v c : ℕ) (hl : l < h.next) (hv : v < h.next) :
    (h.point l v).targets.get? c = if c = l then some v else h.targets.get? c := by
  rw [point, dif_pos ⟨hl, hv⟩]
  exact OrdMap.get?_set ..

theorem point_other (h : RecordedHeap) (l v c : ℕ) (hne : c ≠ l) :
    (h.point l v).targets.get? c = h.targets.get? c := by
  unfold point
  split
  · exact (OrdMap.get?_set ..).trans (if_neg hne)
  · rfl

theorem sync_next (h : RecordedHeap) (x l : ℕ) : (h.sync x l).next = h.next := by
  unfold sync; split <;> rfl

theorem sync_target (h : RecordedHeap) (x l c : ℕ) : (h.sync x l).targets.get? c = h.targets.get? c := by
  unfold sync; split <;> rfl

theorem mem_sync (h : RecordedHeap) (x l y m : ℕ) (hx : x < h.next) (hl : l < h.next) :
    (y, m) ∈ (h.sync x l).syncs ↔ (y, m) ∈ h.syncs ∨ y = x ∧ m = l := by
  rw [sync, dif_pos ⟨hx, hl⟩]
  simp [or_comm]

end RecordedHeap

/-- Cells are numbered as they are made; propagators leave no record. -/
def recorder : CellLibrary where
  Heap := RecordedHeap
  Cell := ℕ
  Propagator := Unit
  construct_cell _ h := (h.next, h.alloc)
  source_constant_cell _ h := (h.next, h.alloc)
  update_source_cell l v h := h.point l v
  p_sync_to_link x l h := h.sync x l
  construct_propagator _ _ _ h := ((), h)
  dispose_propagator _ h := h
  execute_all_tasks_sequential h := h
  seed_with_empty_map _ h := h
  holds_base_value _ _ _ := false
  update_specialized_reactive_value _ _ _ h := h
  known h c := c < h.next
  target h l := h.targets.get? l
  synced h x l := (x, l) ∈ h.syncs

theorem recorder_fresh (h : RecordedHeap) : recorder.Fresh h (h.next, h.alloc) where
  unknown := Nat.lt_irrefl h.next
  known := Nat.lt_succ_self h.next
  frame := ⟨fun _ hc => Nat.lt_succ_of_lt hc, fun _ _ => rfl, fun _ _ => Iff.rfl⟩

theorem recorder_lawful : recorder.Lawful where
  synced_known h x l hs := h.syncs_known (x, l) hs
  target_known h l c hc := (h.targets_known l c hc).2
  construct_cell _ h := recorder_fresh h
  source_constant_cell _ h := recorder_fresh h
  update_known l v h _ hc := lt_of_lt_of_eq hc (h.point_next l v).symm
  update_synced l v h x m := h.mem_point l v x m
  update_target l v h hl hv := (h.point_target l v l hl hv).trans (if_pos rfl)
  update_other l v h c _ hne := h.point_other l v c hne
  sync_known x l h _ hc := lt_of_lt_of_eq hc (h.sync_next x l).symm
  sync_target x l h c _ := h.sync_target x l c
  sync_synced x l h hx hl y m := h.mem_sync x l y m hx hl
  construct_propagator _ _ _ h := @CellLibrary.Frame.refl recorder h
  dispose_propagator _ h := @CellLibrary.Frame.refl recorder h
  execute h := @CellLibrary.Frame.refl recorder h
  seed _ h := @CellLibrary.Frame.refl recorder h
  update_value _ _ _ h := @CellLibrary.Frame.refl recorder h

end LainLang.Grpc
