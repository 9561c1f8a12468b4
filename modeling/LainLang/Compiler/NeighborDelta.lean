import LainLang.Lib.OrdMap
import LainLang.Lib.Run
/-!
# Neighbour deltas

`cell_neighbor_delta` reports the neighbours of a cell that it has not met before,
in any cell: its memory is one map for all of them, keyed by the neighbour. So a
propagator is reported for the first cell that is asked about it, and for no
other.
-/
open LainLang.Lib

namespace LainLang.Compiler

variable {Cell Neighbor : Type}

/-- One turn of the loop over `current.entries()`. -/
def neighbor_turn (state : List (String × Neighbor) × OrdMap String Neighbor) (entry : String × Neighbor) :
    List (String × Neighbor) × OrdMap String Neighbor :=
  if state.2.has entry.1 then state else (state.1 ++ [entry], state.2.set entry.1 entry.2)

/-- The neighbours not met before, with the ids they are filed under, and the memory
after the call. -/
def cell_neighbor_delta (current last : OrdMap String Neighbor) :
    List (String × Neighbor) × OrdMap String Neighbor :=
  current.entries.foldl neighbor_turn ([], last)

/-- The cells' neighbour maps, the memory of the delta function, and what it has
returned for each cell, all calls together. -/
structure NeighborSync (Cell Neighbor : Type) where
  neighbors : Cell → OrdMap String Neighbor
  last : OrdMap String Neighbor
  returned : Cell → List (String × Neighbor)

/-- The function made for a network: it has seen nothing. -/
def make_cell_neighbor_delta (neighbors : Cell → OrdMap String Neighbor) : NeighborSync Cell Neighbor :=
  ⟨neighbors, .empty, fun _ => []⟩

/-- A cell gets a neighbor, or the function is called. -/
inductive SyncStep (Cell Neighbor : Type) where
  | grow (cell : Cell) (id : String) (neighbor : Neighbor)
  | call (cell : Cell)

/-- A neighbour that is there stays as it is. -/
def sync_step [DecidableEq Cell] (s : NeighborSync Cell Neighbor) : SyncStep Cell Neighbor → NeighborSync Cell Neighbor
  | .grow cell id neighbor =>
    if (s.neighbors cell).has id then s
    else { s with neighbors := fun c => if c = cell then (s.neighbors cell).set id neighbor else s.neighbors c }
  | .call cell =>
    let result := cell_neighbor_delta (s.neighbors cell) s.last
    { s with
      last := result.2
      returned := fun c => if c = cell then s.returned cell ++ result.1 else s.returned c }

/-- What was returned for the cell is its neighbours, each once. -/
def Reported (s : NeighborSync Cell Neighbor) (cell : Cell) : Prop :=
  (∀ e, e ∈ s.returned cell ↔ e ∈ (s.neighbors cell).entries) ∧ (s.returned cell).Nodup

/-- In some call on the cell the propagator was one of its neighbours. -/
def Asked [DecidableEq Cell] (s : NeighborSync Cell Neighbor) (steps : List (SyncStep Cell Neighbor)) (cell : Cell)
    (id : String) : Prop :=
  ∃ pre, pre ++ [.call cell] <+: steps ∧ ((run sync_step s pre).neighbors cell).has id = true

/-! ## One call -/

theorem neighbor_loop (entries : List (String × Neighbor)) (hentries : (entries.map Prod.fst).Nodup)
    (diff : List (String × Neighbor)) (last : OrdMap String Neighbor) :
    (entries.foldl neighbor_turn (diff, last)).1 = diff ++ entries.filter (fun e => !last.has e.1) ∧
      ∀ id, (entries.foldl neighbor_turn (diff, last)).2.has id = true ↔ last.has id = true ∨ id ∈ entries.map Prod.fst := by
  induction entries generalizing diff last with
  | nil => simp
  | cons e entries ih =>
    rw [List.map_cons, List.nodup_cons] at hentries
    by_cases hlast : last.has e.1 = true
    · obtain ⟨hdiff, hhas⟩ := ih hentries.2 diff last
      have hturn : neighbor_turn (diff, last) e = (diff, last) := by simp [neighbor_turn, hlast]
      rw [List.foldl_cons, hturn]
      refine ⟨by simp [hdiff, hlast], fun id => ?_⟩
      rw [hhas, List.map_cons, List.mem_cons]
      constructor
      · rintro (h | h)
        · exact .inl h
        · exact .inr (.inr h)
      · rintro (h | rfl | h)
        · exact .inl h
        · exact .inl hlast
        · exact .inr h
    · obtain ⟨hdiff, hhas⟩ := ih hentries.2 (diff ++ [e]) (last.set e.1 e.2)
      have hturn : neighbor_turn (diff, last) e = (diff ++ [e], last.set e.1 e.2) := by simp [neighbor_turn, hlast]
      rw [List.foldl_cons, hturn]
      refine ⟨?_, fun id => ?_⟩
      · -- The id just remembered is none of those that follow.
        have hrest : entries.filter (fun f => !(last.set e.1 e.2).has f.1) = entries.filter fun f => !last.has f.1 := by
          refine List.filter_congr fun f hf => ?_
          have hne : f.1 ≠ e.1 := fun heq => hentries.1 (heq ▸ List.mem_map_of_mem hf)
          simp [hne]
        rw [hdiff, hrest, List.filter_cons_of_pos (by simpa using hlast), List.append_assoc]
        rfl
      · rw [hhas, OrdMap.has_set, List.map_cons, List.mem_cons, Bool.or_eq_true, decide_eq_true_eq]
        tauto

theorem cell_neighbor_delta_diff (current last : OrdMap String Neighbor) :
    (cell_neighbor_delta current last).1 = current.entries.filter fun e => !last.has e.1 :=
  (neighbor_loop current.entries current.nodup [] last).1

theorem cell_neighbor_delta_last (current last : OrdMap String Neighbor) (id : String) :
    (cell_neighbor_delta current last).2.has id = true ↔ last.has id = true ∨ current.has id = true := by
  rw [OrdMap.has_iff_mem_keys current]
  exact (neighbor_loop current.entries current.nodup [] last).2 id

/-! ## What has been returned -/

/-- The ids of the neighbors that calls for a cell returned. -/
def returnedIds (s : NeighborSync Cell Neighbor) (cell : Cell) : List String := (s.returned cell).map Prod.fst

/-- Only neighbours are returned, the memory is what was returned, and no id is
returned twice, for one cell or for two. -/
structure Remembers (s : NeighborSync Cell Neighbor) : Prop where
  sound : ∀ {c e}, e ∈ s.returned c → e ∈ (s.neighbors c).entries
  last : ∀ {id}, s.last.has id = true ↔ ∃ c, id ∈ returnedIds s c
  nodup : ∀ c, (returnedIds s c).Nodup
  once : ∀ {c c' id}, id ∈ returnedIds s c → id ∈ returnedIds s c' → c = c'

theorem Remembers.init (neighbors : Cell → OrdMap String Neighbor) : Remembers (make_cell_neighbor_delta neighbors) where
  sound := fun he => absurd he List.not_mem_nil
  last := by simp [make_cell_neighbor_delta, returnedIds]
  nodup := fun _ => List.nodup_nil
  once := fun hc => absurd hc List.not_mem_nil

variable [DecidableEq Cell] {s : NeighborSync Cell Neighbor}

theorem returned_call (s : NeighborSync Cell Neighbor) (cell c : Cell) :
    (sync_step s (.call cell)).returned c = if c = cell then
      s.returned cell ++ (s.neighbors cell).entries.filter (fun e => !s.last.has e.1) else s.returned c := by
  rw [sync_step, cell_neighbor_delta_diff]

theorem mem_returnedIds_call {cell c : Cell} {id : String} :
    id ∈ returnedIds (sync_step s (.call cell)) c ↔
      id ∈ returnedIds s c ∨ c = cell ∧ (s.neighbors cell).has id = true ∧ s.last.has id = false := by
  rw [OrdMap.has_iff_mem_keys]
  unfold returnedIds OrdMap.keys
  rw [returned_call]
  by_cases hc : c = cell
  · subst hc
    simp only [if_true, List.map_append, List.mem_append, true_and]
    refine or_congr Iff.rfl ⟨fun h => ?_, fun ⟨hmem, hnew⟩ => ?_⟩
    · obtain ⟨e, he, rfl⟩ := List.mem_map.1 h
      obtain ⟨hentry, hlast⟩ := List.mem_filter.1 he
      exact ⟨List.mem_map_of_mem hentry, by simpa using hlast⟩
    · obtain ⟨e, he, rfl⟩ := List.mem_map.1 hmem
      exact List.mem_map_of_mem (List.mem_filter.2 ⟨he, by simpa using hnew⟩)
  · simp [hc]

theorem Remembers.call (hs : Remembers s) (cell : Cell) : Remembers (sync_step s (.call cell)) := by
  constructor
  · intro c e he
    rw [returned_call] at he
    split at he
    · rename_i hc
      subst hc
      rcases List.mem_append.1 he with he | he
      · exact hs.sound he
      · exact (List.mem_filter.1 he).1
    · exact hs.sound he
  · intro id
    have hlast : (sync_step s (.call cell)).last.has id = true ↔ s.last.has id = true ∨ (s.neighbors cell).has id = true :=
      cell_neighbor_delta_last ..
    rw [hlast]
    constructor
    · intro h
      by_cases hmet : s.last.has id = true
      · obtain ⟨c, hc⟩ := hs.last.1 hmet
        exact ⟨c, mem_returnedIds_call.2 (.inl hc)⟩
      · exact ⟨cell, mem_returnedIds_call.2 (.inr ⟨rfl, h.resolve_left hmet, by simpa using hmet⟩)⟩
    · rintro ⟨c, hc⟩
      rcases mem_returnedIds_call.1 hc with hc | ⟨-, hneighbor, -⟩
      · exact .inl (hs.last.2 ⟨c, hc⟩)
      · exact .inr hneighbor
  · intro c
    unfold returnedIds
    rw [returned_call]
    split
    · rw [List.map_append, List.nodup_append']
      refine ⟨hs.nodup cell, (s.neighbors cell).nodup.sublist (List.filter_sublist.map _), fun id hold hnew => ?_⟩
      obtain ⟨e, he, rfl⟩ := List.mem_map.1 hnew
      have hmet := hs.last.2 ⟨cell, hold⟩
      simp [hmet] at he
    · exact hs.nodup c
  · intro c c' id hc hc'
    rw [mem_returnedIds_call] at hc hc'
    rcases hc with hc | ⟨rfl, -, hnew⟩ <;> rcases hc' with hc' | ⟨rfl, -, hnew'⟩
    · exact hs.once hc hc'
    · exact absurd (hs.last.2 ⟨c, hc⟩) (by simp [hnew'])
    · exact absurd (hs.last.2 ⟨c', hc'⟩) (by simp [hnew])
    · rfl

theorem neighbors_grow {c cell : Cell} {id : String} {neighbor : Neighbor} {e : String × Neighbor}
    (he : e ∈ (s.neighbors c).entries) : e ∈ ((sync_step s (.grow cell id neighbor)).neighbors c).entries := by
  unfold sync_step
  dsimp only
  split
  · exact he
  · rename_i hnew
    dsimp only
    split
    · rename_i hc
      subst hc
      rw [OrdMap.mem_entries_iff, OrdMap.get?_set, if_neg]
      · exact (OrdMap.mem_entries_iff ..).1 he
      · rintro rfl
        exact hnew ((OrdMap.has_iff ..).2 ⟨e.2, (OrdMap.mem_entries_iff ..).1 he⟩)
    · exact he

theorem returned_grow (s : NeighborSync Cell Neighbor) (cell : Cell) (id : String) (neighbor : Neighbor) :
    (sync_step s (.grow cell id neighbor)).returned = s.returned ∧
      (sync_step s (.grow cell id neighbor)).last = s.last := by
  unfold sync_step
  dsimp only
  split <;> exact ⟨rfl, rfl⟩

theorem Remembers.grow (hs : Remembers s) (cell : Cell) (id : String) (neighbor : Neighbor) :
    Remembers (sync_step s (.grow cell id neighbor)) := by
  obtain ⟨hreturned, hlast⟩ := returned_grow s cell id neighbor
  constructor
  · intro c e he
    rw [hreturned] at he
    exact neighbors_grow (hs.sound he)
  · unfold returnedIds
    rw [hreturned, hlast]
    exact hs.last
  · unfold returnedIds
    rw [hreturned]
    exact hs.nodup
  · unfold returnedIds
    rw [hreturned]
    exact hs.once

theorem Remembers.step (hs : Remembers s) (step : SyncStep Cell Neighbor) : Remembers (sync_step s step) := by
  cases step with
  | grow cell id neighbor => exact hs.grow cell id neighbor
  | call cell => exact hs.call cell

theorem Remembers.after (hs : Remembers s) (steps : List (SyncStep Cell Neighbor)) : Remembers (run sync_step s steps) :=
  (Throughout.of_invariant hs fun _ step h => h.step step).last

/-! ## A sequence of calls -/

/-- Every call finds its cell's neighbours reported. -/
def AllReported (s : NeighborSync Cell Neighbor) (steps : List (SyncStep Cell Neighbor)) : Prop :=
  ∀ pre cell, pre ++ [.call cell] <+: steps → Reported (run sync_step s (pre ++ [.call cell])) cell

/-- What is returned stays returned. -/
theorem returnedIds_step {c : Cell} {id : String} (h : id ∈ returnedIds s c) (step : SyncStep Cell Neighbor) :
    id ∈ returnedIds (sync_step s step) c := by
  cases step with
  | grow cell id' neighbor =>
    unfold returnedIds
    rwa [(returned_grow s cell id' neighbor).1]
  | call cell => exact mem_returnedIds_call.2 (.inl h)

theorem returnedIds_prefix {c : Cell} {id : String} {pre steps : List (SyncStep Cell Neighbor)} (hpre : pre <+: steps)
    (h : id ∈ returnedIds (run sync_step s pre) c) : id ∈ returnedIds (run sync_step s steps) c := by
  obtain ⟨rest, rfl⟩ := hpre
  rw [run_append]
  exact (Throughout.of_invariant (I := fun t => id ∈ returnedIds t c) h fun _ step h => returnedIds_step h step).last

/-- A propagator is returned for a cell only if the cell was asked about it. -/
theorem asked_of_returned {steps pre : List (SyncStep Cell Neighbor)} (hs : ∀ c, s.returned c = []) (hpre : pre <+: steps)
    {c : Cell} {id : String} (h : id ∈ returnedIds (run sync_step s pre) c) : Asked s steps c id := by
  induction pre using List.reverseRecOn with
  | nil => simp [returnedIds, hs] at h
  | append_singleton pre step ih =>
    have hbefore := (List.prefix_append pre [step]).trans hpre
    rw [run_append, run_cons, run_nil] at h
    cases step with
    | grow cell id' neighbor =>
      unfold returnedIds at h
      rw [(returned_grow _ cell id' neighbor).1] at h
      exact ih hbefore h
    | call cell =>
      rcases mem_returnedIds_call.1 h with h | ⟨rfl, hneighbor, -⟩
      · exact ih hbefore h
      · exact ⟨pre, hpre, hneighbor⟩

theorem has_of_mem_entries {m : OrdMap String Neighbor} {e : String × Neighbor} (h : e ∈ m.entries) : m.has e.1 = true :=
  (OrdMap.has_iff ..).2 ⟨e.2, (OrdMap.mem_entries_iff ..).1 h⟩

/-- A call reports the cell's neighbours if those met before were met for this cell. -/
theorem reported_call (hs : Remembers s) {cell : Cell}
    (hmet : ∀ id, (s.neighbors cell).has id = true → ∀ c, id ∈ returnedIds s c → c = cell) :
    Reported (sync_step s (.call cell)) cell := by
  have hcall := hs.call cell
  refine ⟨fun e => ⟨hcall.sound, fun he => ?_⟩, (hcall.nodup cell).of_map⟩
  have hentry : e ∈ (s.neighbors cell).entries := he
  have hid : e.1 ∈ returnedIds (sync_step s (.call cell)) cell := by
    rw [mem_returnedIds_call]
    by_cases hlast : s.last.has e.1 = true
    · obtain ⟨c, hc⟩ := hs.last.1 hlast
      obtain rfl := hmet e.1 (has_of_mem_entries hentry) c hc
      exact .inl hc
    · exact .inr ⟨rfl, has_of_mem_entries hentry, by simpa using hlast⟩
  -- The neighbour map files one neighbour under an id.
  obtain ⟨e', he', hfst⟩ := List.mem_map.1 hid
  obtain rfl := List.inj_on_of_nodup_map (s.neighbors cell).nodup (hcall.sound he') he hfst
  exact he'

/-- All calls report their cells' neighbours exactly if no two cells are asked about
one propagator. No neighbour is returned twice in any case. -/
theorem neighbor_deltas_complete_iff (neighbors : Cell → OrdMap String Neighbor) (steps : List (SyncStep Cell Neighbor)) :
    (AllReported (make_cell_neighbor_delta neighbors) steps ↔
      ∀ c c' id, Asked (make_cell_neighbor_delta neighbors) steps c id →
        Asked (make_cell_neighbor_delta neighbors) steps c' id → c = c') ∧
      ∀ cell, (returnedIds (run sync_step (make_cell_neighbor_delta neighbors) steps) cell).Nodup := by
  have hremembers := fun pre => (Remembers.init neighbors).after pre
  refine ⟨?_, (hremembers steps).nodup⟩
  constructor
  · intro h c c' id hc hc'
    have hreturned : ∀ {c}, Asked (make_cell_neighbor_delta neighbors) steps c id →
        id ∈ returnedIds (run sync_step (make_cell_neighbor_delta neighbors) steps) c := by
      rintro c ⟨pre, hpre, hneighbor⟩
      obtain ⟨v, hv⟩ := (OrdMap.has_iff ..).1 hneighbor
      refine returnedIds_prefix hpre (List.mem_map.2 ⟨(id, v), ((h pre c hpre).1 _).2 ?_, rfl⟩)
      rw [run_append, OrdMap.mem_entries_iff]
      exact hv
    exact (hremembers steps).once (hreturned hc) (hreturned hc')
  · intro h pre cell hpre
    rw [run_append]
    refine reported_call (hremembers pre) fun id hneighbor c hc => ?_
    have hpre' := (List.prefix_append pre [.call cell]).trans hpre
    exact h c cell id (asked_of_returned (fun _ => rfl) hpre' hc) ⟨pre, hpre, hneighbor⟩

/-- The second of two cells with one propagator is never told of it. -/
theorem shared_neighbor_lost : ¬ ∀ (neighbors : ℕ → OrdMap String Unit) (steps : List (SyncStep ℕ Unit)),
    AllReported (make_cell_neighbor_delta neighbors) steps := by
  intro h
  have hlast := (h (fun _ => OrdMap.empty.set "p" ()) [.call 0, .call 1] [.call 0] 1 List.prefix_rfl).1 ("p", ())
  exact absurd (hlast.2 (by decide)) (by decide)

end LainLang.Compiler
