import LainLang.Grpc.CardMetadata
import LainLang.Lib.Ledger
import LainLang.Lib.Run
/-!
# Building cards

`build_card` compiles a card's code, in an environment made for it, into a network of its
own, and replaces the one before. Whatever is added, built and removed in any order, the
networks of a card are compiled one after the other, each with the next timestamp, after
the one before was disposed of and the scheduler had run. A propagator that is tracked is
so until it is disposed of, once; those of the environments are not tracked.
-/
open LainLang.Lib

namespace LainLang.Grpc.Build

/-! ## The propagators of a card -/

/-- What the card code does to propagators, and its calls of
`execute_all_tasks_sequential`. -/
inductive BuildEffect where
  | applied (name : String) (propagator : ℕ)
  | constructed (local_env : ℕ) (name : String) (propagator : ℕ)
  | compiled (source timestamp local_env network : ℕ)
  | disposed (propagator : ℕ)
  | disposed_neighbor (propagator : ℕ)
  | executed
  deriving DecidableEq

/-- The fields of the metadata that building reads and writes. Cells, environments and
propagators are told apart by numbers. -/
structure CardMetadata where
  id : String
  card : ℕ
  compile_source : ℕ
  compile_timestamp : ℕ
  local_env : Option ℕ
  tracking_propagators : OrdMap String ℕ

/-- `next` was given to no object yet. `replaced` are the propagators of metadata that
`construct_card_metadata` put new metadata in the place of; nothing tracks them. -/
structure BuildWorld where
  next : ℕ
  card_metadata_storage : OrdMap String CardMetadata
  effects : List BuildEffect
  replaced : List ℕ

/-- No card yet. -/
def emptyWorld : BuildWorld := { next := 0, card_metadata_storage := .empty, effects := [], replaced := [] }

/-- Effects are recorded in their order. -/
def BuildWorld.emit (w : BuildWorld) (effect : BuildEffect) : BuildWorld := { w with effects := w.effects ++ [effect] }

/-- The scheduler runs what is queued. -/
def execute_all_tasks_sequential (w : BuildWorld) : BuildWorld := w.emit .executed

/-- The propagator is disposed of. -/
def dispose_propagator (w : BuildWorld) (propagator : ℕ) : BuildWorld := w.emit (.disposed propagator)

/-- The propagator is constructed and tracked under its name. -/
def tracked_apply_propagator (tracker : OrdMap String ℕ) (name : String) (w : BuildWorld) : OrdMap String ℕ × BuildWorld :=
  (tracker.set name w.next, { w with next := w.next + 1 }.emit (.applied name w.next))

/-- Stores the metadata, over that of the same id if there is one. -/
def set_card_metadata (id : String) (metadata : CardMetadata) (w : BuildWorld) : BuildWorld where
  next := w.next
  card_metadata_storage := w.card_metadata_storage.set id metadata
  effects := w.effects
  replaced := w.replaced ++ ((w.card_metadata_storage.get? id).map fun old => old.tracking_propagators.values).getD []

/-- `construct_card_metadata`: a card, its source of compiles, and its metadata. -/
def construct_card_metadata (id : String) (w : BuildWorld) : BuildWorld :=
  let card := w.next
  let compile_source := w.next + 1
  let (tracker, w) := tracked_apply_propagator .empty "unfolder" { w with next := w.next + 2 }
  let w := execute_all_tasks_sequential w
  let (tracker, w) := tracked_apply_propagator tracker "io_propagator" w
  let (tracker, w) := tracked_apply_propagator tracker "emitter_propagator" w
  let w := execute_all_tasks_sequential w
  set_card_metadata id
    { id, card, compile_source, compile_timestamp := 0, local_env := none, tracking_propagators := tracker } w

/-- The network compiled before is disposed of, and the scheduler runs. -/
def dispose_compiled (metadata : CardMetadata) (w : BuildWorld) : BuildWorld :=
  match metadata.tracking_propagators.get? "compiled_network" with
  | some network => execute_all_tasks_sequential (dispose_propagator w network)
  | none => w

/-- An accessor for each slot of the card, the dict of the environment, and the sync of
its other keys with the one around it. -/
def local_env_constructors : List String :=
  [slot_this, slot_left, slot_right, slot_above, slot_below, "extend_env", "selective_sync"]

/-- The propagator is constructed and tracked nowhere. -/
def construct_untracked (local_env : ℕ) (w : BuildWorld) (name : String) : BuildWorld :=
  { w with next := w.next + 1 }.emit (.constructed local_env name w.next)

/-- The environment that the card's code is compiled in. -/
def get_local_env (w : BuildWorld) : ℕ × BuildWorld :=
  let local_env := w.next
  (local_env, local_env_constructors.foldl (construct_untracked local_env) { w with next := w.next + 1 })

/-- The neighbors that the environment compiled in before has by then are disposed of. -/
def dispose_neighbors (neighbors : ℕ → List ℕ) (metadata : CardMetadata) (w : BuildWorld) : BuildWorld :=
  match metadata.local_env with
  | some env => (neighbors env).foldl (fun w propagator => w.emit (.disposed_neighbor propagator)) w
  | none => w

/-- `neighbors` are those that the propagator library gives for an environment. The
metadata is written where it is stored. -/
def card_metadata_build (neighbors : ℕ → List ℕ) (metadata : CardMetadata) (w : BuildWorld) : BuildWorld :=
  let w := dispose_neighbors neighbors metadata (dispose_compiled metadata w)
  let ts := metadata.compile_timestamp
  let (local_env, w) := get_local_env w
  let compiled_network := w.next
  let w := { w with next := w.next + 1 }.emit (.compiled metadata.compile_source ts local_env compiled_network)
  let metadata := { metadata with
    local_env := some local_env
    tracking_propagators := metadata.tracking_propagators.set "compiled_network" compiled_network
    compile_timestamp := ts + 1 }
  execute_all_tasks_sequential { w with card_metadata_storage := w.card_metadata_storage.set metadata.id metadata }

/-- `card_metadata_remove`: what is tracked is disposed of, and nothing else. -/
def card_metadata_remove (metadata : CardMetadata) (w : BuildWorld) : BuildWorld :=
  let w := metadata.tracking_propagators.values.foldl dispose_propagator w
  { w with card_metadata_storage := w.card_metadata_storage.delete metadata.id }

/-! ## Operations -/

/-- A call of the card API that touches the build. -/
inductive BuildOperation where
  | add_card (id : String)
  | build_card (id : String) (neighbors : ℕ → List ℕ)
  | remove_card (id : String)

/-- A card that is not stored is an error. -/
def guarantee_get_card_metadata (id : String) (w : BuildWorld) : Except CardError CardMetadata :=
  match w.card_metadata_storage.get? id with
  | none => .error (.card_metadata_not_found id)
  | some metadata => .ok metadata

/-- One call. -/
def BuildOperation.perform (w : BuildWorld) : BuildOperation → Except CardError BuildWorld
  | .add_card id => .ok (construct_card_metadata id w)
  | .build_card id neighbors => (guarantee_get_card_metadata id w).map fun metadata => card_metadata_build neighbors metadata w
  | .remove_card id => (guarantee_get_card_metadata id w).map fun metadata => card_metadata_remove metadata w

/-- An operation that throws does so before it does anything. -/
def step (w : BuildWorld) (op : BuildOperation) : BuildWorld :=
  match op.perform w with
  | .ok w' => w'
  | .error _ => w

/-! ## What the effects say -/

/-- The propagators constructed that were tracked then, in their order. -/
def made (effects : List BuildEffect) : List ℕ :=
  effects.filterMap fun effect =>
    match effect with
    | .applied _ propagator => some propagator
    | .compiled _ _ _ network => some network
    | _ => none

/-- The tracked propagators disposed of. -/
def disposed (effects : List BuildEffect) : List ℕ :=
  effects.filterMap fun effect =>
    match effect with
    | .disposed propagator => some propagator
    | _ => none

/-- The timestamps a source was compiled with, in their order. -/
def timestamps (source : ℕ) (effects : List BuildEffect) : List ℕ :=
  effects.filterMap fun effect =>
    match effect with
    | .compiled source' timestamp _ _ => if source' = source then some timestamp else none
    | _ => none

/-- The networks a source was compiled to. -/
def networks (source : ℕ) (effects : List BuildEffect) : List ℕ :=
  effects.filterMap fun effect =>
    match effect with
    | .compiled source' _ _ network => if source' = source then some network else none
    | _ => none

/-- The network was disposed of, and the scheduler ran right after that. -/
def Retired (network : ℕ) (effects : List BuildEffect) : Prop :=
  ∃ before after, effects = before ++ .disposed network :: .executed :: after

/-- Whenever a source is compiled, the networks it was compiled to before are retired. -/
def OneByOne (effects : List BuildEffect) : Prop :=
  ∀ before source timestamp local_env network after,
    effects = before ++ .compiled source timestamp local_env network :: after →
    ∀ earlier ∈ networks source before, Retired earlier before

/-- The propagator is tracked under the name by the card. -/
def BuildWorld.Tracks (w : BuildWorld) (id name : String) (propagator : ℕ) : Prop :=
  ∃ metadata, w.card_metadata_storage.get? id = some metadata ∧ metadata.tracking_propagators.get? name = some propagator

/-- Tracked by a card, or by metadata that was replaced. -/
def BuildWorld.held (w : BuildWorld) : Set ℕ := {p | (∃ id name, w.Tracks id name p) ∨ p ∈ w.replaced}

/-! ## What each operation adds -/

section
variable {w : BuildWorld}

/-- The propagators that a card's metadata is constructed with. -/
def first_propagators (next : ℕ) : OrdMap String ℕ :=
  ((OrdMap.empty.set "unfolder" (next + 2)).set "io_propagator" (next + 3)).set "emitter_propagator" (next + 4)

/-- The metadata that a card is constructed with. -/
def first_metadata (id : String) (next : ℕ) : CardMetadata :=
  { id, card := next, compile_source := next + 1, compile_timestamp := 0, local_env := none
    tracking_propagators := first_propagators next }

/-- The effects of constructing a card. -/
def construction (next : ℕ) : List BuildEffect :=
  [.applied "unfolder" (next + 2), .executed, .applied "io_propagator" (next + 3),
    .applied "emitter_propagator" (next + 4), .executed]

theorem construct_card_metadata_eq (id : String) (w : BuildWorld) : construct_card_metadata id w =
    set_card_metadata id (first_metadata id w.next)
      { w with next := w.next + 5, effects := w.effects ++ construction w.next } := by
  simp [construct_card_metadata, tracked_apply_propagator, execute_all_tasks_sequential, BuildWorld.emit, first_metadata,
    first_propagators, construction]

theorem next_construct (id : String) (w : BuildWorld) : (construct_card_metadata id w).next = w.next + 5 := by
  rw [construct_card_metadata_eq]
  rfl

theorem effects_construct (id : String) (w : BuildWorld) :
    (construct_card_metadata id w).effects = w.effects ++ construction w.next := by
  rw [construct_card_metadata_eq]
  rfl

theorem storage_construct (id : String) (w : BuildWorld) : (construct_card_metadata id w).card_metadata_storage =
    w.card_metadata_storage.set id (first_metadata id w.next) := by
  rw [construct_card_metadata_eq]
  rfl

theorem stored_construct {id id' : String} {w : BuildWorld} {metadata : CardMetadata}
    (hget : (construct_card_metadata id w).card_metadata_storage.get? id' = some metadata) :
    (id' = id ∧ metadata = first_metadata id w.next) ∨ (id' ≠ id ∧ w.card_metadata_storage.get? id' = some metadata) := by
  rw [storage_construct, OrdMap.get?_set] at hget
  split at hget
  · rename_i hid
    exact .inl ⟨hid, (Option.some.inj hget).symm⟩
  · rename_i hid
    exact .inr ⟨hid, hget⟩

/-- The effects of giving up the network compiled before. -/
def retirement (metadata : CardMetadata) : List BuildEffect :=
  match metadata.tracking_propagators.get? "compiled_network" with
  | some network => [.disposed network, .executed]
  | none => []

/-- The neighbors of the environment compiled in before. -/
def old_neighbors (neighbors : ℕ → List ℕ) (metadata : CardMetadata) : List ℕ :=
  (metadata.local_env.map neighbors).getD []

/-- The effects of making an environment. -/
def environment (local_env : ℕ) : List BuildEffect :=
  [.constructed local_env slot_this (local_env + 1), .constructed local_env slot_left (local_env + 2),
    .constructed local_env slot_right (local_env + 3), .constructed local_env slot_above (local_env + 4),
    .constructed local_env slot_below (local_env + 5), .constructed local_env "extend_env" (local_env + 6),
    .constructed local_env "selective_sync" (local_env + 7)]

theorem get_local_env_eq (w : BuildWorld) :
    get_local_env w = (w.next, { w with next := w.next + 8, effects := w.effects ++ environment w.next }) := by
  simp [get_local_env, local_env_constructors, construct_untracked, BuildWorld.emit, environment]

theorem foldl_emit (effect : ℕ → BuildEffect) (ps : List ℕ) (w : BuildWorld) :
    ps.foldl (fun w p => w.emit (effect p)) w = { w with effects := w.effects ++ ps.map effect } := by
  induction ps generalizing w with
  | nil => simp
  | cons p ps ih => rw [List.foldl_cons, ih]; simp [BuildWorld.emit]

/-- What happens before a card is compiled: its last network and environment are given up
and an environment is made. -/
def preparing (neighbors : ℕ → List ℕ) (metadata : CardMetadata) (local_env : ℕ) : List BuildEffect :=
  retirement metadata ++ (old_neighbors neighbors metadata).map .disposed_neighbor ++ environment local_env

/-- The metadata that a build writes. -/
def rebuilt (metadata : CardMetadata) (next : ℕ) : CardMetadata :=
  { metadata with
    local_env := some next
    tracking_propagators := metadata.tracking_propagators.set "compiled_network" (next + 8)
    compile_timestamp := metadata.compile_timestamp + 1 }

theorem card_metadata_build_eq (neighbors : ℕ → List ℕ) (metadata : CardMetadata) (w : BuildWorld) :
    card_metadata_build neighbors metadata w =
      { next := w.next + 9
        card_metadata_storage := w.card_metadata_storage.set metadata.id (rebuilt metadata w.next)
        effects := w.effects ++ (preparing neighbors metadata w.next ++
          [.compiled metadata.compile_source metadata.compile_timestamp w.next (w.next + 8), .executed])
        replaced := w.replaced } := by
  have hcompiled : dispose_compiled metadata w = { w with effects := w.effects ++ retirement metadata } := by
    unfold dispose_compiled retirement
    split <;> simp [execute_all_tasks_sequential, dispose_propagator, BuildWorld.emit]
  have hneighbors : ∀ w : BuildWorld, dispose_neighbors neighbors metadata w =
      { w with effects := w.effects ++ (old_neighbors neighbors metadata).map .disposed_neighbor } := by
    intro w
    unfold dispose_neighbors old_neighbors
    split
    · rename_i env henv
      rw [foldl_emit, henv]
      rfl
    · rename_i henv
      rw [henv]
      simp
  rw [card_metadata_build, hcompiled, hneighbors]
  simp [get_local_env_eq, execute_all_tasks_sequential, BuildWorld.emit, preparing, rebuilt]

theorem next_build (neighbors : ℕ → List ℕ) (metadata : CardMetadata) (w : BuildWorld) :
    (card_metadata_build neighbors metadata w).next = w.next + 9 := by
  rw [card_metadata_build_eq]

theorem replaced_build (neighbors : ℕ → List ℕ) (metadata : CardMetadata) (w : BuildWorld) :
    (card_metadata_build neighbors metadata w).replaced = w.replaced := by
  rw [card_metadata_build_eq]

theorem effects_build (neighbors : ℕ → List ℕ) (metadata : CardMetadata) (w : BuildWorld) :
    (card_metadata_build neighbors metadata w).effects = w.effects ++ (preparing neighbors metadata w.next ++
      [.compiled metadata.compile_source metadata.compile_timestamp w.next (w.next + 8), .executed]) := by
  rw [card_metadata_build_eq]

theorem stored_build {neighbors : ℕ → List ℕ} {metadata metadata' : CardMetadata} {w : BuildWorld} {id : String}
    (hget : (card_metadata_build neighbors metadata w).card_metadata_storage.get? id = some metadata') :
    (id = metadata.id ∧ metadata' = rebuilt metadata w.next) ∨
      (id ≠ metadata.id ∧ w.card_metadata_storage.get? id = some metadata') := by
  rw [card_metadata_build_eq, OrdMap.get?_set] at hget
  split at hget
  · rename_i hid
    exact .inl ⟨hid, (Option.some.inj hget).symm⟩
  · rename_i hid
    exact .inr ⟨hid, hget⟩

theorem card_metadata_remove_eq (metadata : CardMetadata) (w : BuildWorld) : card_metadata_remove metadata w =
    { w with
      card_metadata_storage := w.card_metadata_storage.delete metadata.id
      effects := w.effects ++ metadata.tracking_propagators.values.map .disposed } := by
  have hfold := foldl_emit .disposed metadata.tracking_propagators.values w
  exact congrArg (fun w : BuildWorld => { w with card_metadata_storage := w.card_metadata_storage.delete metadata.id }) hfold

end

/-! ## Propagators are accounted for -/

/-- Every propagator is tracked once, or was disposed of once. -/
structure Tracked (w : BuildWorld) : Prop where
  balanced : Balanced (made w.effects) w.held (disposed w.effects)
  made_lt : ∀ p ∈ made w.effects, p < w.next
  own_id : ∀ id metadata, w.card_metadata_storage.get? id = some metadata → metadata.id = id
  tracks_once : ∀ id name id' name' p, w.Tracks id name p → w.Tracks id' name' p → id = id' ∧ name = name'
  replaced_apart : ∀ p ∈ w.replaced, ∀ id name, ¬w.Tracks id name p

theorem tracked_emptyWorld : Tracked emptyWorld where
  balanced := by
    have hheld : emptyWorld.held = ∅ := by
      ext p
      simp [BuildWorld.held, BuildWorld.Tracks, emptyWorld]
    rw [hheld]
    exact .start
  made_lt := by simp [made, emptyWorld]
  own_id := by simp [emptyWorld]
  tracks_once := by simp [BuildWorld.Tracks, emptyWorld]
  replaced_apart := by simp [emptyWorld]

namespace Tracked

variable {w : BuildWorld} (h : Tracked w)
include h

theorem tracks_lt {id name : String} {p : ℕ} (hp : w.Tracks id name p) : p < w.next :=
  h.made_lt p ((h.balanced.account p).2 (.inl (.inl ⟨id, name, hp⟩)))

/-- The propagators of a card are different ones. -/
theorem values_nodup {id : String} {metadata : CardMetadata} (hmem : w.card_metadata_storage.get? id = some metadata) :
    metadata.tracking_propagators.values.Nodup := by
  refine List.Nodup.map_on ?_ (List.Nodup.of_map _ metadata.tracking_propagators.nodup)
  rintro ⟨name, p⟩ hp ⟨name', p'⟩ hp' heq
  obtain rfl : p = p' := heq
  have hname := (h.tracks_once id name id name' p ⟨metadata, hmem, (OrdMap.mem_entries_iff ..).1 hp⟩
    ⟨metadata, hmem, (OrdMap.mem_entries_iff ..).1 hp'⟩).2
  rw [hname]

end Tracked

/-! ### What the effects of each operation make and dispose of -/

theorem made_append (effects effects' : List BuildEffect) : made (effects ++ effects') = made effects ++ made effects' :=
  List.filterMap_append

theorem disposed_append (effects effects' : List BuildEffect) :
    disposed (effects ++ effects') = disposed effects ++ disposed effects' := List.filterMap_append

theorem made_of_disposing {effects : List BuildEffect} (h : ∀ e ∈ effects, e = .executed ∨ (∃ p, e = .disposed p) ∨
    ∃ p, e = .disposed_neighbor p) : made effects = [] := by
  refine List.filterMap_eq_nil_iff.2 fun e he => ?_
  rcases h e he with rfl | ⟨p, rfl⟩ | ⟨p, rfl⟩ <;> rfl

theorem made_preparing (neighbors : ℕ → List ℕ) (metadata : CardMetadata) (local_env : ℕ) :
    made (preparing neighbors metadata local_env) = [] := by
  have henvironment : made (environment local_env) = [] := rfl
  rw [preparing, made_append, henvironment, List.append_nil]
  refine made_of_disposing fun e he => ?_
  rcases List.mem_append.1 he with he | he
  · unfold retirement at he
    split at he <;> simp_all
    tauto
  · obtain ⟨p, -, rfl⟩ := List.mem_map.1 he
    exact .inr (.inr ⟨p, rfl⟩)

theorem disposed_preparing (neighbors : ℕ → List ℕ) (metadata : CardMetadata) (local_env : ℕ) :
    disposed (preparing neighbors metadata local_env) = (metadata.tracking_propagators.get? "compiled_network").toList := by
  have henvironment : disposed (environment local_env) = [] := rfl
  have hneighbors : disposed ((old_neighbors neighbors metadata).map .disposed_neighbor) = [] :=
    List.filterMap_eq_nil_iff.2 fun e he => by obtain ⟨p, -, rfl⟩ := List.mem_map.1 he; rfl
  rw [preparing, disposed_append, disposed_append, henvironment, hneighbors, List.append_nil, List.append_nil]
  unfold retirement
  split <;> rename_i heq <;> rw [heq] <;> rfl

theorem made_build (neighbors : ℕ → List ℕ) (metadata : CardMetadata) (w : BuildWorld) :
    made (card_metadata_build neighbors metadata w).effects = made w.effects ++ [w.next + 8] := by
  rw [effects_build, made_append, made_append, made_preparing]
  rfl

theorem disposed_build (neighbors : ℕ → List ℕ) (metadata : CardMetadata) (w : BuildWorld) :
    disposed (card_metadata_build neighbors metadata w).effects =
      disposed w.effects ++ (metadata.tracking_propagators.get? "compiled_network").toList := by
  rw [effects_build, disposed_append, disposed_append, disposed_preparing]
  simp [disposed]

theorem made_map_disposed (ps : List ℕ) : made (ps.map .disposed) = [] :=
  made_of_disposing fun e he => by obtain ⟨p, -, rfl⟩ := List.mem_map.1 he; exact .inr (.inl ⟨p, rfl⟩)

theorem disposed_map_disposed (ps : List ℕ) : disposed (ps.map .disposed) = ps := by
  rw [disposed, List.filterMap_map]
  exact List.filterMap_some

/-! ### What a write of the storage tracks -/

theorem tracks_set {w w' : BuildWorld} {id : String} {metadata : CardMetadata}
    (hw' : w'.card_metadata_storage = w.card_metadata_storage.set id metadata) (id' name : String) (p : ℕ) :
    w'.Tracks id' name p ↔
      (id' = id ∧ metadata.tracking_propagators.get? name = some p) ∨ (id' ≠ id ∧ w.Tracks id' name p) := by
  unfold BuildWorld.Tracks
  rw [hw', OrdMap.get?_set]
  by_cases hid : id' = id <;> simp [hid]

theorem tracks_delete {w w' : BuildWorld} {id : String}
    (hw' : w'.card_metadata_storage = w.card_metadata_storage.delete id) (id' name : String) (p : ℕ) :
    w'.Tracks id' name p ↔ id' ≠ id ∧ w.Tracks id' name p := by
  unfold BuildWorld.Tracks
  rw [hw', OrdMap.get?_delete]
  by_cases hid : id' = id <;> simp [hid]

theorem tracks_of_get {w : BuildWorld} {id : String} {metadata : CardMetadata}
    (h : w.card_metadata_storage.get? id = some metadata) (name : String) (p : ℕ) :
    w.Tracks id name p ↔ metadata.tracking_propagators.get? name = some p := by
  simp [BuildWorld.Tracks, h]

/-! ### Each operation keeps the account -/

theorem get?_first_propagators (next : ℕ) (name : String) (p : ℕ) : (first_propagators next).get? name = some p ↔
    (name = "unfolder" ∧ p = next + 2) ∨ (name = "io_propagator" ∧ p = next + 3) ∨
      (name = "emitter_propagator" ∧ p = next + 4) := by
  simp only [first_propagators, OrdMap.get?_set, OrdMap.get?_empty]
  by_cases hemitter : name = "emitter_propagator"
  · simp [hemitter, eq_comm]
  by_cases hio : name = "io_propagator"
  · simp [hio, eq_comm]
  by_cases hunfolder : name = "unfolder" <;> simp [hemitter, hio, hunfolder, eq_comm]

/-- The propagators of a new card. -/
def first_made (next : ℕ) : List ℕ := [next + 2, next + 3, next + 4]

theorem made_construct (id : String) (w : BuildWorld) :
    made (construct_card_metadata id w).effects = made w.effects ++ first_made w.next := by
  rw [effects_construct, made_append]
  rfl

theorem disposed_construct (id : String) (w : BuildWorld) :
    disposed (construct_card_metadata id w).effects = disposed w.effects := by
  rw [effects_construct, disposed_append]
  exact List.append_nil _

theorem mem_first_made {next p : ℕ} : p ∈ first_made next ↔ ∃ name, (first_propagators next).get? name = some p := by
  simp only [first_made, get?_first_propagators, List.mem_cons, List.not_mem_nil, or_false]
  constructor
  · rintro (rfl | rfl | rfl)
    · exact ⟨_, .inl ⟨rfl, rfl⟩⟩
    · exact ⟨_, .inr (.inl ⟨rfl, rfl⟩)⟩
    · exact ⟨_, .inr (.inr ⟨rfl, rfl⟩)⟩
  · rintro ⟨name, ⟨-, rfl⟩ | ⟨-, rfl⟩ | ⟨-, rfl⟩⟩ <;> simp

theorem first_made_range {next p : ℕ} (hp : p ∈ first_made next) : next ≤ p ∧ p < next + 5 := by
  simp only [first_made, List.mem_cons, List.not_mem_nil, or_false] at hp
  omega

/-- A new card tracks each of its propagators under one name. -/
theorem first_propagators_inj {next p : ℕ} {name name' : String} (h : (first_propagators next).get? name = some p)
    (h' : (first_propagators next).get? name' = some p) : name = name' := by
  rw [get?_first_propagators] at h h'
  rcases h with ⟨rfl, rfl⟩ | ⟨rfl, rfl⟩ | ⟨rfl, rfl⟩ <;> rcases h' with ⟨rfl, h'⟩ | ⟨rfl, h'⟩ | ⟨rfl, h'⟩ <;>
    first | rfl | omega

section
variable (id : String) (w : BuildWorld)

theorem tracks_construct (id' name : String) (p : ℕ) : (construct_card_metadata id w).Tracks id' name p ↔
    (id' = id ∧ (first_propagators w.next).get? name = some p) ∨ (id' ≠ id ∧ w.Tracks id' name p) :=
  tracks_set (storage_construct id w) id' name p

/-- What the metadata replaced tracked is tracked nowhere. -/
theorem mem_replaced_construct (p : ℕ) :
    p ∈ (construct_card_metadata id w).replaced ↔ p ∈ w.replaced ∨ ∃ name, w.Tracks id name p := by
  rw [construct_card_metadata_eq]
  simp only [set_card_metadata, List.mem_append, BuildWorld.Tracks]
  cases w.card_metadata_storage.get? id <;> simp [OrdMap.mem_values_iff]

theorem held_construct : (construct_card_metadata id w).held = w.held ∪ {p | p ∈ first_made w.next} := by
  ext p
  simp only [BuildWorld.held, Set.mem_ofPred_eq, Set.mem_union, tracks_construct, mem_replaced_construct, mem_first_made]
  constructor
  · rintro (⟨id', name, ⟨rfl, hp⟩ | ⟨-, htracked⟩⟩ | hp | ⟨name, htracked⟩)
    · exact .inr ⟨name, hp⟩
    · exact .inl (.inl ⟨id', name, htracked⟩)
    · exact .inl (.inr hp)
    · exact .inl (.inl ⟨id, name, htracked⟩)
  · rintro ((⟨id', name, htracked⟩ | hp) | ⟨name, hp⟩)
    · by_cases hid : id' = id
      · exact .inr (.inr ⟨name, hid ▸ htracked⟩)
      · exact .inl ⟨id', name, .inr ⟨hid, htracked⟩⟩
    · exact .inr (.inl hp)
    · exact .inl ⟨id, name, .inl ⟨rfl, hp⟩⟩

end

theorem Tracked.add {w : BuildWorld} (h : Tracked w) (id : String) : Tracked (construct_card_metadata id w) := by
  have hfresh : ∀ name p, (first_propagators w.next).get? name = some p → w.next ≤ p :=
    fun name _ hp => (first_made_range (mem_first_made.2 ⟨name, hp⟩)).1
  constructor
  · rw [made_construct, disposed_construct, held_construct]
    refine h.balanced.make (by simp [first_made]) fun p hp hmem => ?_
    exact (first_made_range hp).1.not_gt (h.made_lt p hmem)
  · rw [made_construct, next_construct]
    intro p hp
    rcases List.mem_append.1 hp with hp | hp
    · exact (h.made_lt p hp).trans (by omega)
    · exact (first_made_range hp).2
  · intro id' metadata' hget
    rcases stored_construct hget with ⟨hid, rfl⟩ | ⟨-, hold⟩
    · exact hid.symm
    · exact h.own_id id' metadata' hold
  · intro id' name id'' name' p hp hp'
    rcases (tracks_construct ..).1 hp with ⟨rfl, hnew⟩ | ⟨hid, hold⟩ <;>
      rcases (tracks_construct ..).1 hp' with ⟨rfl, hnew'⟩ | ⟨hid', hold'⟩
    · exact ⟨rfl, first_propagators_inj hnew hnew'⟩
    · exact absurd (h.tracks_lt hold') (hfresh _ _ hnew).not_gt
    · exact absurd (h.tracks_lt hold) (hfresh _ _ hnew').not_gt
    · exact h.tracks_once _ _ _ _ p hold hold'
  · intro p hp id' name htracked
    rcases (mem_replaced_construct ..).1 hp with hp | ⟨name', hp⟩
    · rcases (tracks_construct ..).1 htracked with ⟨-, hnew⟩ | ⟨-, hold⟩
      · exact (hfresh name p hnew).not_gt (h.made_lt p ((h.balanced.account p).2 (.inl (.inr hp))))
      · exact h.replaced_apart p hp id' name hold
    · rcases (tracks_construct ..).1 htracked with ⟨-, hnew⟩ | ⟨hid, hold⟩
      · exact (hfresh name p hnew).not_gt (h.tracks_lt hp)
      · exact hid (h.tracks_once _ _ _ _ p hold hp).1

/-- `card_metadata_build` of metadata that is stored. -/
theorem Tracked.tracks_build {w : BuildWorld} (h : Tracked w) {id : String} {metadata : CardMetadata}
    (hmem : w.card_metadata_storage.get? id = some metadata) (neighbors : ℕ → List ℕ) (id' name : String) (p : ℕ) :
    (card_metadata_build neighbors metadata w).Tracks id' name p ↔
      (id' = id ∧ name = "compiled_network" ∧ p = w.next + 8) ∨
        (¬(id' = id ∧ name = "compiled_network") ∧ w.Tracks id' name p) := by
  rw [card_metadata_build_eq, @tracks_set w _ metadata.id _ rfl, h.own_id id metadata hmem, rebuilt, OrdMap.get?_set]
  by_cases hid' : id' = id
  · subst hid'
    rw [tracks_of_get hmem]
    by_cases hname : name = "compiled_network" <;> simp [hname, eq_comm]
  · simp [hid']

theorem mem_old_network {w : BuildWorld} {id : String} {metadata : CardMetadata}
    (hmem : w.card_metadata_storage.get? id = some metadata) (p : ℕ) :
    p ∈ (metadata.tracking_propagators.get? "compiled_network").toList ↔ w.Tracks id "compiled_network" p := by
  rw [tracks_of_get hmem, Option.mem_toList]

/-- The network before is given up for the new one. -/
theorem Tracked.held_build {w : BuildWorld} (h : Tracked w) {id : String} {metadata : CardMetadata}
    (hmem : w.card_metadata_storage.get? id = some metadata) (neighbors : ℕ → List ℕ) :
    (card_metadata_build neighbors metadata w).held =
      (w.held \ {p | p ∈ (metadata.tracking_propagators.get? "compiled_network").toList}) ∪ {p | p ∈ [w.next + 8]} := by
  ext p
  simp only [BuildWorld.held, Set.mem_ofPred_eq, Set.mem_union, Set.mem_sdiff, mem_old_network hmem,
    h.tracks_build hmem, replaced_build, List.mem_singleton]
  constructor
  · rintro (⟨id', name, ⟨-, -, hp⟩ | ⟨hnot, htracked⟩⟩ | hp)
    · exact .inr hp
    · exact .inl ⟨.inl ⟨id', name, htracked⟩, fun hnetwork => hnot (h.tracks_once _ _ _ _ p htracked hnetwork)⟩
    · exact .inl ⟨.inr hp, h.replaced_apart p hp id "compiled_network"⟩
  · rintro (⟨⟨id', name, htracked⟩ | hp, hnot⟩ | hp)
    · refine .inl ⟨id', name, .inr ⟨?_, htracked⟩⟩
      rintro ⟨rfl, rfl⟩
      exact hnot htracked
    · exact .inr hp
    · exact .inl ⟨id, "compiled_network", .inl ⟨rfl, rfl, hp⟩⟩

theorem Tracked.build {w : BuildWorld} (h : Tracked w) {id : String} {metadata : CardMetadata}
    (hmem : w.card_metadata_storage.get? id = some metadata) (neighbors : ℕ → List ℕ) :
    Tracked (card_metadata_build neighbors metadata w) := by
  have htracks := h.tracks_build hmem neighbors
  constructor
  · rw [made_build, disposed_build, h.held_build hmem]
    refine (h.balanced.release ?_ ?_).make (List.nodup_singleton _) ?_
    · cases metadata.tracking_propagators.get? "compiled_network" <;> simp
    · exact fun p hp => .inl ⟨id, "compiled_network", (mem_old_network hmem p).1 hp⟩
    · intro p hp hmem
      have hlt := h.made_lt p hmem
      rw [List.mem_singleton] at hp
      omega
  · rw [made_build, next_build]
    intro p hp
    rcases List.mem_append.1 hp with hp | hp
    · have := h.made_lt p hp
      omega
    · rw [List.mem_singleton] at hp
      omega
  · intro id' metadata' hget
    rcases stored_build hget with ⟨rfl, rfl⟩ | ⟨-, hold⟩
    · rfl
    · exact h.own_id id' metadata' hold
  · intro id' name id'' name' p hp hp'
    rcases (htracks ..).1 hp with ⟨rfl, rfl, hnew⟩ | ⟨-, hp⟩ <;>
      rcases (htracks ..).1 hp' with ⟨rfl, rfl, hnew'⟩ | ⟨-, hp'⟩
    · exact ⟨rfl, rfl⟩
    · exact absurd (h.tracks_lt hp') (by omega)
    · exact absurd (h.tracks_lt hp) (by omega)
    · exact h.tracks_once _ _ _ _ p hp hp'
  · rw [replaced_build]
    intro p hp id' name htracked
    rcases (htracks ..).1 htracked with ⟨-, -, rfl⟩ | ⟨-, hold⟩
    · exact absurd (h.made_lt _ ((h.balanced.account _).2 (.inl (.inr hp)))) (by omega)
    · exact h.replaced_apart p hp id' name hold

theorem Tracked.remove {w : BuildWorld} (h : Tracked w) {id : String} {metadata : CardMetadata}
    (hmem : w.card_metadata_storage.get? id = some metadata) : Tracked (card_metadata_remove metadata w) := by
  have hid : metadata.id = id := h.own_id id metadata hmem
  rw [card_metadata_remove_eq, hid]
  have htracks : ∀ id' name p, BuildWorld.Tracks { w with
      card_metadata_storage := w.card_metadata_storage.delete id
      effects := w.effects ++ metadata.tracking_propagators.values.map .disposed } id' name p ↔
        id' ≠ id ∧ w.Tracks id' name p := @tracks_delete w _ id rfl
  have hvalues : ∀ p, p ∈ metadata.tracking_propagators.values ↔ ∃ name, w.Tracks id name p := by
    intro p
    simp only [OrdMap.mem_values_iff, tracks_of_get hmem]
  have hheld : BuildWorld.held { w with
      card_metadata_storage := w.card_metadata_storage.delete id
      effects := w.effects ++ metadata.tracking_propagators.values.map .disposed } =
        w.held \ {p | p ∈ metadata.tracking_propagators.values} := by
    ext p
    simp only [BuildWorld.held, Set.mem_ofPred_eq, Set.mem_sdiff, htracks, hvalues]
    constructor
    · rintro (⟨id', name, hne, htracked⟩ | hp)
      · exact ⟨.inl ⟨id', name, htracked⟩, fun ⟨name', htracked'⟩ => hne (h.tracks_once _ _ _ _ p htracked htracked').1⟩
      · exact ⟨.inr hp, fun ⟨name, htracked⟩ => h.replaced_apart p hp id name htracked⟩
    · rintro ⟨⟨id', name, htracked⟩ | hp, hnot⟩
      · exact .inl ⟨id', name, fun hid' => hnot ⟨name, hid' ▸ htracked⟩, htracked⟩
      · exact .inr hp
  constructor
  · rw [hheld]
    dsimp only
    rw [made_append, made_map_disposed, List.append_nil, disposed_append, disposed_map_disposed]
    exact h.balanced.release (h.values_nodup hmem) fun p hp =>
      let ⟨name, htracked⟩ := (hvalues p).1 hp
      .inl ⟨id, name, htracked⟩
  · dsimp only
    rw [made_append, made_map_disposed, List.append_nil]
    exact h.made_lt
  · intro id' metadata' hget
    rw [OrdMap.get?_delete] at hget
    split at hget
    · cases hget
    · exact h.own_id id' metadata' hget
  · intro id' name id'' name' p hp hp'
    exact h.tracks_once _ _ _ _ p ((htracks ..).1 hp).2 ((htracks ..).1 hp').2
  · exact fun p hp id' name htracked => h.replaced_apart p hp id' name ((htracks ..).1 htracked).2

/-! ## A source is compiled to one network after the other -/

/-- Nothing is compiled. -/
def Quiet (effects : List BuildEffect) : Prop :=
  ∀ source timestamp local_env network, .compiled source timestamp local_env network ∉ effects

theorem Quiet.append {effects effects' : List BuildEffect} (h : Quiet effects) (h' : Quiet effects') :
    Quiet (effects ++ effects') :=
  fun _ _ _ _ hmem => (List.mem_append.1 hmem).elim (h _ _ _ _) (h' _ _ _ _)

theorem quiet_preparing (neighbors : ℕ → List ℕ) (metadata : CardMetadata) (local_env : ℕ) :
    Quiet (preparing neighbors metadata local_env) := by
  refine Quiet.append (Quiet.append (fun _ _ _ _ hmem => ?_) (fun _ _ _ _ hmem => ?_)) fun _ _ _ _ hmem => ?_
  · unfold retirement at hmem
    split at hmem <;> simp at hmem
  · simp at hmem
  · simp [environment] at hmem

theorem timestamps_append (source : ℕ) (effects effects' : List BuildEffect) :
    timestamps source (effects ++ effects') = timestamps source effects ++ timestamps source effects' :=
  List.filterMap_append

theorem networks_append (source : ℕ) (effects effects' : List BuildEffect) :
    networks source (effects ++ effects') = networks source effects ++ networks source effects' :=
  List.filterMap_append

theorem Quiet.timestamps {effects : List BuildEffect} (h : Quiet effects) (source : ℕ) : timestamps source effects = [] := by
  refine List.filterMap_eq_nil_iff.2 fun e he => ?_
  cases e with
  | compiled source' timestamp local_env network => exact absurd he (h _ _ _ _)
  | _ => rfl

theorem Quiet.networks {effects : List BuildEffect} (h : Quiet effects) (source : ℕ) : networks source effects = [] := by
  refine List.filterMap_eq_nil_iff.2 fun e he => ?_
  cases e with
  | compiled source' timestamp local_env network => exact absurd he (h _ _ _ _)
  | _ => rfl

theorem Retired.append {network : ℕ} {effects : List BuildEffect} (h : Retired network effects) (effects' : List BuildEffect) :
    Retired network (effects ++ effects') := by
  obtain ⟨before, after, rfl⟩ := h
  exact ⟨before, after ++ effects', by simp⟩

theorem OneByOne.quiet {effects effects' : List BuildEffect} (h : OneByOne effects) (h' : Quiet effects') :
    OneByOne (effects ++ effects') := by
  intro before source timestamp local_env network after heq
  rcases List.append_eq_append_iff.1 heq with ⟨mid, -, rest⟩ | ⟨mid, left, rest⟩
  · exact absurd (rest ▸ by simp) (h' source timestamp local_env network)
  · cases mid with
    | nil =>
      rw [List.nil_append] at rest
      exact absurd (rest ▸ List.mem_cons_self) (h' source timestamp local_env network)
    | cons e mid =>
      obtain ⟨rfl, -⟩ := List.cons.inj rest
      exact h before source timestamp local_env network mid left

theorem OneByOne.compile {effects : List BuildEffect} (h : OneByOne effects) {source : ℕ}
    (hretired : ∀ network ∈ networks source effects, Retired network effects) (timestamp local_env network : ℕ) :
    OneByOne (effects ++ [.compiled source timestamp local_env network]) := by
  intro before source' timestamp' local_env' network' after heq
  rcases List.append_eq_append_iff.1 heq with ⟨mid, left, rest⟩ | ⟨mid, left, rest⟩
  · -- The effect compared is the new one.
    cases mid with
    | nil =>
      cases rest
      rw [left, List.append_nil]
      exact hretired
    | cons e mid => simp at rest
  · cases mid with
    | nil =>
      cases rest
      rw [List.append_nil] at left
      exact left ▸ hretired
    | cons e mid =>
      obtain ⟨rfl, -⟩ := List.cons.inj rest
      exact h before source' timestamp' local_env' network' mid left

/-- What stored metadata knows of its source. -/
structure Stamped (w : BuildWorld) (metadata : CardMetadata) : Prop where
  source_lt : metadata.compile_source < w.next
  stamps : timestamps metadata.compile_source w.effects = List.range metadata.compile_timestamp
  current : metadata.tracking_propagators.get? "compiled_network" = (networks metadata.compile_source w.effects).getLast?
  retired : ∀ network ∈ networks metadata.compile_source w.effects,
    metadata.tracking_propagators.get? "compiled_network" = some network ∨ Retired network w.effects

/-- No metadata shares its source of compiles, and each has its clock. -/
structure Clocked (w : BuildWorld) : Prop where
  stamped : ∀ id metadata, w.card_metadata_storage.get? id = some metadata → Stamped w metadata
  source_once : ∀ id metadata id' metadata', w.card_metadata_storage.get? id = some metadata →
    w.card_metadata_storage.get? id' = some metadata' → metadata.compile_source = metadata'.compile_source → id = id'
  in_order : ∀ source, ∃ n, timestamps source w.effects = List.range n
  unused : ∀ source, w.next ≤ source → timestamps source w.effects = [] ∧ networks source w.effects = []
  one_by_one : OneByOne w.effects

theorem clocked_emptyWorld : Clocked emptyWorld where
  stamped := by simp [emptyWorld]
  source_once := by simp [emptyWorld]
  in_order _ := ⟨0, rfl⟩
  unused _ _ := ⟨rfl, rfl⟩
  one_by_one := by simp [OneByOne, emptyWorld]

/-- More effects that compile nothing leave what metadata knows of its source. -/
theorem Stamped.quiet {w w' : BuildWorld} {metadata : CardMetadata} (h : Stamped w metadata) {effects : List BuildEffect}
    (hquiet : Quiet effects) (heffects : w'.effects = w.effects ++ effects) (hnext : w.next ≤ w'.next) :
    Stamped w' metadata := by
  have hnetworks : networks metadata.compile_source w'.effects = networks metadata.compile_source w.effects := by
    rw [heffects, networks_append, hquiet.networks, List.append_nil]
  constructor
  · exact h.source_lt.trans_le hnext
  · rw [heffects, timestamps_append, hquiet.timestamps, List.append_nil]
    exact h.stamps
  · rw [hnetworks]
    exact h.current
  · rw [hnetworks, heffects]
    exact fun network hmem => (h.retired network hmem).imp id fun h => h.append effects

/-- Where nothing is compiled and the metadata stored is old or of a new source. -/
theorem Clocked.quiet {w w' : BuildWorld} (h : Clocked w) {effects : List BuildEffect} (hquiet : Quiet effects)
    (heffects : w'.effects = w.effects ++ effects) (hnext : w.next ≤ w'.next)
    (hstored : ∀ id metadata, w'.card_metadata_storage.get? id = some metadata →
      w.card_metadata_storage.get? id = some metadata ∨ Stamped w' metadata)
    (honce : ∀ id metadata id' metadata', w'.card_metadata_storage.get? id = some metadata →
      w'.card_metadata_storage.get? id' = some metadata' → metadata.compile_source = metadata'.compile_source → id = id') :
    Clocked w' where
  stamped id metadata hget := (hstored id metadata hget).elim
    (fun hold => (h.stamped id metadata hold).quiet hquiet heffects hnext) fun hnew => hnew
  source_once := honce
  in_order source := by
    rw [heffects, timestamps_append, hquiet.timestamps, List.append_nil]
    exact h.in_order source
  unused source hsource := by
    rw [heffects, timestamps_append, networks_append, hquiet.timestamps, hquiet.networks, List.append_nil, List.append_nil]
    exact h.unused source (hnext.trans hsource)
  one_by_one := by
    rw [heffects]
    exact h.one_by_one.quiet hquiet

theorem quiet_construction (next : ℕ) : Quiet (construction next) := by simp [Quiet, construction]

/-- The metadata of a new card, whose source was never compiled. -/
theorem Clocked.stamped_first {w : BuildWorld} (h : Clocked w) (id : String) :
    Stamped (construct_card_metadata id w) (first_metadata id w.next) := by
  obtain ⟨hstamps, hnetworks⟩ := h.unused (w.next + 1) (by omega)
  have hnone : networks (first_metadata id w.next).compile_source (construct_card_metadata id w).effects = [] := by
    rw [effects_construct, networks_append, (quiet_construction w.next).networks, List.append_nil]
    exact hnetworks
  constructor
  · rw [next_construct]
    change w.next + 1 < w.next + 5
    omega
  · rw [effects_construct, timestamps_append, (quiet_construction w.next).timestamps, List.append_nil]
    exact hstamps
  · rw [hnone]
    simp [first_metadata, first_propagators]
  · rw [hnone]
    exact fun network hmem => absurd hmem List.not_mem_nil

theorem Clocked.add {w : BuildWorld} (h : Clocked w) (id : String) : Clocked (construct_card_metadata id w) := by
  have hunshared : ∀ id' metadata, w.card_metadata_storage.get? id' = some metadata →
      metadata.compile_source ≠ w.next + 1 := by
    intro id' metadata hget heq
    have hlt := (h.stamped id' metadata hget).source_lt
    omega
  refine h.quiet (quiet_construction w.next) (effects_construct id w) (by rw [next_construct]; omega) ?_ ?_
  · intro id' metadata' hget
    rcases stored_construct hget with ⟨-, rfl⟩ | ⟨-, hold⟩
    · exact .inr (h.stamped_first id)
    · exact .inl hold
  · intro id' metadata' id'' metadata'' hget hget' heq
    rcases stored_construct hget with ⟨hid, rfl⟩ | ⟨-, hold⟩ <;> rcases stored_construct hget' with ⟨hid', rfl⟩ | ⟨-, hold'⟩
    · exact hid.trans hid'.symm
    · exact absurd heq.symm (hunshared id'' metadata'' hold')
    · exact absurd heq (hunshared id' metadata' hold)
    · exact h.source_once id' metadata' id'' metadata'' hold hold' heq

theorem Clocked.remove {w : BuildWorld} (h : Clocked w) (metadata : CardMetadata) : Clocked (card_metadata_remove metadata w) := by
  rw [card_metadata_remove_eq]
  have hquiet : Quiet (metadata.tracking_propagators.values.map .disposed) := by simp [Quiet]
  have hold : ∀ id' metadata', (w.card_metadata_storage.delete metadata.id).get? id' = some metadata' →
      w.card_metadata_storage.get? id' = some metadata' := by
    intro id' metadata' hget
    rw [OrdMap.get?_delete] at hget
    split at hget
    · cases hget
    · exact hget
  exact h.quiet hquiet rfl le_rfl (fun id' metadata' hget => .inl (hold id' metadata' hget))
    fun id' metadata' id'' metadata'' hget hget' => h.source_once _ _ _ _ (hold _ _ hget) (hold _ _ hget')

section
variable {w : BuildWorld} {metadata : CardMetadata} (neighbors : ℕ → List ℕ)

theorem timestamps_build (source : ℕ) : timestamps source (card_metadata_build neighbors metadata w).effects =
    timestamps source w.effects ++ if metadata.compile_source = source then [metadata.compile_timestamp] else [] := by
  rw [effects_build, timestamps_append, timestamps_append, (quiet_preparing neighbors metadata w.next).timestamps,
    List.nil_append]
  by_cases heq : metadata.compile_source = source <;> simp [timestamps, heq]

theorem networks_build (source : ℕ) : networks source (card_metadata_build neighbors metadata w).effects =
    networks source w.effects ++ if metadata.compile_source = source then [w.next + 8] else [] := by
  rw [effects_build, networks_append, networks_append, (quiet_preparing neighbors metadata w.next).networks,
    List.nil_append]
  by_cases heq : metadata.compile_source = source <;> simp [networks, heq]

/-- The network before is disposed of now, those before it were earlier. -/
theorem Stamped.retired_preparing (h : Stamped w metadata) {network : ℕ}
    (hnetwork : network ∈ networks metadata.compile_source w.effects) :
    Retired network (w.effects ++ preparing neighbors metadata w.next) := by
  rcases h.retired network hnetwork with hcurrent | hretired
  · refine ⟨w.effects, (old_neighbors neighbors metadata).map .disposed_neighbor ++ environment w.next, ?_⟩
    simp [preparing, retirement, hcurrent]
  · exact hretired.append _

/-- The metadata that is built. -/
theorem Stamped.build (h : Stamped w metadata) : Stamped (card_metadata_build neighbors metadata w) (rebuilt metadata w.next) := by
  have hnetworks : networks metadata.compile_source (card_metadata_build neighbors metadata w).effects =
      networks metadata.compile_source w.effects ++ [w.next + 8] := by
    rw [networks_build, if_pos rfl]
  constructor
  · rw [next_build]
    exact h.source_lt.trans (by omega)
  · rw [rebuilt, timestamps_build, if_pos rfl, h.stamps, List.range_succ]
  · rw [rebuilt, hnetworks, List.getLast?_concat, OrdMap.get?_set, if_pos rfl]
  · intro network hnetwork
    rw [rebuilt, hnetworks] at hnetwork
    rcases List.mem_append.1 hnetwork with hnetwork | hnetwork
    · right
      rw [effects_build, ← List.append_assoc]
      exact (h.retired_preparing neighbors hnetwork).append _
    · left
      rw [rebuilt, OrdMap.get?_set, if_pos rfl, List.mem_singleton.1 hnetwork]

/-- Metadata of another source. -/
theorem Stamped.build_other {other : CardMetadata} (h : Stamped w other)
    (hne : metadata.compile_source ≠ other.compile_source) : Stamped (card_metadata_build neighbors metadata w) other := by
  have hnetworks : networks other.compile_source (card_metadata_build neighbors metadata w).effects =
      networks other.compile_source w.effects := by
    rw [networks_build, if_neg hne, List.append_nil]
  constructor
  · rw [next_build]
    exact h.source_lt.trans (by omega)
  · rw [timestamps_build, if_neg hne, List.append_nil]
    exact h.stamps
  · rw [hnetworks]
    exact h.current
  · rw [hnetworks, effects_build]
    exact fun network hnetwork => (h.retired network hnetwork).imp id fun hretired => hretired.append _

end

theorem Clocked.build {w : BuildWorld} (h : Clocked w) {metadata : CardMetadata}
    (hmem : w.card_metadata_storage.get? metadata.id = some metadata) (neighbors : ℕ → List ℕ) :
    Clocked (card_metadata_build neighbors metadata w) := by
  have hstamped := h.stamped metadata.id metadata hmem
  constructor
  · intro id' metadata' hget
    rcases stored_build hget with ⟨-, rfl⟩ | ⟨hid, hold⟩
    · exact hstamped.build neighbors
    · refine (h.stamped id' metadata' hold).build_other neighbors fun heq => hid ?_
      exact h.source_once _ _ _ _ hold hmem heq.symm
  · intro id' metadata' id'' metadata'' hget hget' heq
    rcases stored_build hget with ⟨rfl, rfl⟩ | ⟨-, hold⟩ <;> rcases stored_build hget' with ⟨rfl, rfl⟩ | ⟨-, hold'⟩
    · rfl
    · exact h.source_once _ _ _ _ hmem hold' heq
    · exact h.source_once _ _ _ _ hold hmem heq
    · exact h.source_once _ _ _ _ hold hold' heq
  · intro source
    rw [timestamps_build]
    by_cases heq : metadata.compile_source = source
    · refine ⟨metadata.compile_timestamp + 1, ?_⟩
      rw [if_pos heq, ← heq, hstamped.stamps, List.range_succ]
    · rw [if_neg heq, List.append_nil]
      exact h.in_order source
  · intro source hle
    rw [next_build] at hle
    have hne : metadata.compile_source ≠ source := by
      have := hstamped.source_lt
      omega
    rw [timestamps_build, networks_build, if_neg hne, if_neg hne, List.append_nil, List.append_nil]
    exact h.unused source (by omega)
  · have hquiet := quiet_preparing neighbors metadata w.next
    have hretired : ∀ network ∈ networks metadata.compile_source (w.effects ++ preparing neighbors metadata w.next),
        Retired network (w.effects ++ preparing neighbors metadata w.next) := by
      intro network hnetwork
      rw [networks_append, hquiet.networks, List.append_nil] at hnetwork
      exact hstamped.retired_preparing neighbors hnetwork
    have hbuilt := ((h.one_by_one.quiet hquiet).compile hretired metadata.compile_timestamp w.next (w.next + 8)).quiet
      (show Quiet [.executed] by simp [Quiet])
    rw [effects_build]
    simpa using hbuilt

/-! ## Runs of the cards -/

/-- To build or remove a card that is not stored throws. -/
theorem step_of_missing {w : BuildWorld} {id : String} (hget : w.card_metadata_storage.get? id = none)
    (neighbors : ℕ → List ℕ) : step w (.build_card id neighbors) = w ∧ step w (.remove_card id) = w := by
  constructor <;> simp [step, BuildOperation.perform, guarantee_get_card_metadata, hget, Except.map]

theorem step_of_stored {w : BuildWorld} {id : String} {metadata : CardMetadata}
    (hget : w.card_metadata_storage.get? id = some metadata) (neighbors : ℕ → List ℕ) :
    step w (.build_card id neighbors) = card_metadata_build neighbors metadata w ∧
      step w (.remove_card id) = card_metadata_remove metadata w := by
  constructor <;> simp [step, BuildOperation.perform, guarantee_get_card_metadata, hget, Except.map]

/-- A call that does not throw adds, builds or removes a card. -/
theorem step_cases (w : BuildWorld) (op : BuildOperation) : step w op = w ∨
    (∃ id, op = .add_card id ∧ step w op = construct_card_metadata id w) ∨
    (∃ id neighbors metadata, op = .build_card id neighbors ∧ w.card_metadata_storage.get? id = some metadata ∧
      step w op = card_metadata_build neighbors metadata w) ∨
    (∃ id metadata, op = .remove_card id ∧ w.card_metadata_storage.get? id = some metadata ∧
      step w op = card_metadata_remove metadata w) := by
  cases op with
  | add_card id => exact .inr (.inl ⟨id, rfl, rfl⟩)
  | build_card id neighbors =>
    cases hget : w.card_metadata_storage.get? id with
    | none => exact .inl (step_of_missing hget neighbors).1
    | some metadata => exact .inr (.inr (.inl ⟨id, neighbors, metadata, rfl, hget, (step_of_stored hget neighbors).1⟩))
  | remove_card id =>
    cases hget : w.card_metadata_storage.get? id with
    | none => exact .inl (step_of_missing hget fun _ => []).2
    | some metadata => exact .inr (.inr (.inr ⟨id, metadata, rfl, hget, (step_of_stored hget fun _ => []).2⟩))

theorem Tracked.step {w : BuildWorld} (h : Tracked w) (op : BuildOperation) : Tracked (step w op) := by
  rcases step_cases w op with heq | ⟨id, -, heq⟩ | ⟨id, neighbors, metadata, -, hget, heq⟩ | ⟨id, metadata, -, hget, heq⟩ <;>
    rw [heq]
  · exact h
  · exact h.add id
  · exact h.build hget neighbors
  · exact h.remove hget

theorem Clocked.step {w : BuildWorld} (h : Clocked w) (htracked : Tracked w) (op : BuildOperation) : Clocked (step w op) := by
  rcases step_cases w op with heq | ⟨id, -, heq⟩ | ⟨id, neighbors, metadata, -, hget, heq⟩ | ⟨id, metadata, -, -, heq⟩ <;>
    rw [heq]
  · exact h
  · exact h.add id
  · exact h.build ((htracked.own_id id metadata hget).symm ▸ hget) neighbors
  · exact h.remove metadata

/-- Whatever is added, built and removed, a card's source is compiled with the timestamps
0, 1, 2 and so on, and never before each network it was compiled to earlier was disposed
of and the scheduler had run. A card tracks the network its source was compiled to last. -/
theorem card_builds_one_by_one (ops : List BuildOperation) : Throughout step emptyWorld ops fun w =>
    OneByOne w.effects ∧ (∀ source, ∃ n, timestamps source w.effects = List.range n) ∧
    ∀ id metadata, w.card_metadata_storage.get? id = some metadata →
      timestamps metadata.compile_source w.effects = List.range metadata.compile_timestamp ∧
      metadata.tracking_propagators.get? "compiled_network" = (networks metadata.compile_source w.effects).getLast? := by
  have hboth : Throughout step emptyWorld ops fun w => Tracked w ∧ Clocked w :=
    .of_invariant ⟨tracked_emptyWorld, clocked_emptyWorld⟩ fun _ op h => ⟨h.1.step op, h.2.step h.1 op⟩
  exact hboth.mono fun w h => ⟨h.2.one_by_one, h.2.in_order, fun id metadata hget =>
    ⟨(h.2.stamped id metadata hget).stamps, (h.2.stamped id metadata hget).current⟩⟩

end LainLang.Grpc.Build
