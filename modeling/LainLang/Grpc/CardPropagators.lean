import LainLang.Grpc.CardBuild
/-!
# What becomes of a card's propagators

What a card tracks is disposed of with it, once. The propagators of the environments its
code was compiled in are not tracked: a rebuild disposes of the neighbors that the
environment before has by then, and the others stay whatever happens.
-/
open LainLang.Lib

namespace LainLang.Grpc.Build

/-! ## The propagators of environments -/

/-- The propagators constructed for environments, each with its environment. -/
def untracked (effects : List BuildEffect) : List (ℕ × ℕ) :=
  effects.filterMap fun effect =>
    match effect with
    | .constructed local_env _ propagator => some (local_env, propagator)
    | _ => none

/-- The propagators disposed of as neighbors of an environment. -/
def disposed_neighbors (effects : List BuildEffect) : List ℕ :=
  effects.filterMap fun effect =>
    match effect with
    | .disposed_neighbor propagator => some propagator
    | _ => none

theorem untracked_append (effects effects' : List BuildEffect) :
    untracked (effects ++ effects') = untracked effects ++ untracked effects' := List.filterMap_append

theorem disposed_neighbors_append (effects effects' : List BuildEffect) :
    disposed_neighbors (effects ++ effects') = disposed_neighbors effects ++ disposed_neighbors effects' :=
  List.filterMap_append

/-- An operation that compiles nothing neither makes an environment nor gives one up. -/
def Plain (effects : List BuildEffect) : Prop :=
  Quiet effects ∧ untracked effects = [] ∧ disposed_neighbors effects = []

theorem plain_map_disposed (ps : List ℕ) : Plain (ps.map .disposed) := by
  refine ⟨by simp [Quiet], List.filterMap_eq_nil_iff.2 fun e he => ?_, List.filterMap_eq_nil_iff.2 fun e he => ?_⟩ <;>
    (obtain ⟨p, -, rfl⟩ := List.mem_map.1 he; rfl)

/-- The propagators of one environment, seven after its number. -/
def pairs (env : ℕ) : List (ℕ × ℕ) := (List.range' (env + 1) 7).map fun p => (env, p)

theorem untracked_environment (local_env : ℕ) : untracked (environment local_env) = pairs local_env := rfl

/-- The effects of `card_metadata_build` make the seven propagators of one environment. -/
theorem untracked_build (neighbors : ℕ → List ℕ) (metadata : CardMetadata) (w : BuildWorld) :
    untracked (card_metadata_build neighbors metadata w).effects =
      untracked w.effects ++ pairs w.next := by
  have hretirement : untracked (retirement metadata) = [] := by
    unfold retirement
    split <;> rfl
  have hneighbors : untracked ((old_neighbors neighbors metadata).map .disposed_neighbor) = [] :=
    List.filterMap_eq_nil_iff.2 fun e he => by obtain ⟨p, -, rfl⟩ := List.mem_map.1 he; rfl
  rw [effects_build, untracked_append, untracked_append, preparing, untracked_append, untracked_append, hretirement, hneighbors,
    untracked_environment]
  simp [untracked]

theorem disposed_neighbors_build (neighbors : ℕ → List ℕ) (metadata : CardMetadata) (w : BuildWorld) :
    disposed_neighbors (card_metadata_build neighbors metadata w).effects =
      disposed_neighbors w.effects ++ old_neighbors neighbors metadata := by
  have hretirement : disposed_neighbors (retirement metadata) = [] := by
    unfold retirement
    split <;> rfl
  have hneighbors : disposed_neighbors ((old_neighbors neighbors metadata).map .disposed_neighbor) =
      old_neighbors neighbors metadata := by
    rw [disposed_neighbors, List.filterMap_map]
    exact List.filterMap_some
  have hrest : disposed_neighbors (environment w.next) = [] := rfl
  rw [effects_build, disposed_neighbors_append, disposed_neighbors_append, preparing, disposed_neighbors_append, disposed_neighbors_append,
    hretirement, hneighbors, hrest]
  simp [disposed_neighbors]

/-- The propagators of environments are others than those tracked, seven of each, and no
two cards have one environment. -/
structure Loose (w : BuildWorld) : Prop where
  once : ((untracked w.effects).map Prod.snd).Nodup
  lt : ∀ pair ∈ untracked w.effects, pair.1 < w.next ∧ pair.2 < w.next
  apart : ∀ pair ∈ untracked w.effects, pair.2 ∉ made w.effects
  seven : ∀ source timestamp env network, .compiled source timestamp env network ∈ w.effects →
    env < w.next ∧ ((untracked w.effects).filter fun pair => pair.1 = env).length = 7
  stored : ∀ id metadata env, w.card_metadata_storage.get? id = some metadata → metadata.local_env = some env → env < w.next
  env_once : ∀ id metadata id' metadata' env, w.card_metadata_storage.get? id = some metadata → metadata.local_env = some env →
    w.card_metadata_storage.get? id' = some metadata' → metadata'.local_env = some env → id = id'

/-- Where nothing is compiled and the metadata stored is old or has no environment. -/
theorem Loose.plain {w w' : BuildWorld} (h : Loose w) {effects : List BuildEffect} (hplain : Plain effects)
    (heffects : w'.effects = w.effects ++ effects) (hnext : w.next ≤ w'.next) (hmade : ∀ p ∈ made effects, w.next ≤ p)
    (hstored : ∀ id metadata env, w'.card_metadata_storage.get? id = some metadata → metadata.local_env = some env →
      w.card_metadata_storage.get? id = some metadata) : Loose w' := by
  have huntracked : untracked w'.effects = untracked w.effects := by
    rw [heffects, untracked_append, hplain.2.1, List.append_nil]
  constructor
  · rw [huntracked]
    exact h.once
  · rw [huntracked]
    exact fun pair hpair => ⟨(h.lt pair hpair).1.trans_le hnext, (h.lt pair hpair).2.trans_le hnext⟩
  · rw [huntracked, heffects, made_append]
    intro pair hpair hmem
    rcases List.mem_append.1 hmem with hmem | hmem
    · exact h.apart pair hpair hmem
    · exact (hmade _ hmem).not_gt (h.lt pair hpair).2
  · intro source timestamp env network hmem
    rw [heffects] at hmem
    rcases List.mem_append.1 hmem with hmem | hmem
    · rw [huntracked]
      exact ⟨(h.seven _ _ _ _ hmem).1.trans_le hnext, (h.seven _ _ _ _ hmem).2⟩
    · exact absurd hmem (hplain.1 _ _ _ _)
  · exact fun id metadata env hget henv => (h.stored id metadata env (hstored _ _ _ hget henv) henv).trans_le hnext
  · intro id metadata id' metadata' env hget henv hget' henv'
    exact h.env_once _ _ _ _ env (hstored _ _ _ hget henv) henv (hstored _ _ _ hget' henv') henv'

theorem mem_pairs {env : ℕ} {pair : ℕ × ℕ} (h : pair ∈ pairs env) : pair.1 = env ∧ env < pair.2 ∧ pair.2 < env + 8 := by
  obtain ⟨p, hp, rfl⟩ := List.mem_map.1 h
  have hrange := List.mem_range'_1.1 hp
  dsimp only
  omega

theorem filter_pairs (env env' : ℕ) : (pairs env).filter (fun pair => pair.1 = env') = if env = env' then pairs env else [] := by
  split
  · rename_i heq
    exact List.filter_eq_self.2 fun pair hpair => decide_eq_true ((mem_pairs hpair).1.trans heq)
  · rename_i hne
    exact List.filter_eq_nil_iff.2 fun pair hpair heq => hne ((mem_pairs hpair).1.symm.trans (of_decide_eq_true heq))

/-- What is compiled in a build is compiled in the new environment. -/
theorem compiled_build {neighbors : ℕ → List ℕ} {metadata : CardMetadata} {w : BuildWorld} {source timestamp env network : ℕ}
    (h : .compiled source timestamp env network ∈ (card_metadata_build neighbors metadata w).effects) :
    .compiled source timestamp env network ∈ w.effects ∨ env = w.next := by
  rw [effects_build] at h
  rcases List.mem_append.1 h with h | h
  · exact .inl h
  · rcases List.mem_append.1 h with h | h
    · exact absurd h (quiet_preparing neighbors metadata w.next _ _ _ _)
    · right
      simp only [List.mem_cons, BuildEffect.compiled.injEq, reduceCtorEq, List.not_mem_nil, or_false] at h
      exact h.2.2.1

theorem Loose.build {w : BuildWorld} (h : Loose w) (htracked : Tracked w) (metadata : CardMetadata)
    (neighbors : ℕ → List ℕ) : Loose (card_metadata_build neighbors metadata w) := by
  have huntracked := untracked_build neighbors metadata w
  constructor
  · have hnumbers : (pairs w.next).map Prod.snd = List.range' (w.next + 1) 7 := rfl
    rw [huntracked, List.map_append, hnumbers]
    refine List.Nodup.append h.once (List.nodup_range' ..) ?_
    intro p hold hfresh
    obtain ⟨pair, hpair, rfl⟩ := List.mem_map.1 hold
    have hlt := (h.lt pair hpair).2
    have hrange := List.mem_range'_1.1 hfresh
    omega
  · rw [huntracked, next_build]
    intro pair hpair
    rcases List.mem_append.1 hpair with hpair | hpair
    · have := h.lt pair hpair
      omega
    · have := mem_pairs hpair
      omega
  · rw [huntracked, made_build]
    intro pair hpair hmem
    rw [List.mem_append, List.mem_singleton] at hmem
    rcases List.mem_append.1 hpair with hpair | hpair
    · have hlt := (h.lt pair hpair).2
      rcases hmem with hmem | hmem
      · exact h.apart pair hpair hmem
      · omega
    · have hbounds := mem_pairs hpair
      rcases hmem with hmem | hmem
      · have := htracked.made_lt _ hmem
        omega
      · omega
  · intro source timestamp env network hmem
    rw [next_build, huntracked, List.filter_append, List.length_append, filter_pairs]
    rcases compiled_build hmem with hold | rfl
    · obtain ⟨hlt, hseven⟩ := h.seven _ _ _ _ hold
      rw [hseven, if_neg hlt.ne']
      exact ⟨by omega, rfl⟩
    · have hnone : (untracked w.effects).filter (fun pair => pair.1 = w.next) = [] :=
        List.filter_eq_nil_iff.2 fun pair hpair heq => (h.lt pair hpair).1.ne (of_decide_eq_true heq)
      rw [hnone, if_pos rfl]
      exact ⟨by omega, by simp [pairs]⟩
  · intro id metadata' env hget henv
    rw [next_build]
    rcases stored_build hget with ⟨-, rfl⟩ | ⟨-, hold⟩
    · cases henv
      omega
    · have := h.stored id metadata' env hold henv
      omega
  · intro id metadata' id' metadata'' env hget henv hget' henv'
    rcases stored_build hget with ⟨hid, rfl⟩ | ⟨-, hold⟩ <;> rcases stored_build hget' with ⟨hid', rfl⟩ | ⟨-, hold'⟩
    · exact hid.trans hid'.symm
    · cases henv
      exact absurd (h.stored _ _ _ hold' henv') (lt_irrefl _)
    · cases henv'
      exact absurd (h.stored _ _ _ hold henv) (lt_irrefl _)
    · exact h.env_once _ _ _ _ env hold henv hold' henv'

theorem plain_construction (next : ℕ) : Plain (construction next) := ⟨quiet_construction next, rfl, rfl⟩

/-- Metadata that has an environment is not that of a card just added. -/
theorem get?_construct {id id' : String} {w : BuildWorld} {metadata : CardMetadata} {env : ℕ}
    (hget : (construct_card_metadata id w).card_metadata_storage.get? id' = some metadata)
    (henv : metadata.local_env = some env) : id' ≠ id ∧ w.card_metadata_storage.get? id' = some metadata := by
  rcases stored_construct hget with ⟨-, rfl⟩ | hold
  · cases henv
  · exact hold

theorem get?_remove {id : String} {w : BuildWorld} {metadata metadata' : CardMetadata}
    (hget : (card_metadata_remove metadata w).card_metadata_storage.get? id = some metadata') :
    id ≠ metadata.id ∧ w.card_metadata_storage.get? id = some metadata' := by
  rw [card_metadata_remove_eq, OrdMap.get?_delete] at hget
  split at hget
  · cases hget
  · rename_i hid
    exact ⟨hid, hget⟩

theorem Loose.step {w : BuildWorld} (h : Loose w) (htracked : Tracked w) (op : BuildOperation) : Loose (step w op) := by
  rcases step_cases w op with heq | ⟨id, -, heq⟩ | ⟨id, neighbors, metadata, -, -, heq⟩ | ⟨id, metadata, -, -, heq⟩ <;>
    rw [heq]
  · exact h
  · exact h.plain (plain_construction w.next) (effects_construct id w) (by rw [next_construct]; omega)
      (fun p hp => (first_made_range hp).1) fun _ _ _ hget henv => (get?_construct hget henv).2
  · exact h.build htracked metadata neighbors
  · refine h.plain (plain_map_disposed metadata.tracking_propagators.values) (by rw [card_metadata_remove_eq])
      (by rw [card_metadata_remove_eq]) ?_ fun _ _ _ hget _ => (get?_remove hget).2
    rw [made_map_disposed]
    exact fun p hp => absurd hp List.not_mem_nil

/-! ## What an operation does to environments -/

theorem mem_untracked_step {w : BuildWorld} {op : BuildOperation} {pair : ℕ × ℕ} :
    (pair ∈ untracked w.effects → pair ∈ untracked (step w op).effects) ∧
      (pair ∈ untracked (step w op).effects → pair ∈ untracked w.effects ∨ (pair.1 = w.next ∧ w.next < pair.2)) := by
  rcases step_cases w op with heq | ⟨id, -, heq⟩ | ⟨id, neighbors, metadata, -, -, heq⟩ | ⟨id, metadata, -, -, heq⟩ <;>
    rw [heq]
  · exact ⟨fun h => h, .inl⟩
  · rw [effects_construct, untracked_append, (plain_construction w.next).2.1, List.append_nil]
    exact ⟨fun h => h, .inl⟩
  · rw [untracked_build, List.mem_append]
    refine ⟨.inl, fun h => h.imp_right fun hnew => ?_⟩
    exact ⟨(mem_pairs hnew).1, (mem_pairs hnew).2.1⟩
  · rw [card_metadata_remove_eq, untracked_append, (plain_map_disposed _).2.1, List.append_nil]
    exact ⟨fun h => h, .inl⟩

/-- Only a rebuild disposes of neighbors, those of the environment its card had. -/
theorem mem_disposed_neighbors_step {w : BuildWorld} {op : BuildOperation} {p : ℕ}
    (hp : p ∈ disposed_neighbors (step w op).effects) : p ∈ disposed_neighbors w.effects ∨
      ∃ id neighbors metadata env, op = .build_card id neighbors ∧ w.card_metadata_storage.get? id = some metadata ∧
        metadata.local_env = some env ∧ p ∈ neighbors env := by
  rcases step_cases w op with heq | ⟨id, -, heq⟩ | ⟨id, neighbors, metadata, hop, hget, heq⟩ | ⟨id, metadata, -, -, heq⟩ <;>
    rw [heq] at hp
  · exact .inl hp
  · rw [effects_construct, disposed_neighbors_append, (plain_construction w.next).2.2, List.append_nil] at hp
    exact .inl hp
  · rw [disposed_neighbors_build, List.mem_append] at hp
    refine hp.imp_right fun hp => ?_
    unfold old_neighbors at hp
    cases henv : metadata.local_env with
    | none =>
      rw [henv] at hp
      exact absurd hp List.not_mem_nil
    | some env =>
      rw [henv] at hp
      exact ⟨id, neighbors, metadata, env, hop, hget, henv, hp⟩
  · rw [card_metadata_remove_eq, disposed_neighbors_append, (plain_map_disposed _).2.2, List.append_nil] at hp
    exact .inl hp

/-- The card has the environment. -/
def BuildWorld.HasEnv (w : BuildWorld) (id : String) (env : ℕ) : Prop :=
  ∃ metadata, w.card_metadata_storage.get? id = some metadata ∧ metadata.local_env = some env

/-- An environment a card has is new, or the card had it and was left alone. -/
theorem hasEnv_step {w : BuildWorld} (htracked : Tracked w) {op : BuildOperation} {id : String} {env : ℕ}
    (h : (step w op).HasEnv id env) : env = w.next ∨
      (w.HasEnv id env ∧ op ≠ .remove_card id ∧ op ≠ .add_card id ∧ ∀ neighbors, op ≠ .build_card id neighbors) := by
  obtain ⟨metadata, hget, henv⟩ := h
  -- A card that is there and was left alone has its metadata still.
  have hkept : ∀ id', w.card_metadata_storage.get? id = some metadata → id ≠ id' → ∀ neighbors,
      op = .add_card id' ∨ op = .build_card id' neighbors ∨ op = .remove_card id' → w.HasEnv id env ∧
        op ≠ .remove_card id ∧ op ≠ .add_card id ∧ ∀ neighbors, op ≠ .build_card id neighbors := by
    intro id' hold hne neighbors hop
    refine ⟨⟨metadata, hold, henv⟩, ?_⟩
    rcases hop with rfl | rfl | rfl <;> simp [Ne.symm hne]
  cases op with
  | add_card id' =>
    obtain ⟨hne, hold⟩ := get?_construct hget henv
    exact .inr (hkept id' hold hne (fun _ => []) (.inl rfl))
  | build_card id' neighbors =>
    cases hget' : w.card_metadata_storage.get? id' with
    | none =>
      rw [(step_of_missing hget' neighbors).1] at hget
      refine .inr (hkept id' hget ?_ neighbors (.inr (.inl rfl)))
      rintro rfl
      exact absurd (hget.symm.trans hget') (Option.some_ne_none _)
    | some metadata' =>
      rw [(step_of_stored hget' neighbors).1] at hget
      rcases stored_build hget with ⟨-, rfl⟩ | ⟨hne, hold⟩
      · exact .inl (Option.some.inj henv).symm
      · rw [htracked.own_id id' metadata' hget'] at hne
        exact .inr (hkept id' hold hne neighbors (.inr (.inl rfl)))
  | remove_card id' =>
    cases hget' : w.card_metadata_storage.get? id' with
    | none =>
      rw [(step_of_missing hget' fun _ => []).2] at hget
      refine .inr (hkept id' hget ?_ (fun _ => []) (.inr (.inr rfl)))
      rintro rfl
      exact absurd (hget.symm.trans hget') (Option.some_ne_none _)
    | some metadata' =>
      rw [(step_of_stored hget' fun _ => []).2] at hget
      obtain ⟨hne, hold⟩ := get?_remove hget
      rw [htracked.own_id id' metadata' hget'] at hne
      exact .inr (hkept id' hold hne (fun _ => []) (.inr (.inr rfl)))

/-! ## What is never disposed of -/

/-- A neighbor of an environment is there already, and was not constructed for another. -/
def Attached (w : BuildWorld) (op : BuildOperation) : Prop :=
  ∀ id neighbors, op = .build_card id neighbors → ∀ env, ∀ p ∈ neighbors env,
    p < w.next ∧ ∀ pair ∈ untracked w.effects, pair.2 = p → pair.1 = env

/-- No propagator of an environment that a card has was disposed of. -/
structure Alive (w : BuildWorld) : Prop where
  lt : ∀ p ∈ disposed_neighbors w.effects, p < w.next
  alive : ∀ id env, w.HasEnv id env → ∀ pair ∈ untracked w.effects, pair.1 = env → pair.2 ∉ disposed_neighbors w.effects

/-- No card has the environment, and this propagator of it was not disposed of. -/
structure Abandoned (pair : ℕ × ℕ) (w : BuildWorld) : Prop where
  constructed : pair ∈ untracked w.effects
  left : ∀ id, ¬w.HasEnv id pair.1
  undisposed : pair.2 ∉ disposed_neighbors w.effects

section
variable {w : BuildWorld} {op : BuildOperation} {pair : ℕ × ℕ}

/-- A propagator is disposed of by a rebuild of the card that has its environment only. -/
theorem undisposed_step (hpair : pair ∈ untracked w.effects) (hnot : pair.2 ∉ disposed_neighbors w.effects)
    (hattached : Attached w op)
    (hkept : ∀ id neighbors, op = .build_card id neighbors → w.HasEnv id pair.1 → pair.2 ∉ neighbors pair.1) :
    pair.2 ∉ disposed_neighbors (step w op).effects := by
  intro hp
  rcases mem_disposed_neighbors_step hp with hold | ⟨id, neighbors, metadata, env, rfl, hget, henv, hp⟩
  · exact hnot hold
  · have hsame := (hattached id neighbors rfl env _ hp).2 pair hpair rfl
    exact hkept id neighbors rfl ⟨metadata, hget, hsame ▸ henv⟩ (hsame ▸ hp)

theorem next_le_step (w : BuildWorld) (op : BuildOperation) : w.next ≤ (step w op).next := by
  rcases step_cases w op with heq | ⟨id, -, heq⟩ | ⟨id, neighbors, metadata, -, -, heq⟩ | ⟨id, metadata, -, -, heq⟩ <;>
    rw [heq]
  · rw [next_construct]
    omega
  · rw [next_build]
    omega
  · rw [card_metadata_remove_eq]

theorem Loose.one_card (h : Loose w) {id id' : String} {env : ℕ} (henv : w.HasEnv id env) (henv' : w.HasEnv id' env) :
    id = id' := by
  obtain ⟨metadata, hget, henv⟩ := henv
  obtain ⟨metadata', hget', henv'⟩ := henv'
  exact h.env_once _ _ _ _ env hget henv hget' henv'

theorem Alive.step (h : Alive w) (htracked : Tracked w) (hloose : Loose w) (hattached : Attached w op) :
    Alive (step w op) := by
  have hlt : ∀ p ∈ disposed_neighbors (Build.step w op).effects, p < w.next := by
    intro p hp
    rcases mem_disposed_neighbors_step hp with hold | ⟨id, neighbors, metadata, env, hop, -, -, hp⟩
    · exact h.lt p hold
    · exact (hattached id neighbors hop env p hp).1
  refine ⟨fun p hp => (hlt p hp).trans_le (next_le_step w op), fun id env henv pair hpair hpe => ?_⟩
  rcases mem_untracked_step.2 hpair with hold | ⟨-, hfresh⟩
  · rcases hasEnv_step htracked henv with hnew | ⟨hbefore, -, -, hbuild⟩
    · exact absurd (hloose.lt pair hold).1 (by omega)
    · refine undisposed_step hold (h.alive id env hbefore pair hold hpe) hattached fun id' neighbors hop henv' => ?_
      obtain rfl := hloose.one_card hbefore (hpe ▸ henv')
      exact absurd hop (hbuild neighbors)
  · intro hp
    have := hlt _ hp
    omega

/-- What no card has any more is met by no rebuild. -/
theorem Abandoned.step (h : Abandoned pair w) (htracked : Tracked w) (hloose : Loose w) (hattached : Attached w op) :
    Abandoned pair (step w op) where
  constructed := mem_untracked_step.1 h.constructed
  left := by
    intro id henv
    rcases hasEnv_step htracked henv with hnew | ⟨hbefore, -⟩
    · exact absurd (hloose.lt pair h.constructed).1 (by omega)
    · exact h.left id hbefore
  undisposed := undisposed_step h.constructed h.undisposed hattached fun id _ _ henv => absurd henv (h.left id)

end

/-! ## Runs -/

end LainLang.Grpc.Build
