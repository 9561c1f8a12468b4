import LainLang.Compiler.Unfold
/-!
# Merging a template into a cell

`merge_closure_incremental` lets a pair of values through when one of three tests
holds, and goes on to convert both of them. What it does with a pair is told by
the tests that the values pass and, where both are converted, by their hashes.
-/
open LainLang.Lib

namespace LainLang.Compiler.Merging

variable {Cell Env Compile Other : Type}

/-! ## Values -/

/-- What is hashed: closures and arrays of cells, by identity. -/
inductive HashedPart where
  | closure (id : ℕ)
  | cells (id : ℕ)
  deriving DecidableEq

/-- The closures and the arrays of cells that values refer to, and the texts of cells. -/
structure Objects (Cell : Type) where
  closures : ℕ → ClosureTemplate Cell
  arrays : ℕ → List Cell
  cell_text : Cell → String

/-- What is hashed of a part. -/
def Objects.data (objects : Objects Cell) : HashedPart → Data Cell
  | .closure id => (objects.closures id).data
  | .cells id => .arr ((objects.arrays id).map .cell)

/-- A closure with the arrays of cells it is applied to. -/
structure ApplyClosureTemplate (Env Compile : Type) where
  closure : ℕ
  scoped_outputs : ℕ
  scoped_inputs : ℕ
  parent_env : Env
  compile : Compile

/-- The network of a closure, which `dispatch` and `dispose` act on. -/
structure Network (Cell Env Compile : Type) where
  inputs_cell : List (Option LainExpr)
  output_connectors : List (Option LainExpr × Cell)
  parent_env : Env
  compiled : List LainExpr
  compile : Compile

/-- A closure that was unfolded into a network. -/
structure UnfoldedClosure (Cell Env Compile : Type) where
  unfolded_network : Network Cell Env Compile
  closure : ℕ
  dispatch : Network Cell Env Compile
  dispose : Network Cell Env Compile
  apply_closure_template : ApplyClosureTemplate Env Compile

/-- The properties of an object that are asked for, `none` where it lacks one. -/
structure Properties (Cell Env Compile : Type) where
  unfolded_network : Option (Network Cell Env Compile)
  closure : Option ℕ
  dispatch : Option (Network Cell Env Compile)
  dispose : Option (Network Cell Env Compile)
  apply_closure_template : Option (ApplyClosureTemplate Env Compile)
  scoped_outputs : Option ℕ
  scoped_inputs : Option ℕ
  parent_env : Option Env
  compile : Option Compile

/-- `other` is a value with none of these properties. -/
inductive Value (Cell Env Compile Other : Type) where
  | object (properties : Properties Cell Env Compile)
  | other (value : Other)

/-- A template as a value. -/
def ApplyClosureTemplate.object (t : ApplyClosureTemplate Env Compile) : Value Cell Env Compile Other :=
  .object {
    unfolded_network := none
    closure := some t.closure
    dispatch := none
    dispose := none
    apply_closure_template := none
    scoped_outputs := some t.scoped_outputs
    scoped_inputs := some t.scoped_inputs
    parent_env := some t.parent_env
    compile := some t.compile }

/-- What the handler returns: a value, or a closure unfolded from one. -/
inductive Merged (Cell Env Compile Other : Type) where
  | value (v : Value Cell Env Compile Other)
  | unfolded (network : Network Cell Env Compile) (closure : ℕ) (apply_closure_template : Value Cell Env Compile Other)
  | better_set (items : List (Merged Cell Env Compile Other))
  | added (set : Value Cell Env Compile Other) (item : Merged Cell Env Compile Other)
  | contradiction (content increment : Value Cell Env Compile Other)

/-- The tests of the propagator and set libraries. -/
structure Library (Cell Env Compile Other : Type) where
  is_nothing : Value Cell Env Compile Other → Bool
  is_better_set : Value Cell Env Compile Other → Bool
  to_string : Value Cell Env Compile Other → String

namespace Value

/-- The value read as a template, if it has all of its properties. -/
def asTemplate : Value Cell Env Compile Other → Option (ApplyClosureTemplate Env Compile)
  | .object o => do
    return ⟨← o.closure, ← o.scoped_outputs, ← o.scoped_inputs, ← o.parent_env, ← o.compile⟩
  | .other _ => none

/-- The value read as an unfolded closure, if it has all of its properties. -/
def asUnfolded : Value Cell Env Compile Other → Option (UnfoldedClosure Cell Env Compile)
  | .object o => do
    return ⟨← o.unfolded_network, ← o.closure, ← o.dispatch, ← o.dispose, ← o.apply_closure_template⟩
  | .other _ => none

/-- The property `dispatch`. -/
def dispatch : Value Cell Env Compile Other → Option (Network Cell Env Compile)
  | .object o => o.dispatch
  | .other _ => none

end Value

/-- The predicate asks for the properties of a template. -/
def is_apply_closure_template (v : Value Cell Env Compile Other) : Bool := v.asTemplate.isSome

/-- The predicate asks for the properties of an unfolded closure. -/
def is_unfolded_closure (v : Value Cell Env Compile Other) : Bool := v.asUnfolded.isSome

/-! ## Accessors -/

/-- What a value is converted to. -/
inductive ClosureAccessor (Cell Env Compile : Type) where
  | template (value : ApplyClosureTemplate Env Compile)
  | unfolded (value : UnfoldedClosure Cell Env Compile)

namespace ClosureAccessor

/-- The template of an accessor: its own, or that of the unfolded closure. -/
def template_of : ClosureAccessor Cell Env Compile → ApplyClosureTemplate Env Compile
  | .template value => value
  | .unfolded value => value.apply_closure_template

/-- The array of inputs. -/
def get_inputs_cell (x : ClosureAccessor Cell Env Compile) : ℕ := x.template_of.scoped_inputs

/-- The array of outputs. -/
def get_outputs_cell (x : ClosureAccessor Cell Env Compile) : ℕ := x.template_of.scoped_outputs

/-- The environment of the application. -/
def get_parent_env (x : ClosureAccessor Cell Env Compile) : Env := x.template_of.parent_env

/-- The closure, which an unfolded closure has besides its template. -/
def get_closure : ClosureAccessor Cell Env Compile → ℕ
  | .template value => value.closure
  | .unfolded value => value.closure

end ClosureAccessor

/-- A template first, an unfolded closure otherwise. -/
def Value.accessor (v : Value Cell Env Compile Other) : Option (ClosureAccessor Cell Env Compile) :=
  (v.asTemplate.map .template).or (v.asUnfolded.map .unfolded)

/-- What a call throws. -/
inductive Thrown where
  | error (message : String)
  | not_a_function
  deriving DecidableEq

/-- `dispatched` lists the networks that were dispatched to, with the arrays of
cells. -/
structure MergeState (Cell Env Compile : Type) where
  hash_store : HashStore HashedPart
  dispatched : List (Network Cell Env Compile × ℕ)

/-- Code that may throw, hashes and dispatches. -/
abbrev Merge (Cell Env Compile : Type) := EStateM Thrown (MergeState Cell Env Compile)

section handler
variable (lib : Library Cell Env Compile Other) (objects : Objects Cell)

/-- Throws where the value is neither a template nor an unfolded closure. -/
def to_closure_accessor (x : Value Cell Env Compile Other) : Merge Cell Env Compile (ClosureAccessor Cell Env Compile) :=
  match x.accessor with
  | some accessor => pure accessor
  | none => throw (.error ("Cannot convert to ClosureAccessor: " ++ lib.to_string x))

/-- The inputs of what a value is converted to. -/
def get_scoped_inputs (x : Value Cell Env Compile Other) : Merge Cell Env Compile ℕ := do
  return (← to_closure_accessor lib x).get_inputs_cell

/-- The compiler of what a value is converted to. -/
def get_compile (x : Value Cell Env Compile Other) : Merge Cell Env Compile Compile := do
  return (← to_closure_accessor lib x).template_of.compile

/-- A template is returned as the value it is. -/
def get_template (x : Value Cell Env Compile Other) : Merge Cell Env Compile (Value Cell Env Compile Other) := do
  match ← to_closure_accessor lib x with
  | .template _ => return x
  | .unfolded value => return value.apply_closure_template.object

/-- The network of a closure, with connectors to the outputs. -/
def internal_unfold_closure (closure : ℕ) (parent_env : Env) (outputs_cell : ℕ) (compile : Compile) :
    Network Cell Env Compile :=
  let template := objects.closures closure
  { inputs_cell := template.inputs.map expr_value
    output_connectors := (template.outputs.map expr_value).zip (objects.arrays outputs_cell)
    parent_env
    compiled := template.body
    compile }

/-- The call of `dispatch` on a network. -/
def eff_dispatch (network : Network Cell Env Compile) (inputs : ℕ) : Merge Cell Env Compile Unit :=
  modify fun s => { s with dispatched := s.dispatched ++ [(network, inputs)] }

/-- `content.dispatch(inputs)`. -/
def eff_dispatch_inputs (content : Value Cell Env Compile Other) (inputs : ℕ) : Merge Cell Env Compile Unit :=
  match content.dispatch with
  | some network => eff_dispatch network inputs
  | none => throw .not_a_function

/-- The network of the unfolded closure, and the closure. -/
def construct_unfolded_closure (template : Value Cell Env Compile Other) :
    Merge Cell Env Compile (Network Cell Env Compile × ℕ) := do
  let accessor ← to_closure_accessor lib template
  let compile ← get_compile lib template
  return (internal_unfold_closure objects accessor.get_closure accessor.get_parent_env accessor.get_outputs_cell compile,
    accessor.get_closure)

/-- The network is made and dispatched to, and the template kept with it. -/
def unfold_template (template : Value Cell Env Compile Other) :
    Merge Cell Env Compile (Merged Cell Env Compile Other) := do
  let (network, closure) ← construct_unfolded_closure lib objects template
  eff_dispatch network (← get_scoped_inputs lib template)
  return .unfolded network closure template

/-- `get_hash` of a closure or of an array of cells. -/
def hash_part (part : HashedPart) : Merge Cell Env Compile String := fun s =>
  let (hash, hash_store) := (get_hash (stableStringify objects.cell_text (objects.data part)) part).run s.hash_store
  .ok hash { s with hash_store }

/-- The hashes of the closure, of the outputs and of the inputs. -/
def calculate_template_hashes (accessor : ClosureAccessor Cell Env Compile) : Merge Cell Env Compile TemplateHashes := do
  let closure ← hash_part objects (.closure accessor.get_closure)
  let outputs ← hash_part objects (.cells accessor.get_outputs_cell)
  let inputs ← hash_part objects (.cells accessor.get_inputs_cell)
  return { closure, outputs, inputs }

/-- Whether one of the three hashes differs. -/
def source_template_inconsistent (content increment : Value Cell Env Compile Other) : Merge Cell Env Compile Bool := do
  let content_accessor ← to_closure_accessor lib content
  let increment_accessor ← to_closure_accessor lib increment
  let content_hashes ← calculate_template_hashes objects content_accessor
  let increment_hashes ← calculate_template_hashes objects increment_accessor
  return content_hashes.closure ≠ increment_hashes.closure || content_hashes.outputs ≠ increment_hashes.outputs ||
    content_hashes.inputs ≠ increment_hashes.inputs

/-- The first closure is unfolded. -/
def merge_nothing_content (increment : Value Cell Env Compile Other) :
    Merge Cell Env Compile (Merged Cell Env Compile Other) := do
  unfold_template lib objects (← get_template lib increment)

/-- The unfolded closure is added to the set. -/
def merge_better_set_content (content increment : Value Cell Env Compile Other) :
    Merge Cell Env Compile (Merged Cell Env Compile Other) := do
  return .added content (← unfold_template lib objects increment)

/-- The content and the unfolded closure become a set. -/
def merge_inconsistent_template (content increment : Value Cell Env Compile Other) :
    Merge Cell Env Compile (Merged Cell Env Compile Other) := do
  let increment_unfold ← unfold_template lib objects increment
  return .better_set [.value content, increment_unfold]

/-- The inputs of the content are dispatched again. -/
def merge_consistent_template (content : Value Cell Env Compile Other) :
    Merge Cell Env Compile (Merged Cell Env Compile Other) := do
  eff_dispatch_inputs content (← get_scoped_inputs lib content)
  return .value content

/-- The default handler. -/
def merge_closure_incremental (content increment : Value Cell Env Compile Other) :
    Merge Cell Env Compile (Merged Cell Env Compile Other) := do
  if ¬(lib.is_nothing content || is_unfolded_closure content || is_apply_closure_template increment) then
    -- Invalid state - return contradiction
    return .contradiction content increment
  else if lib.is_nothing content then
    merge_nothing_content lib objects increment
  else if lib.is_better_set content && is_apply_closure_template increment then
    merge_better_set_content lib objects content increment
  else if ← source_template_inconsistent lib objects content increment then
    merge_inconsistent_template lib objects content increment
  else
    merge_consistent_template lib content

/-! ## Conversions -/

variable {lib} {objects} {x : Value Cell Env Compile Other}

theorem accessor_isSome (x : Value Cell Env Compile Other) :
    x.accessor.isSome = true ↔ is_apply_closure_template x = true ∨ is_unfolded_closure x = true := by
  simp [Value.accessor, is_apply_closure_template, is_unfolded_closure]

/-- A conversion returns for values with an accessor, and throws for any other. -/
theorem succeeds_to_closure_accessor {α : Type} {f : ClosureAccessor Cell Env Compile → Merge Cell Env Compile α}
    {s : MergeState Cell Env Compile} :
    Succeeds (to_closure_accessor lib x >>= f) s ↔ ∃ a, x.accessor = some a ∧ Succeeds (f a) s := by
  unfold to_closure_accessor
  cases hx : x.accessor with
  | none => exact iff_of_false (not_succeeds_bind (not_succeeds_throw _ _) f) (by simp)
  | some a => simp

theorem succeeds_unfold_template {s : MergeState Cell Env Compile} :
    Succeeds (unfold_template lib objects x) s ↔ x.accessor.isSome = true := by
  simp only [unfold_template, construct_unfolded_closure, get_compile, get_scoped_inputs, bind_assoc, pure_bind,
    succeeds_to_closure_accessor]
  cases hx : x.accessor with
  | none => simp
  | some a =>
    simp only [Option.some.injEq, exists_eq_left', Option.isSome_some, iff_true]
    exact (succeeds_bind_of_ok (modify_apply _ _)).2 (succeeds_pure _ _)

theorem succeeds_merge_nothing_content {s : MergeState Cell Env Compile} :
    Succeeds (merge_nothing_content lib objects x) s ↔ x.accessor.isSome = true := by
  rw [merge_nothing_content, get_template, bind_assoc, succeeds_to_closure_accessor]
  cases hx : x.accessor with
  | none => simp
  | some a =>
    simp only [Option.some.injEq, exists_eq_left', Option.isSome_some, iff_true]
    cases a with
    | template _ => simp [succeeds_unfold_template, hx]
    | unfolded value =>
      -- The template of an unfolded closure is converted as the template it is.
      have htemplate : (value.apply_closure_template.object : Value Cell Env Compile Other).accessor =
          some (.template value.apply_closure_template) := rfl
      simp [succeeds_unfold_template, htemplate]

theorem succeeds_merge_better_set_content {content : Value Cell Env Compile Other} {s : MergeState Cell Env Compile} :
    Succeeds (merge_better_set_content lib objects content x) s ↔ x.accessor.isSome = true := by
  rw [merge_better_set_content, ← @succeeds_unfold_template _ _ _ _ lib objects x s, succeeds_bind]
  constructor
  · rintro ⟨a, s', h, -⟩
    exact ⟨a, s', h⟩
  · rintro ⟨a, s', h⟩
    exact ⟨a, s', h, succeeds_pure _ _⟩

theorem succeeds_merge_inconsistent_template {content : Value Cell Env Compile Other} {s : MergeState Cell Env Compile} :
    Succeeds (merge_inconsistent_template lib objects content x) s ↔ x.accessor.isSome = true := by
  rw [merge_inconsistent_template, ← @succeeds_unfold_template _ _ _ _ lib objects x s, succeeds_bind]
  constructor
  · rintro ⟨a, s', h, -⟩
    exact ⟨a, s', h⟩
  · rintro ⟨a, s', h⟩
    exact ⟨a, s', h, succeeds_pure _ _⟩

/-- The content is dispatched to, if it can be. -/
theorem succeeds_merge_consistent_template {s : MergeState Cell Env Compile} :
    Succeeds (merge_consistent_template lib x) s ↔ x.accessor.isSome = true ∧ x.dispatch.isSome = true := by
  rw [merge_consistent_template, get_scoped_inputs, bind_assoc, succeeds_to_closure_accessor]
  cases hx : x.accessor with
  | none => simp
  | some a =>
    simp only [Option.some.injEq, exists_eq_left', Option.isSome_some, true_and, pure_bind, eff_dispatch_inputs]
    cases hd : x.dispatch with
    | none => exact iff_of_false (not_succeeds_bind (not_succeeds_throw _ _) _) (by simp)
    | some network => exact iff_of_true ((succeeds_bind_of_ok (modify_apply _ _)).2 (succeeds_pure _ _)) rfl

/-! ## Hashes -/

/-- The closures, outputs and inputs of two accessors have the same hashes. -/
def SameHashes (objects : Objects Cell) (store : HashStore HashedPart) (a b : ClosureAccessor Cell Env Compile) : Prop :=
  let hashOf := store.hashOf objects.cell_text objects.data
  hashOf (.closure a.get_closure) = hashOf (.closure b.get_closure) ∧
    hashOf (.cells a.get_outputs_cell) = hashOf (.cells b.get_outputs_cell) ∧
    hashOf (.cells a.get_inputs_cell) = hashOf (.cells b.get_inputs_cell)

instance (store : HashStore HashedPart) (a b : ClosureAccessor Cell Env Compile) :
    Decidable (SameHashes objects store a b) :=
  inferInstanceAs (Decidable (_ ∧ _ ∧ _))

theorem hash_part_run (part : HashedPart) (s : MergeState Cell Env Compile) :
    ∃ s' : MergeState Cell Env Compile,
      hash_part objects part s = .ok (s.hash_store.hashOf objects.cell_text objects.data part) s' ∧
        ∀ other, s'.hash_store.hashOf objects.cell_text objects.data other =
          s.hash_store.hashOf objects.cell_text objects.data other := by
  obtain ⟨store, hrun, hkeep⟩ := get_hash_run objects.cell_text objects.data part s.hash_store
  exact ⟨{ s with hash_store := store }, by rw [hash_part, hrun], hkeep⟩

theorem calculate_template_hashes_run (a : ClosureAccessor Cell Env Compile) (s : MergeState Cell Env Compile) :
    ∃ s' : MergeState Cell Env Compile, calculate_template_hashes objects a s =
        .ok ⟨s.hash_store.hashOf objects.cell_text objects.data (.closure a.get_closure),
          s.hash_store.hashOf objects.cell_text objects.data (.cells a.get_outputs_cell),
          s.hash_store.hashOf objects.cell_text objects.data (.cells a.get_inputs_cell)⟩ s' ∧
      ∀ other, s'.hash_store.hashOf objects.cell_text objects.data other =
        s.hash_store.hashOf objects.cell_text objects.data other := by
  obtain ⟨s1, h1, k1⟩ := @hash_part_run _ Env Compile objects (.closure a.get_closure) s
  obtain ⟨s2, h2, k2⟩ := @hash_part_run _ Env Compile objects (.cells a.get_outputs_cell) s1
  obtain ⟨s3, h3, k3⟩ := @hash_part_run _ Env Compile objects (.cells a.get_inputs_cell) s2
  refine ⟨s3, ?_, fun other => by rw [k3, k2, k1]⟩
  rw [calculate_template_hashes, bind_of_ok h1, bind_of_ok h2, bind_of_ok h3, k2, k1, k1]
  rfl

/-- The comparison says whether the hashes differ. -/
theorem source_template_inconsistent_run {content increment : Value Cell Env Compile Other}
    {a b : ClosureAccessor Cell Env Compile} (ha : content.accessor = some a) (hb : increment.accessor = some b)
    (s : MergeState Cell Env Compile) :
    ∃ s', source_template_inconsistent lib objects content increment s =
      .ok (decide (¬SameHashes objects s.hash_store a b)) s' := by
  obtain ⟨s1, h1, k1⟩ := @calculate_template_hashes_run _ Env Compile objects a s
  obtain ⟨s2, h2, -⟩ := @calculate_template_hashes_run _ Env Compile objects b s1
  refine ⟨s2, ?_⟩
  simp only [k1] at h2
  simp only [source_template_inconsistent, to_closure_accessor, ha, hb, pure_bind]
  rw [bind_of_ok h1, bind_of_ok h2, pure_apply]
  congr 1
  simp only [SameHashes, not_and_or, ne_eq, Bool.decide_or, Bool.or_assoc]

/-- It converts both values. -/
theorem accessors_of_compared {content increment : Value Cell Env Compile Other} {s : MergeState Cell Env Compile}
    (h : Succeeds (source_template_inconsistent lib objects content increment) s) :
    ∃ a b, content.accessor = some a ∧ increment.accessor = some b := by
  rw [source_template_inconsistent, succeeds_to_closure_accessor] at h
  obtain ⟨a, ha, h⟩ := h
  rw [succeeds_to_closure_accessor] at h
  obtain ⟨b, hb, -⟩ := h
  exact ⟨a, b, ha, hb⟩

/-! ## Which pairs are merged -/

/-- The handler returns, and where none of its three tests holds it returns the
contradiction. -/
def Merges (lib : Library Cell Env Compile Other) (objects : Objects Cell) (content increment : Value Cell Env Compile Other)
    (s : MergeState Cell Env Compile) : Prop :=
  Succeeds (merge_closure_incremental lib objects content increment) s ∧
    ((lib.is_nothing content || is_unfolded_closure content || is_apply_closure_template increment) = false →
      merge_closure_incremental lib objects content increment s = .ok (.contradiction content increment) s)

/-- Nothing and a value that is converted; a pair that fails all three tests; a
set and a template; or two values that are converted, where the content can be
dispatched to or their hashes differ. -/
def Mergeable (lib : Library Cell Env Compile Other) (objects : Objects Cell) (content increment : Value Cell Env Compile Other)
    (store : HashStore HashedPart) : Prop :=
  if lib.is_nothing content = true then is_apply_closure_template increment = true ∨ is_unfolded_closure increment = true
  else
    is_unfolded_closure content = false ∧ is_apply_closure_template increment = false ∨
    lib.is_better_set content = true ∧ is_apply_closure_template increment = true ∨
    ∃ a b, content.accessor = some a ∧ increment.accessor = some b ∧
      (content.dispatch.isSome = true ∨ ¬SameHashes objects store a b)

/-- Two values that are compared. -/
theorem succeeds_compared {content increment : Value Cell Env Compile Other} {s : MergeState Cell Env Compile} :
    Succeeds (do
        if ← source_template_inconsistent lib objects content increment then
          merge_inconsistent_template lib objects content increment
        else merge_consistent_template lib content) s ↔
      ∃ a b, content.accessor = some a ∧ increment.accessor = some b ∧
        (content.dispatch.isSome = true ∨ ¬SameHashes objects s.hash_store a b) := by
  constructor
  · intro h
    obtain ⟨inconsistent, s', hrun, h⟩ := succeeds_bind.1 h
    obtain ⟨a, b, ha, hb⟩ := accessors_of_compared ⟨inconsistent, s', hrun⟩
    obtain ⟨s'', hrun'⟩ := @source_template_inconsistent_run _ _ _ _ lib objects _ _ a b ha hb s
    obtain ⟨rfl, rfl⟩ := EStateM.Result.ok.inj (hrun.symm.trans hrun')
    refine ⟨a, b, ha, hb, ?_⟩
    by_cases hsame : SameHashes objects s.hash_store a b
    · -- The same closure: its network is run again, which only an unfolded one has.
      simp only [hsame, not_true_eq_false, decide_false, Bool.false_eq_true, if_false,
        succeeds_merge_consistent_template] at h
      exact .inl h.2
    · exact .inr hsame
  · rintro ⟨a, b, ha, hb, h⟩
    obtain ⟨s', hrun⟩ := @source_template_inconsistent_run _ _ _ _ lib objects _ _ a b ha hb s
    rw [succeeds_bind_of_ok hrun]
    by_cases hsame : SameHashes objects s.hash_store a b
    · simpa [hsame, succeeds_merge_consistent_template, ha] using h
    · simp [hsame, succeeds_merge_inconsistent_template, hb]

/-! ### The branches of the handler -/

variable {content increment : Value Cell Env Compile Other}

theorem merge_of_nothing (h : lib.is_nothing content = true) :
    merge_closure_incremental lib objects content increment = merge_nothing_content lib objects increment := by
  simp [merge_closure_incremental, h]

/-- None of the three tests holds. -/
theorem merge_of_invalid
    (h : (lib.is_nothing content || is_unfolded_closure content || is_apply_closure_template increment) = false) :
    merge_closure_incremental lib objects content increment = pure (.contradiction content increment) := by
  simp only [Bool.or_eq_false_iff] at h
  simp [merge_closure_incremental, h]

theorem merge_of_set (hnothing : lib.is_nothing content = false) (hset : lib.is_better_set content = true)
    (htemplate : is_apply_closure_template increment = true) :
    merge_closure_incremental lib objects content increment = merge_better_set_content lib objects content increment := by
  simp [merge_closure_incremental, hnothing, hset, htemplate]

theorem merge_of_compared (hnothing : lib.is_nothing content = false)
    (hvalid : (is_unfolded_closure content || is_apply_closure_template increment) = true)
    (hset : (lib.is_better_set content && is_apply_closure_template increment) = false) :
    merge_closure_incremental lib objects content increment = (do
      if ← source_template_inconsistent lib objects content increment then
        merge_inconsistent_template lib objects content increment
      else merge_consistent_template lib content) := by
  have htests : (false || is_unfolded_closure content || is_apply_closure_template increment) = true := by
    simpa using hvalid
  simp only [merge_closure_incremental, hnothing, htests, hset]
  simp

/-- The handler merges a pair exactly when the pair is mergeable. -/
theorem merges_iff (lib : Library Cell Env Compile Other) (objects : Objects Cell)
    (content increment : Value Cell Env Compile Other) (s : MergeState Cell Env Compile) :
    Merges lib objects content increment s ↔ Mergeable lib objects content increment s.hash_store := by
  unfold Merges Mergeable
  cases hnothing : lib.is_nothing content with
  | true =>
    rw [if_pos rfl, merge_of_nothing hnothing, succeeds_merge_nothing_content, accessor_isSome]
    simp
  | false =>
    rw [if_neg Bool.false_ne_true]
    cases hvalid : is_unfolded_closure content || is_apply_closure_template increment with
    | false =>
      rw [merge_of_invalid (by rw [hnothing, Bool.false_or, hvalid])]
      rw [Bool.or_eq_false_iff] at hvalid
      exact iff_of_true ⟨succeeds_pure _ _, fun _ => rfl⟩ (.inl hvalid)
    | true =>
      have hfirst : ¬(is_unfolded_closure content = false ∧ is_apply_closure_template increment = false) := by
        rintro ⟨hu, ht⟩
        simp [hu, ht] at hvalid
      simp only [Bool.false_or, hvalid, hfirst, false_or, reduceCtorEq, false_imp_iff, and_true]
      cases hset : lib.is_better_set content && is_apply_closure_template increment with
      | true =>
        rw [Bool.and_eq_true] at hset
        rw [merge_of_set hnothing hset.1 hset.2, succeeds_merge_better_set_content, accessor_isSome]
        exact iff_of_true (.inl hset.2) (.inl hset)
      | false =>
        rw [merge_of_compared hnothing hvalid hset, succeeds_compared]
        rw [Bool.and_eq_false_iff] at hset
        refine ⟨.inr, fun h => h.resolve_left ?_⟩
        rintro ⟨hbetter, htemplate⟩
        simp [hbetter, htemplate] at hset

end handler

/-! ### A contradiction in the cell -/

/-- Values without properties. -/
inductive Plain where
  | nothing
  | contradiction
  deriving DecidableEq

/-- The tests on values without properties. -/
def plainLibrary : Library ℕ Unit Unit Plain where
  is_nothing
    | .other .nothing => true
    | _ => false
  is_better_set _ := false
  to_string
    | .other .contradiction => "contradiction"
    | _ => "object"

/-- A template with no inputs, outputs or body. -/
def plainObjects : Objects ℕ where
  closures _ := ⟨0, .str "", [], [], []⟩
  arrays _ := []
  cell_text _ := "\x7b\x7d"

/-- A template. -/
def plainTemplate : Value ℕ Unit Unit Plain := (ApplyClosureTemplate.mk 0 1 2 () ()).object

/-- A template passes the third test, and the contradiction is converted. -/
theorem contradiction_throws :
    thrown (merge_closure_incremental plainLibrary plainObjects (.other .contradiction) plainTemplate ⟨.empty, []⟩) =
        some (.error "Cannot convert to ClosureAccessor: contradiction") ∧
      ¬∀ content increment s, Merges plainLibrary plainObjects content increment s := by
  refine ⟨rfl, fun h => ?_⟩
  obtain ⟨⟨merged, s', hrun⟩, -⟩ := h (.other .contradiction) plainTemplate ⟨.empty, []⟩
  cases hrun

end LainLang.Compiler.Merging
