import LainLang.Compiler.Hash
import LainLang.Lib.Run
/-!
# Hot reload of a closure

`ce_apply_closure` keeps one unfolded network for the closure of its cell. When
a closure arrives it compares content hashes: where they differ the network is
disposed and the new closure unfolded, and otherwise the inputs are dispatched
to the network that is there.
-/
open LainLang.Lib LainLang.Js

namespace LainLang.Compiler

/-! ## Closures -/

/-- The types of elements. -/
inductive LainType where
  | string | number | boolean | symbol | quoted | expression | lambda | let_ | call | closure
  | primitivePropagator | network | cell | propagator

/-- The string that stands for a type. -/
def LainType.text : LainType → String
  | string => "String"
  | number => "Number"
  | boolean => "Boolean"
  | symbol => "Symbol"
  | quoted => "Quoted"
  | expression => "Expression"
  | lambda => "Lambda"
  | let_ => "Let"
  | call => "Call"
  | closure => "Closure"
  | primitivePropagator => "PrimitivePropagator"
  | network => "Network"
  | cell => "Cell"
  | propagator => "Propagator"

/-- An expression: an element, or a list of expressions, which is a plain array.
The value of an element is any of these. -/
inductive LainExpr where
  | str (s : String)
  | num (n : JsNumber)
  | bool (b : Bool)
  | element (type : LainType) (value : LainExpr)
  | list (items : List LainExpr)

/-- `expr_value`; an array has no property `value`. -/
def expr_value : LainExpr → Option LainExpr
  | .element _ value => some value
  | _ => none

/-- An element of type `Symbol`. -/
def lain_symbol (value : String) : LainExpr := .element .symbol (.str value)

variable {Cell Val : Type}

mutual

/-- What is hashed of an expression. -/
def LainExpr.data : LainExpr → Data Cell
  | .str s => .str s
  | .num n => .num n
  | .bool b => .bool b
  | .element type value => .obj [("type", .str type.text), ("value", value.data)]
  | .list items => .arr (LainExpr.dataItems items)

/-- What is hashed of a list of expressions. -/
def LainExpr.dataItems : List LainExpr → List (Data Cell)
  | [] => []
  | x :: xs => x.data :: LainExpr.dataItems xs

end

/-- What `network` makes: a program with the environment it was written in. -/
structure ClosureTemplate (Cell : Type) where
  env : Cell
  name : LainExpr
  inputs : List LainExpr
  outputs : List LainExpr
  body : List LainExpr

/-- What is hashed of a closure. -/
def ClosureTemplate.data (c : ClosureTemplate Cell) : Data Cell :=
  .obj [("env", .cell c.env), ("name", c.name.data), ("inputs", .arr (LainExpr.dataItems c.inputs)),
    ("outputs", .arr (LainExpr.dataItems c.outputs)), ("body", .arr (LainExpr.dataItems c.body))]

/-- The same program, whatever its environment. -/
structure ClosureTemplate.Same (c d : ClosureTemplate Cell) : Prop where
  name : c.name = d.name
  inputs : c.inputs = d.inputs
  outputs : c.outputs = d.outputs
  body : c.body = d.body

theorem ClosureTemplate.Same.refl (c : ClosureTemplate Cell) : c.Same c := ⟨rfl, rfl, rfl, rfl⟩

/-! ## Unfolding -/

/-- What `ce_apply_closure` is called with, and the closure objects that may
arrive in its cell. -/
structure Application (Cell Val : Type) where
  outputs : List Cell
  inputs : List Cell
  closures : ℕ → ClosureTemplate Cell
  is_unusable_value : Val → Bool

/-- The objects whose hashes are asked for or removed. Every activation makes a
template of its own; a template is never hashed. -/
inductive Hashed where
  | closure (id : ℕ)
  | scoped_outputs
  | scoped_inputs
  | template (id : ℕ)
  deriving DecidableEq

/-- The template that an activation makes. -/
structure ApplyClosureTemplate where
  id : ℕ
  closure : ℕ

/-- The network of a closure: the names of its input cells with the updates sent
to each position, the connectors from its internal outputs to the outputs of the
application, and the expressions it compiles. -/
structure UnfoldedClosure (Cell Val : Type) where
  closure : ℕ
  apply_closure_template : ApplyClosureTemplate
  inputs_cell : List (Option LainExpr)
  output_connectors : List (Option LainExpr × Cell)
  compiled : List LainExpr
  updates : List (ℕ × Val)
  disposed : Bool

variable (app : Application Cell Val)

/-- What is hashed of an object. -/
def Application.data : Hashed → Data Cell
  | .closure id => (app.closures id).data
  | .scoped_outputs => .arr (app.outputs.map .cell)
  | .scoped_inputs => .arr (app.inputs.map .cell)
  | .template _ => .obj []

/-- A new network for the closure of a template. -/
def internal_unfold_closure (template : ApplyClosureTemplate) : UnfoldedClosure Cell Val :=
  let closure := app.closures template.closure
  { closure := template.closure
    apply_closure_template := template
    inputs_cell := closure.inputs.map expr_value
    output_connectors := (closure.outputs.map expr_value).zip app.outputs
    compiled := closure.body
    updates := []
    disposed := false }

/-- An input without a cell at its position is ignored. -/
def eff_dispatch_inputs (inputs : List Val) (net : UnfoldedClosure Cell Val) : UnfoldedClosure Cell Val :=
  { net with updates := net.updates ++ ((List.range inputs.length).zip inputs).filter (·.1 < net.inputs_cell.length) }

/-! ## The live application -/

/-- `unfolded` lists every network unfolded so far, and `current_unfolded` is a
place in it. -/
structure LiveClosure (Cell Val : Type) where
  closure : Option ℕ
  hash_store : HashStore Hashed
  templates : ℕ
  unfolded : List (UnfoldedClosure Cell Val)
  current_unfolded : Option ℕ

/-- A closure arrives. `elsewhere` is what has happened to the hash store since
the last activation: closures of other applications are hashed and disposed, and
entries of collected objects go. -/
structure Arrival where
  closure : ℕ
  strongest : Cell → Val
  usable : ∀ c ∈ app.inputs, app.is_unusable_value (strongest c) = false
  cell_text : Cell → String
  elsewhere : HashStore Hashed → HashStore Hashed

variable {app}

/-- The network is unfolded, dispatched to, and becomes the current one. -/
def unfold_template (a : Arrival app) (template : ApplyClosureTemplate) (w : LiveClosure Cell Val) :
    LiveClosure Cell Val :=
  let net := eff_dispatch_inputs (app.inputs.map a.strongest) (internal_unfold_closure app template)
  { w with unfolded := w.unfolded ++ [net], current_unfolded := some w.unfolded.length }

/-- The closure's hash goes twice: before its network is disposed and with it. -/
def eff_dispose_unfolded_closure (i : ℕ) (net : UnfoldedClosure Cell Val) (w : LiveClosure Cell Val) :
    LiveClosure Cell Val :=
  let removed := ((w.hash_store.delete (.closure net.closure)).delete (.template net.apply_closure_template.id)).delete
    (.closure net.closure)
  { w with hash_store := removed, unfolded := w.unfolded.set i { net with disposed := true } }

/-- The three hashes that are compared. -/
structure TemplateHashes where
  closure : String
  outputs : String
  inputs : String

/-- The closure, the outputs and the inputs are hashed, in this order. -/
def calculate_template_hashes (a : Arrival app) (closure : ℕ) : StateM (HashStore Hashed) TemplateHashes := do
  let text obj := stableStringify a.cell_text (app.data obj)
  let closure ← get_hash (text (.closure closure)) (.closure closure)
  let outputs ← get_hash (text .scoped_outputs) .scoped_outputs
  let inputs ← get_hash (text .scoped_inputs) .scoped_inputs
  return { closure, outputs, inputs }

/-- Whether one of the three hashes differs. -/
def source_template_inconsistent (a : Arrival app) (content : UnfoldedClosure Cell Val)
    (increment : ApplyClosureTemplate) : StateM (HashStore Hashed) Bool := do
  let content_hashes ← calculate_template_hashes a content.closure
  let increment_hashes ← calculate_template_hashes a increment.closure
  return content_hashes.closure ≠ increment_hashes.closure || content_hashes.outputs ≠ increment_hashes.outputs ||
    content_hashes.inputs ≠ increment_hashes.inputs

/-- The activation of the propagator `ce_apply_closure_live`. -/
def ce_apply_closure_live (a : Arrival app) (w : LiveClosure Cell Val) : LiveClosure Cell Val :=
  match w.closure with
  | none => w
  | some closure =>
    if (app.inputs.map a.strongest).any app.is_unusable_value then w
    else
      let template : ApplyClosureTemplate := { id := w.templates, closure }
      let w := { w with templates := w.templates + 1 }
      match w.current_unfolded with
      | none => unfold_template a template w
      | some i =>
        match w.unfolded[i]? with
        | none => w
        | some current =>
          let (inconsistent, hash_store) := (source_template_inconsistent a current template).run w.hash_store
          let w := { w with hash_store }
          if inconsistent then unfold_template a template (eff_dispose_unfolded_closure i current w)
          else { w with unfolded :=
            w.unfolded.set i (eff_dispatch_inputs (app.inputs.map a.strongest) current) }

/-- The closure is in the cell, and the propagator runs. -/
def arrive (w : LiveClosure Cell Val) (a : Arrival app) : LiveClosure Cell Val :=
  ce_apply_closure_live a { w with closure := some a.closure, hash_store := a.elsewhere w.hash_store }

/-! ## What is compared -/

/-- The hash of a closure object when a closure arrives. -/
def Arrival.closure_hash (a : Arrival app) (w : LiveClosure Cell Val) (closure : ℕ) : String :=
  (a.elsewhere w.hash_store).hashOf a.cell_text app.data (.closure closure)

theorem calculate_template_hashes_run (a : Arrival app) (closure : ℕ) (store : HashStore Hashed) :
    ∃ store', (calculate_template_hashes a closure).run store =
      (⟨store.hashOf a.cell_text app.data (.closure closure), store.hashOf a.cell_text app.data .scoped_outputs,
        store.hashOf a.cell_text app.data .scoped_inputs⟩, store') ∧
      ∀ obj, store'.hashOf a.cell_text app.data obj = store.hashOf a.cell_text app.data obj := by
  obtain ⟨s1, h1, k1⟩ := get_hash_run a.cell_text app.data (.closure closure) store
  obtain ⟨s2, h2, k2⟩ := get_hash_run a.cell_text app.data .scoped_outputs s1
  obtain ⟨s3, h3, k3⟩ := get_hash_run a.cell_text app.data .scoped_inputs s2
  refine ⟨s3, ?_, fun obj => by rw [k3, k2, k1]⟩
  rw [k2, k1] at h3
  rw [k1] at h2
  rw [calculate_template_hashes, run_bind_of_eq h1, run_bind_of_eq h2, run_bind_of_eq h3]
  rfl

/-- Outputs and inputs are the same arrays on both sides, so only the hashes of
the closures tell two templates apart. -/
theorem source_template_inconsistent_run (a : Arrival app) (content : UnfoldedClosure Cell Val)
    (increment : ApplyClosureTemplate) (store : HashStore Hashed) :
    ∃ store', (source_template_inconsistent a content increment).run store =
      (decide (store.hashOf a.cell_text app.data (.closure content.closure) ≠
        store.hashOf a.cell_text app.data (.closure increment.closure)), store') := by
  obtain ⟨s1, h1, k1⟩ := calculate_template_hashes_run a content.closure store
  obtain ⟨s2, h2, k2⟩ := calculate_template_hashes_run a increment.closure s1
  refine ⟨s2, ?_⟩
  simp only [k1] at h2
  rw [source_template_inconsistent, run_bind_of_eq h1, run_bind_of_eq h2]
  simp only [ne_eq, not_true_eq_false, decide_false, Bool.or_false]
  rfl

/-! ## The networks -/

/-- The network is the unfolding of its closure. -/
structure Built (app : Application Cell Val) (net : UnfoldedClosure Cell Val) : Prop where
  inputs : net.inputs_cell = (app.closures net.closure).inputs.map expr_value
  outputs : net.output_connectors = ((app.closures net.closure).outputs.map expr_value).zip app.outputs
  body : net.compiled = (app.closures net.closure).body

/-- The current network. -/
def LiveClosure.live (w : LiveClosure Cell Val) : Option (UnfoldedClosure Cell Val) :=
  w.current_unfolded.bind fun i => w.unfolded[i]?

variable (app) in
/-- The live network was built from a closure that is the same as the latest,
and every network of another closure has been disposed. -/
structure ShowsLatest (w : LiveClosure Cell Val) : Prop where
  live : ∀ latest, w.closure = some latest → ∃ net, w.live = some net ∧ net.disposed = false ∧ Built app net ∧
    (app.closures net.closure).Same (app.closures latest)
  others : ∀ latest, w.closure = some latest → ∀ net ∈ w.unfolded,
    ¬ (app.closures net.closure).Same (app.closures latest) → net.disposed = true

/-- A closure that arrives is told apart from that of the live network: where
they have the same hash they are the same program. -/
def HashesTellApart (w : LiveClosure Cell Val) (a : Arrival app) : Prop :=
  ∀ net, w.live = some net → a.closure_hash w net.closure = a.closure_hash w a.closure →
    (app.closures net.closure).Same (app.closures a.closure)

variable (app) in
/-- Only the current network is not disposed. -/
structure Tracked (w : LiveClosure Cell Val) : Prop where
  current : ∀ i, w.current_unfolded = some i → ∃ net, w.unfolded[i]? = some net ∧ net.disposed = false
  others : ∀ i net, w.unfolded[i]? = some net → net.disposed = false → w.current_unfolded = some i
  built : ∀ net ∈ w.unfolded, Built app net

/-- What an arrival does to the networks. -/
inductive Outcome (a : Arrival app) (w w' : LiveClosure Cell Val) : Prop where
  | dispatched (i : ℕ) (net : UnfoldedClosure Cell Val) (updates : List (ℕ × Val))
      (hcurrent : w.current_unfolded = some i) (hnet : w.unfolded[i]? = some net)
      (hhash : a.closure_hash w net.closure = a.closure_hash w a.closure)
      (hunfolded : w'.unfolded = w.unfolded.set i { net with updates }) (hcurrent' : w'.current_unfolded = some i)
  | reloaded (before : List (UnfoldedClosure Cell Val)) (net : UnfoldedClosure Cell Val)
      (hhash : ∀ current, w.live = some current → a.closure_hash w current.closure ≠ a.closure_hash w a.closure)
      (hbefore : ∀ net ∈ before, net.disposed = true ∧ Built app net)
      (hclosure : net.closure = a.closure) (hdisposed : net.disposed = false) (hbuilt : Built app net)
      (hunfolded : w'.unfolded = before ++ [net]) (hcurrent' : w'.current_unfolded = some before.length)

theorem Tracked.disposed_of_none {w : LiveClosure Cell Val} (hw : Tracked app w) (h : w.current_unfolded = none) :
    ∀ net ∈ w.unfolded, net.disposed = true ∧ Built app net := by
  intro net hnet
  refine ⟨?_, hw.built net hnet⟩
  obtain ⟨i, hi⟩ := List.mem_iff_getElem?.1 hnet
  by_contra hd
  have hsome := hw.others i net hi (by simpa using hd)
  rw [h] at hsome
  cases hsome

theorem Tracked.disposed_of_current {w : LiveClosure Cell Val} (hw : Tracked app w) {i : ℕ}
    {current : UnfoldedClosure Cell Val} (h : w.current_unfolded = some i) (hi : w.unfolded[i]? = some current) :
    ∀ net ∈ w.unfolded.set i { current with disposed := true }, net.disposed = true ∧ Built app net := by
  intro net hnet
  obtain ⟨j, hj⟩ := List.mem_iff_getElem?.1 hnet
  have hbuilt := hw.built current (List.mem_of_getElem? hi)
  rw [List.getElem?_set] at hj
  split at hj
  · split at hj
    · cases hj
      exact ⟨rfl, hbuilt.inputs, hbuilt.outputs, hbuilt.body⟩
    · cases hj
  · rename_i hij
    refine ⟨?_, hw.built net (List.mem_of_getElem? hj)⟩
    by_contra hd
    have hsome := hw.others j net hj (by simpa using hd)
    rw [h] at hsome
    exact hij (Option.some.inj hsome)

theorem arrive_outcome {w : LiveClosure Cell Val} (hw : Tracked app w) (a : Arrival app) :
    Outcome a w (arrive w a) ∧ (arrive w a).closure = some a.closure := by
  have husable : ((app.inputs.map a.strongest).any app.is_unusable_value) = false := by
    simpa using a.usable
  cases hcurrent : w.current_unfolded with
  | none =>
    have harrive : arrive w a = unfold_template a { id := w.templates, closure := a.closure }
        { w with closure := some a.closure, hash_store := a.elsewhere w.hash_store, templates := w.templates + 1 } := by
      simp [arrive, ce_apply_closure_live, husable, hcurrent]
    rw [harrive]
    refine ⟨.reloaded w.unfolded _ ?_ (hw.disposed_of_none hcurrent) rfl rfl ⟨rfl, rfl, rfl⟩ rfl rfl, rfl⟩
    intro current hlive
    simp [LiveClosure.live, hcurrent] at hlive
  | some i =>
    obtain ⟨current, hnet, -⟩ := hw.current i hcurrent
    let template : ApplyClosureTemplate := { id := w.templates, closure := a.closure }
    obtain ⟨hash_store, hrun⟩ := source_template_inconsistent_run a current template (a.elsewhere w.hash_store)
    by_cases hhash : a.closure_hash w current.closure = a.closure_hash w a.closure
    · have hconsistent : (source_template_inconsistent a current template).run (a.elsewhere w.hash_store) =
          (false, hash_store) := hrun.trans (congrArg (·, hash_store) (decide_eq_false (not_not.2 hhash)))
      have harrive : arrive w a = { w with
          closure := some a.closure, hash_store, templates := w.templates + 1,
          unfolded := w.unfolded.set i (eff_dispatch_inputs (app.inputs.map a.strongest) current) } := by
        simp [arrive, ce_apply_closure_live, husable, hcurrent, hnet, hconsistent, template]
      rw [harrive]
      exact ⟨.dispatched i current _ hcurrent hnet hhash rfl hcurrent, rfl⟩
    · have hinconsistent : (source_template_inconsistent a current template).run (a.elsewhere w.hash_store) =
          (true, hash_store) := hrun.trans (congrArg (·, hash_store) (decide_eq_true hhash))
      have harrive : arrive w a = unfold_template a template (eff_dispose_unfolded_closure i current
          { w with closure := some a.closure, hash_store, templates := w.templates + 1 }) := by
        simp [arrive, ce_apply_closure_live, husable, hcurrent, hnet, hinconsistent, template]
      rw [harrive]
      refine ⟨.reloaded _ _ ?_ (hw.disposed_of_current hcurrent hnet) rfl rfl ⟨rfl, rfl, rfl⟩ rfl rfl, rfl⟩
      intro current' hlive
      have heq : current' = current := by simpa [LiveClosure.live, hcurrent, hnet] using hlive.symm
      rw [heq]
      exact hhash

theorem Outcome.tracked {w w' : LiveClosure Cell Val} {a : Arrival app} (hw : Tracked app w) (h : Outcome a w w') :
    Tracked app w' := by
  cases h with
  | dispatched i net updates hcurrent hnet hhash hunfolded hcurrent' =>
    have hi : i < w.unfolded.length := (List.getElem?_eq_some_iff.1 hnet).1
    obtain ⟨net', hnet', hlive⟩ := hw.current i hcurrent
    rw [hnet] at hnet'
    cases hnet'
    constructor
    · intro j hj
      rw [hcurrent'] at hj
      cases hj
      exact ⟨{ net with updates }, by rw [hunfolded, List.getElem?_set_self hi], hlive⟩
    · intro j other hj hd
      rw [hunfolded, List.getElem?_set] at hj
      split at hj
      · rename_i hij
        rw [hcurrent', hij]
      · rw [hcurrent', ← hcurrent]
        exact hw.others j other hj hd
    · intro other hother
      rw [hunfolded] at hother
      have hbuilt := hw.built net (List.mem_of_getElem? hnet)
      rcases List.mem_or_eq_of_mem_set hother with hmem | rfl
      · exact hw.built other hmem
      · exact ⟨hbuilt.inputs, hbuilt.outputs, hbuilt.body⟩
  | reloaded before net hhash hbefore hclosure hdisposed hbuilt hunfolded hcurrent' =>
    constructor
    · intro j hj
      rw [hcurrent'] at hj
      cases hj
      exact ⟨net, by simp [hunfolded], hdisposed⟩
    · intro j other hj hd
      rw [hunfolded, List.getElem?_append] at hj
      split at hj
      · have htrue := (hbefore other (List.mem_of_getElem? hj)).1
        rw [hd] at htrue
        cases htrue
      · have hlt := (List.getElem?_eq_some_iff.1 hj).1
        simp only [List.length_singleton] at hlt
        rw [hcurrent']
        congr 1
        omega
    · intro other hother
      rw [hunfolded, List.mem_append, List.mem_singleton] at hother
      rcases hother with hmem | rfl
      · exact (hbefore other hmem).2
      · exact hbuilt

/-- The live network is all that decides what is shown. -/
theorem Tracked.showsLatest_iff {w : LiveClosure Cell Val} (hw : Tracked app w) {latest : ℕ}
    (hlatest : w.closure = some latest) {net : UnfoldedClosure Cell Val} (hnet : w.live = some net) :
    ShowsLatest app w ↔ (app.closures net.closure).Same (app.closures latest) := by
  constructor
  · intro h
    obtain ⟨net', hnet', -, -, hsame⟩ := h.live latest hlatest
    rw [hnet] at hnet'
    cases hnet'
    exact hsame
  · intro hsame
    obtain ⟨i, hi, hget⟩ := Option.bind_eq_some_iff.1 hnet
    obtain ⟨net', hget', hdisposed⟩ := hw.current i hi
    have heq : net' = net := Option.some.inj (hget'.symm.trans hget)
    subst heq
    constructor
    · intro latest' hlatest'
      rw [hlatest] at hlatest'
      cases hlatest'
      exact ⟨net', hnet, hdisposed, hw.built net' (List.mem_of_getElem? hget'), hsame⟩
    · intro latest' hlatest' other hother hdiffers
      rw [hlatest] at hlatest'
      cases hlatest'
      obtain ⟨j, hj⟩ := List.mem_iff_getElem?.1 hother
      by_contra hd
      have hcurrent := hw.others j other hj (by simpa using hd)
      rw [hi] at hcurrent
      cases hcurrent
      rw [hget] at hj
      cases hj
      exact hdiffers hsame

/-- After an arrival the latest closure is shown exactly when the hashes told it
apart from that of the live network. -/
theorem arrive_showsLatest {w : LiveClosure Cell Val} (hw : Tracked app w) (a : Arrival app) :
    ShowsLatest app (arrive w a) ↔ HashesTellApart w a := by
  obtain ⟨houtcome, hclosure⟩ := arrive_outcome hw a
  have hw' := houtcome.tracked hw
  cases houtcome with
  | dispatched i net updates hcurrent hnet hhash hunfolded hcurrent' =>
    have hi : i < w.unfolded.length := (List.getElem?_eq_some_iff.1 hnet).1
    have hlive : w.live = some net := by simp [LiveClosure.live, hcurrent, hnet]
    have hlive' : (arrive w a).live = some { net with updates } := by
      simp [LiveClosure.live, hcurrent', hunfolded, List.getElem?_set_self hi]
    rw [hw'.showsLatest_iff hclosure hlive']
    constructor
    · intro hsame net' hnet' _
      rw [hlive] at hnet'
      cases hnet'
      exact hsame
    · intro h
      exact h net hlive hhash
  | reloaded before net hhash hbefore hclosed hdisposed hbuilt hunfolded hcurrent' =>
    have hlive' : (arrive w a).live = some net := by
      simp [LiveClosure.live, hcurrent', hunfolded]
    rw [hw'.showsLatest_iff hclosure hlive', hclosed]
    refine iff_of_true (.refl _) fun current hcurrent heq => ?_
    exact absurd heq (hhash current hcurrent)

/-! ## Runs -/

/-- The application before a closure has arrived. -/
def LiveClosure.initial (store : HashStore Hashed) : LiveClosure Cell Val :=
  { closure := none, hash_store := store, templates := 0, unfolded := [], current_unfolded := none }

theorem tracked_initial (store : HashStore Hashed) : Tracked app (LiveClosure.initial store) where
  current i h := by simp [LiveClosure.initial] at h
  others i net h := by simp [LiveClosure.initial] at h
  built net h := by simp [LiveClosure.initial] at h

theorem showsLatest_initial (store : HashStore Hashed) : ShowsLatest app (LiveClosure.initial store) where
  live latest h := by simp [LiveClosure.initial] at h
  others latest h := by simp [LiveClosure.initial] at h

/-- Whatever closures arrive, the latest is shown all along the run exactly when
the hashes tell every arriving closure apart from that of the live network. -/
theorem hot_reload_iff (store : HashStore Hashed) (arrivals : List (Arrival app)) :
    Throughout arrive (LiveClosure.initial store) arrivals (ShowsLatest app) ↔
      Stepwise arrive (LiveClosure.initial store) arrivals HashesTellApart := by
  have htracked : ∀ w (a : Arrival app), Tracked app w → Tracked app (arrive w a) :=
    fun w a hw => (arrive_outcome hw a).1.tracked hw
  have hiff := @throughout_iff_stepwise _ _ arrive (LiveClosure.initial store) arrivals
    (fun w => Tracked app w ∧ ShowsLatest app w) HashesTellApart ⟨tracked_initial store, showsLatest_initial store⟩
    fun w a hw => (and_iff_right (htracked w a hw.1)).trans (arrive_showsLatest hw.1 a)
  rw [← hiff]
  have hall : Throughout arrive (LiveClosure.initial store) arrivals (Tracked app) :=
    .of_invariant (tracked_initial store) htracked
  exact ⟨fun h pre hpre => ⟨hall pre hpre, h pre hpre⟩, fun h => h.mono fun w hw => hw.2⟩

/-! ### A program whose change is not noticed -/

/-- `(network f (>:: x) (::> z) (+ x operand z))`. -/
def addNetwork (operand : String) : ClosureTemplate ℕ where
  env := 0
  name := lain_symbol "f"
  inputs := [lain_symbol "x"]
  outputs := [lain_symbol "z"]
  body := [.list [lain_symbol "+", lain_symbol "x", lain_symbol operand, lain_symbol "z"]]

/-- The operand is `ab` in the first program and `bA` in the second. -/
def addApplication : Application ℕ ℕ where
  outputs := [1]
  inputs := [2]
  closures id := addNetwork (if id = 0 then "ab" else "bA")
  is_unusable_value _ := false

/-- An arrival whose inputs hold a number. -/
def addArrival (closure : ℕ) : Arrival addApplication where
  closure := closure
  strongest _ := 1
  usable _ _ := rfl
  cell_text _ := "\x7b\x7d"
  elsewhere store := store

/-- `ab` and `bA` weigh the same: `33 * 97 + 98 = 33 * 98 + 65`. -/
theorem addNetwork_hash :
    simpleHash (stableStringify (fun _ => "\x7b\x7d") (addNetwork "ab").data) =
      simpleHash (stableStringify (fun _ => "\x7b\x7d") (addNetwork "bA").data) := by
  let symbol := fun value => "\x7b\"type\":\"Symbol\",\"value\":\"" ++ value ++ "\"\x7d"
  let before := "\x7b\"body\":[[" ++ symbol "+" ++ "," ++ symbol "x" ++ ",\x7b\"type\":\"Symbol\",\"value\":\""
  let after := "\"\x7d," ++ symbol "z" ++ "]],\"env\":\x7b\x7d,\"inputs\":[" ++ symbol "x" ++ "],\"name\":" ++ symbol "f" ++
    ",\"outputs\":[" ++ symbol "z" ++ "]\x7d"
  have htext : stableStringify (fun _ => "\x7b\x7d") (addNetwork "ab").data = before ++ "ab" ++ after := by
    decide +kernel
  have htext' : stableStringify (fun _ => "\x7b\x7d") (addNetwork "bA").data = before ++ "bA" ++ after := by
    decide +kernel
  rw [htext, htext']
  exact simpleHash_exchange (by decide : utf16 "ab" = [97, 98]) (by decide : utf16 "bA" = [98, 65]) (by norm_num)
    (by decide +kernel)

theorem renamed_operand_kept :
    ¬ Throughout arrive (LiveClosure.initial .empty) [addArrival 0, addArrival 1] (ShowsLatest addApplication) := by
  intro h
  have hlast := h.last
  rw [run_cons, run_cons, run_nil] at hlast
  have hinitial : Tracked addApplication (LiveClosure.initial .empty) := tracked_initial .empty
  have htracked := (arrive_outcome hinitial (addArrival 0)).1.tracked hinitial
  have hfirst : (arrive (LiveClosure.initial .empty) (addArrival 0)).live =
      some (eff_dispatch_inputs [1] (internal_unfold_closure addApplication ⟨0, 0⟩)) := rfl
  have hsame : (addNetwork "ab").Same (addNetwork "bA") :=
    (arrive_showsLatest htracked (addArrival 1)).1 hlast _ hfirst addNetwork_hash
  have hbody := hsame.body
  simp [addNetwork, lain_symbol] at hbody

end LainLang.Compiler
