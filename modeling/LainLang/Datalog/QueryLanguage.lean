import LainLang.Datalog.NetworkPipeline
import LainLang.Js.StringText
/-!
# The query language

The primitives `assert`, `derive`, `union` and `query` are wired to cells of facts as a
program wires them, cycles and shared outputs included. Facts, rules and patterns arrive
in any order, and the propagators run in any order. Each primitive means a monotone
function of what the cells hold.
-/
open LainLang.Lib LainLang.Js

namespace LainLang.Datalog

/-! ## The primitives -/

/-- What the cells of rules and the cells of patterns are updated with. The rules are
those of MiniDatalog. -/
structure QueryProgram where
  rules : ℕ → List ExtendedRule
  pattern : ℕ → Atom
  plain : ∀ i, has_extended_atoms (rules i) = false
  safe : ∀ i, ∀ r ∈ rules i, r.Safe

/-- A propagator with its cells. -/
inductive Primitive where
  | datalog_assert (source output : ℕ)
  | datalog_derive (edb_cell rules_cell output : ℕ)
  | datalog_union (a b output : ℕ)
  | datalog_query (derived pattern results : ℕ)

/-- A cell of the network: facts, rules or a pattern. -/
inductive QueryCell where
  | facts (i : ℕ)
  | rules (i : ℕ)
  | pattern (i : ℕ)
  deriving DecidableEq

/-- The cells the step reads. -/
def Primitive.inputs : Primitive → List QueryCell
  | .datalog_assert source _ => [.facts source]
  | .datalog_derive edb_cell rules_cell _ => [.facts edb_cell, .rules rules_cell]
  | .datalog_union a b _ => [.facts a, .facts b]
  | .datalog_query derived pattern _ => [.facts derived, .pattern pattern]

/-- The cell it writes. -/
def Primitive.output : Primitive → ℕ
  | .datalog_assert _ output => output
  | .datalog_derive _ _ output => output
  | .datalog_union _ _ output => output
  | .datalog_query _ _ results => results

/-- With the contents of the cells of rules and of patterns. -/
structure QueryNetwork (n : ℕ) extends FactCells ℕ (Fin n) where
  rules : ℕ → Option (List ExtendedRule)
  pattern : ℕ → Option Atom

/-- `JSON.stringify` of a fact. -/
def factKey (f : Fact) : String := stringify (.arr (f.map .str))

/-- A fact of the second cell is pushed unless its key was seen. -/
def pushUnseen (state : List String × List Fact) (f : Fact) : List String × List Fact :=
  if factKey f ∈ state.1 then state else (state.1 ++ [factKey f], state.2 ++ [f])

/-- The facts of the first, then those of the second whose key was not seen. -/
def union_facts (a_facts b_facts : List Fact) : List Fact :=
  (b_facts.foldl pushUnseen (a_facts.map factKey, a_facts)).2

section
variable (P : Pmatcher) (engines : MiniDatalog) (lib : QueryLibrary P)

/-- What the propagator updates its output with, if it does. -/
def Primitive.increment {n : ℕ} (s : QueryNetwork n) : Primitive → Option FactSet
  | .datalog_assert source _ => s.cell source
  | .datalog_derive edb_cell rules_cell _ =>
    match s.cell edb_cell, s.rules rules_cell with
    | some edb_val, some rules =>
      if rules = [] then none else some (make_fact_set (engines.semi_naive_datalog rules edb_val.facts))
    | _, _ => none
  | .datalog_union a b _ =>
    let a_facts := contentFacts (s.cell a)
    let b_facts := contentFacts (s.cell b)
    if a_facts = [] ∧ b_facts = [] then none else some (make_fact_set (union_facts a_facts b_facts))
  | .datalog_query derived pattern _ =>
    match s.cell derived, s.pattern pattern with
    | some facts_val, some pat =>
      let bindings := lib.query pat facts_val.facts
      if bindings.isEmpty then none else some (make_fact_set (bindings.filterMap (ground_fact P pat)))
    | _, _ => none

/-- A cell gets a value from outside, or a propagator is run. -/
inductive QueryEvent (n : ℕ) where
  | update (i : ℕ) (increment : FactSet)
  | update_rules (i : ℕ)
  | update_pattern (i : ℕ)
  | execute (j : Fin n)

variable {n : ℕ} (prims : Fin n → Primitive) (prog : QueryProgram)

namespace QueryNetwork

/-- Whether the propagator reads the cell. -/
def reads (j : Fin n) (cell : QueryCell) : Bool := decide (cell ∈ (prims j).inputs)

/-- A fact cell gets an increment, and alerts its readers when that changes it. -/
def update (s : QueryNetwork n) (i : ℕ) (increment : FactSet) : QueryNetwork n :=
  { s with toFactCells := s.toFactCells.update P (fun j i => reads prims j (.facts i)) i increment }

/-- A rules cell gets its value; only the first time is a change. -/
def update_rules (s : QueryNetwork n) (i : ℕ) : QueryNetwork n :=
  { s with
    toFactCells := s.alert (s.rules i).isNone fun j => reads prims j (.rules i)
    rules := Function.update s.rules i (some (prog.rules i)) }

/-- A pattern cell gets its value; only the first time is a change. -/
def update_pattern (s : QueryNetwork n) (i : ℕ) : QueryNetwork n :=
  { s with
    toFactCells := s.alert (s.pattern i).isNone fun j => reads prims j (.pattern i)
    pattern := Function.update s.pattern i (some (prog.pattern i)) }

/-- The scheduler takes the propagator from its queue. -/
def taken (s : QueryNetwork n) (j : Fin n) : QueryNetwork n := { s with toFactCells := s.toFactCells.taken j }

/-- The propagator runs: its increment goes to its output cell. -/
def execute (s : QueryNetwork n) (j : Fin n) : QueryNetwork n :=
  match (prims j).increment P engines lib s with
  | none => s.taken j
  | some increment => (s.taken j).update P prims (prims j).output increment

/-- One event. -/
def step (s : QueryNetwork n) : QueryEvent n → QueryNetwork n
  | .update i increment => s.update P prims i increment
  | .update_rules i => s.update_rules prims prog i
  | .update_pattern i => s.update_pattern prims prog i
  | .execute j => s.execute P engines lib prims j

/-- The scheduler has nothing to run. -/
def AtRest (s : QueryNetwork n) : Prop := ∀ j, s.alerted j = false

end QueryNetwork

end

/-! ## The keys of facts -/

/-- Whether there is something in a cell. -/
def heldAny (arrived : Bool) : WithBot (Set Fact) := if arrived then ((∅ : Set Fact) : WithBot (Set Fact)) else ⊥

open Classical in
/-- A propagator does not write an empty set of facts. -/
noncomputable def written (facts : Set Fact) : WithBot (Set Fact) := if facts = ∅ then ⊥ else facts

/-- The facts that are instances of the pattern. -/
def matching (pattern : Atom) (facts : Set Fact) : Set Fact := {f | f ∈ facts ∧ ∃ σ, Atom.eval σ pattern = f}

open Classical in
/-- A value that waits for another cell to hold something. -/
noncomputable def awaiting (x y : WithBot (Set Fact)) : WithBot (Set Fact) := if x = ⊥ then ⊥ else y

/-- What a primitive makes of the contents of the cells. -/
noncomputable def Primitive.meaning (prog : QueryProgram) (c : QueryCell → WithBot (Set Fact)) : Primitive → WithBot (Set Fact)
  | .datalog_assert source _ => c (.facts source)
  | .datalog_derive edb_cell rules_cell _ =>
    if prog.rules rules_cell = [] then ⊥
    else awaiting (c (.rules rules_cell)) ((c (.facts edb_cell)).map (least_model ∅ (prog.rules rules_cell)))
  | .datalog_union a b _ => written ((c (.facts a)).unbotD ∅ ∪ (c (.facts b)).unbotD ∅)
  | .datalog_query derived pattern _ =>
    awaiting (c (.pattern pattern)) (written (matching (prog.pattern pattern) ((c (.facts derived)).unbotD ∅)))

theorem written_mono : Monotone written := by
  intro S T hST
  unfold written
  by_cases hS : S = ∅
  · rw [if_pos hS]
    exact bot_le
  · have hT : T ≠ ∅ := fun hT => hS (Set.subset_empty_iff.1 (hT ▸ hST))
    rw [if_neg hS, if_neg hT]
    exact WithBot.coe_le_coe.2 hST

theorem matching_mono (pattern : Atom) : Monotone (matching pattern) := fun _ _ h _ hf => ⟨h hf.1, hf.2⟩

theorem least_model_monotone (rules : List ExtendedRule) : Monotone (least_model ∅ rules) := fun _ _ h => least_model_mono h

theorem awaiting_mono {x x' y y' : WithBot (Set Fact)} (hx : x ≤ x') (hy : y ≤ y') : awaiting x y ≤ awaiting x' y' := by
  unfold awaiting
  by_cases h : x = ⊥
  · rw [if_pos h]
    exact bot_le
  · have h' : x' ≠ ⊥ := fun hbot => h (le_bot_iff.1 (hbot ▸ hx))
    rw [if_neg h, if_neg h']
    exact hy

theorem meaning_mono (prog : QueryProgram) (p : Primitive) : Monotone fun c => p.meaning prog c := by
  intro c c' h
  cases p with
  | datalog_assert source output => exact h _
  | datalog_derive edb_cell rules_cell output =>
    have hmodel := (least_model_monotone (prog.rules rules_cell)).withBot_map (h (.facts edb_cell))
    by_cases hrules : prog.rules rules_cell = []
    · simp only [Primitive.meaning, if_pos hrules, le_refl]
    · simp only [Primitive.meaning, if_neg hrules]
      exact awaiting_mono (h _) hmodel
  | datalog_union a b output => exact written_mono (Set.union_subset_union (unbotD_mono (h _)) (unbotD_mono (h _)))
  | datalog_query derived pattern output =>
    exact awaiting_mono (h _) (written_mono (matching_mono (prog.pattern pattern) (unbotD_mono (h _))))

/-- The wiring as stages that add to cells. -/
noncomputable def queryFlow {n : ℕ} (prims : Fin n → Primitive) (prog : QueryProgram) :
    Dataflow QueryCell (Fin n) (WithBot (Set Fact)) where
  reads j cell := cell ∈ (prims j).inputs
  writes j := .facts (prims j).output
  value j c := (prims j).meaning prog c
  mono j := meaning_mono prog (prims j)
  reads_value j c c' h := by
    cases hp : prims j with
    | _ =>
      rw [hp] at h
      simp only [Primitive.inputs, List.mem_cons, List.not_mem_nil, or_false, forall_eq_or_imp, forall_eq] at h
      simp only [Primitive.meaning, h]

end LainLang.Datalog
