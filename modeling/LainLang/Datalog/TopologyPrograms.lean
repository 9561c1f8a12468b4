import LainLang.Datalog.LeastModel
/-!
# Programs about the network's topology

`topology_reachability_program` closes `flows_to` under composition;
`topology_triad_one_way_surface_program` is the stage after it, which looks for
what is not reachable.
-/
open LainLang.Lib

namespace LainLang.Datalog

/-- Some propagator reads `A` and writes `B`. -/
def flowsToRule : ExtendedRule :=
  rule (atom "flows_to" [.V "A", .V "B"]) [.atom (atom "reads" [.V "P", .V "A"]), .atom (atom "writes" [.V "P", .V "B"])]

/-- One step. -/
def reachableRule : ExtendedRule :=
  rule (atom "reachable" [.V "A", .V "B"]) [.atom (atom "flows_to" [.V "A", .V "B"])]

/-- One step more. -/
def reachableStepRule : ExtendedRule :=
  rule (atom "reachable" [.V "A", .V "C"]) [.atom (atom "reachable" [.V "A", .V "B"]), .atom (atom "flows_to" [.V "B", .V "C"])]

/-- What flows from cell to cell, in any number of steps. -/
def topology_reachability_program (strategy : ExecutionStrategy) : LogicProgram :=
  program strategy [flowsToRule, reachableRule, reachableStepRule]

/-- The pairs of three ids, each in both directions. -/
def directed (a b c : String) : List (String × String) := [(a, b), (b, a), (a, c), (c, a), (b, c), (c, b)]

/-- Reachable in this direction and not in the other. -/
def oneWayRule (pair : String × String) : ExtendedRule :=
  rule (atom "surface_one_way" [.str pair.1, .str pair.2])
    [.atom (atom "reachable" [.str pair.1, .str pair.2]), NegFact (atom "reachable" [.str pair.2, .str pair.1])]

/-- `topology_triad_one_way_surface_program`, over the directed pairs of the triad. -/
def topology_triad_one_way_surface_program (a b c : String) (strategy : ExecutionStrategy) : LogicProgram :=
  program strategy ((directed a b c).map oneWayRule)

theorem mem_directed {a b c x y : String} (hx : x ∈ [a, b, c]) (hy : y ∈ [a, b, c]) (hxy : x ≠ y) :
    (x, y) ∈ directed a b c := by
  simp only [List.mem_cons, List.not_mem_nil, or_false] at hx hy
  simp only [directed, List.mem_cons, Prod.mk.injEq, List.not_mem_nil, or_false]
  rcases hx with rfl | rfl | rfl <;> rcases hy with rfl | rfl | rfl <;> simp_all

/-! ## They are safe, and run by the naive evaluation -/

theorem reachability_safe (strategy : ExecutionStrategy) :
    ∀ r ∈ (topology_reachability_program strategy).rules, r.Safe := by
  have hcheck : ∀ r ∈ [flowsToRule, reachableRule, reachableStepRule], r.safe = true := by decide
  exact fun r hr => safe_of_check (hcheck r hr)

theorem reachability_positive (strategy : ExecutionStrategy) :
    ∀ r ∈ (topology_reachability_program strategy).rules, bodyNegated r.body = [] := by
  have hcheck : ∀ r ∈ [flowsToRule, reachableRule, reachableStepRule], bodyNegated r.body = [] := by decide
  exact hcheck

theorem evaluate_reachability (P : Pmatcher) (engines : MiniDatalog) (fuel : ℕ) (edb : List Fact) :
    evaluate_program P engines fuel (topology_reachability_program .incremental) edb =
      evaluate_extended_naive P [flowsToRule, reachableRule, reachableStepRule] fuel edb := rfl

theorem oneWayRule_safe (pair : String × String) : (oneWayRule pair).Safe := by
  apply safe_of_check
  simp [ExtendedRule.safe, oneWayRule, rule, atom, NegFact, bodyPaths, BodyAtom.paths, safePath, Atom.variables,
    BodyAtom.guarded, is_neq]

theorem evaluate_oneWay (P : Pmatcher) (engines : MiniDatalog) (fuel : ℕ) (a b c : String) (strategy : ExecutionStrategy)
    (edb : List Fact) : evaluate_program P engines fuel (topology_triad_one_way_surface_program a b c strategy) edb =
      evaluate_extended_naive P ((directed a b c).map oneWayRule) fuel edb := by
  have hextended : has_extended_atoms ((directed a b c).map oneWayRule) = true := by
    simp [has_extended_atoms, directed, oneWayRule, rule, NegFact, body_requires_extended, body_atom_requires_extended]
  simp [evaluate_program, topology_triad_one_way_surface_program, program, hextended]

/-! ## Bodies of atoms -/

theorem holds_atom {I N : Set Fact} {σ : Assignment} {pred : String} {args : List Term} (heq : pred ≠ "=") (hneq : pred ≠ "!=") :
    (BodyAtom.atom (atom pred args)).Holds I N σ ↔ pred :: Atom.eval σ args ∈ I := by
  have h1 : is_eq (atom pred args) = false := by simp [is_eq, atom, heq]
  have h2 : is_neq (atom pred args) = false := by simp [is_neq, atom, hneq]
  rw [BodyAtom.Holds, h1, h2]
  rfl

end LainLang.Datalog
