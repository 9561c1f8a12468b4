import LainLang.Lib.Saturate
/-!
# Logic programs and their evaluation

Facts are flat arrays of strings, atoms arrays of strings and variables.
`resolve_extended` runs a rule's body against the facts, and
`evaluate_extended_naive` runs the rules until they add nothing. Unification
and the two engines without extensions are pmatcher's, taken as parameters.
-/
open LainLang.Lib

namespace LainLang.Datalog

/-- What stands in an atom. -/
inductive Term where
  | V (name : String)
  | str (s : String)
  deriving DecidableEq, Repr

/-- A predicate and its arguments, as one list of terms. -/
abbrev Atom := List Term

/-- A ground atom. -/
abbrev Fact := List String

/-- A fact as an atom. -/
def Fact.terms (fact : Fact) : Atom := fact.map .str

/-- What `unify_internal` answers with: a dictionary, `false` or `undefined`. -/
inductive Unified (Dict : Type) where
  | dict (dict : Dict)
  | fail
  | undefined

/-- What `LogicProgram.ts` and `DatalogPropagator.ts` call of pmatcher, on atoms
and on what stands in them. The empty dictionary solves `unify`. -/
structure Pmatcher where
  Dict : Type
  empty_dict : Dict
  unify_internal : Term → Term → Dict → Unified Dict
  unify_internal_atoms : Atom → Atom → Dict → Unified Dict
  match_dict_substitute : Dict → Term → Term

/-- `unify` starts from the empty dictionary. -/
def Pmatcher.unify (P : Pmatcher) (a b : Atom) : Unified P.Dict := P.unify_internal_atoms a b P.empty_dict

/-! ## Declarations -/

/-- A body literal. An array `["=", t, u]` or `["!=", t, u]` is an atom here and
told apart by `is_eq` and `is_neq`, as in the source. -/
inductive BodyAtom where
  | atom (a : Atom)
  | or (branches : List (List BodyAtom))
  | and (conjuncts : List BodyAtom)
  | pred (variable_ : Term) (fn : String → Bool)
  | neg_fact (template : Atom)

/-- `ExtendedRule`: a head, and a body of atoms, guards and branches. -/
structure ExtendedRule where
  head : Atom
  body : List BodyAtom

/-- How `evaluate_program` runs the rules. -/
inductive ExecutionStrategy where
  | semi_naive
  | naive
  | incremental
  deriving DecidableEq, Repr

/-- `LogicProgram`: rules, and how they are run. -/
structure LogicProgram where
  rules : List ExtendedRule
  strategy : ExecutionStrategy

/-- `atom(pred, ...args)`. -/
def atom (pred : String) (args : List Term) : Atom := .str pred :: args

/-- `rule(head, ...body)`. -/
def rule (head : Atom) (body : List BodyAtom) : ExtendedRule := { head := head, body := body }

/-- `program(strategy, rules)`. -/
def program (strategy : ExecutionStrategy) (rules : List ExtendedRule) : LogicProgram :=
  { rules := rules, strategy := strategy }

/-- `NegFact(template)`: no fact matches the template. -/
def NegFact (template : Atom) : BodyAtom := .neg_fact template

/-! ## Resolver helpers -/

/-- A string; variables are objects. -/
def is_ground : Term → Bool
  | .V _ => false
  | .str _ => true

/-- The fact an atom without variables is. -/
def groundAtom : Atom → Option Fact
  | [] => some []
  | .V _ :: _ => none
  | .str s :: ts => (groundAtom ts).map (s :: ·)

section
variable (P : Pmatcher)

/-- The head under the dictionary, when no variable is left in it. -/
def ground_fact (head : Atom) (dict : P.Dict) : Option Fact := groundAtom (head.map (P.match_dict_substitute dict))

/-- A premise against one fact. -/
def unify_premise (premise : Atom) (fact : Fact) (dict : P.Dict) : Option P.Dict :=
  match P.unify_internal_atoms premise fact.terms dict with
  | .dict d => some d
  | .fail => none
  | .undefined => none

end

/-- Position by position. -/
def fact_equal (a b : Fact) : Bool := a.length == b.length && (a.zip b).all fun p => p.1 == p.2

/-- Whether the fact is new, and the facts with it. -/
def add_if_new (set : List Fact) (fact : Fact) : Bool × List Fact :=
  if set.any (fact_equal · fact) then (false, set) else (true, set ++ [fact])

/-- An atom `["=", a, b]`. -/
def is_eq (a : Atom) : Bool := a.length == 3 && a.head? == some (.str "=")

/-- An atom `["!=", a, b]`. -/
def is_neq (a : Atom) : Bool := a.length == 3 && a.head? == some (.str "!=")

/-- `a[i]`, for the two arguments of an equation. -/
def Atom.at (a : Atom) (i : ℕ) : Term := a.getD i (.str "")

/-! ## The extended resolver -/

mutual

/-- How many literals there are, those of branches and conjunctions included. -/
def BodyAtom.size : BodyAtom → ℕ
  | .or branches => branchesSize branches + 1
  | .and conjuncts => premisesSize conjuncts + 1
  | _ => 1

/-- The size of a body, for the recursion of `resolve_extended`. -/
def premisesSize : List BodyAtom → ℕ
  | [] => 0
  | a :: as => a.size + premisesSize as

/-- The size of the branches. -/
def branchesSize : List (List BodyAtom) → ℕ
  | [] => 0
  | b :: bs => premisesSize b + branchesSize bs

end

theorem premisesSize_append (as bs : List BodyAtom) :
    premisesSize (as ++ bs) = premisesSize as + premisesSize bs := by
  induction as with
  | nil => simp [premisesSize]
  | cons a as ih => simp [premisesSize, ih]; omega

theorem premisesSize_le {b : List BodyAtom} {bs : List (List BodyAtom)} (h : b ∈ bs) :
    premisesSize b ≤ branchesSize bs := by
  induction bs with
  | nil => cases h
  | cons c bs ih =>
    rw [branchesSize]
    rcases List.mem_cons.1 h with rfl | h
    · omega
    · have := ih h
      omega

/-- `premises` resolved against `facts`, with the bindings threaded. -/
def resolve_extended (P : Pmatcher) (head : Atom) : List BodyAtom → List Fact → P.Dict → List Fact
  | [], _, dict => (ground_fact P head dict).toList
  | .pred variable_ fn :: rest, facts, dict =>
    match P.match_dict_substitute dict variable_ with
    | .V _ => []
    | .str val => if fn val then resolve_extended P head rest facts dict else []
  | .or branches :: rest, facts, dict =>
    branches.attach.foldl
      (fun results branch => (resolve_extended P head (branch.1 ++ rest) facts dict).foldl (fun results f => (add_if_new results f).2) results)
      []
  | .and conjuncts :: rest, facts, dict => resolve_extended P head (conjuncts ++ rest) facts dict
  | .neg_fact template :: rest, facts, dict =>
    match groundAtom (template.map (P.match_dict_substitute dict)) with
    | none => []
    | some probe => if facts.any (fact_equal · probe) then [] else resolve_extended P head rest facts dict
  | .atom a :: rest, facts, dict =>
    if is_eq a then
      let t1 := P.match_dict_substitute dict (a.at 1)
      let t2 := P.match_dict_substitute dict (a.at 2)
      match P.unify_internal t1 t2 dict with
      | .dict new_dict => resolve_extended P head rest facts new_dict
      | .fail => []
      | .undefined => []
    else if is_neq a then
      let t1 := P.match_dict_substitute dict (a.at 1)
      let t2 := P.match_dict_substitute dict (a.at 2)
      if !is_ground t1 || !is_ground t2 then []
      else
        match P.unify_internal t1 t2 P.empty_dict with
        | .fail => resolve_extended P head rest facts dict
        | .dict _ => []
        | .undefined => []
    else
      facts.flatMap fun fact =>
        match unify_premise P a fact dict with
        | some new_dict => resolve_extended P head rest facts new_dict
        | none => []
  termination_by premises => premisesSize premises
  decreasing_by
    all_goals try simp only [premisesSize, premisesSize_append, BodyAtom.size]
    · omega
    · have := premisesSize_le branch.2
      omega
    all_goals omega

/-! ## The evaluation engine -/

mutual

/-- Guards, `Or` and `And` are beyond MiniDatalog. -/
def body_atom_requires_extended : BodyAtom → Bool
  | .pred _ _ => true
  | .neg_fact _ => true
  | .or branches => branches_require_extended branches
  | .and conjuncts => body_requires_extended conjuncts
  | .atom _ => false

/-- Some atom of the body is beyond MiniDatalog. -/
def body_requires_extended : List BodyAtom → Bool
  | [] => false
  | a :: as => body_atom_requires_extended a || body_requires_extended as

/-- Some branch is beyond MiniDatalog. -/
def branches_require_extended : List (List BodyAtom) → Bool
  | [] => false
  | b :: bs => body_requires_extended b || branches_require_extended bs

end

/-- Some rule is beyond MiniDatalog. -/
def has_extended_atoms (rules : List ExtendedRule) : Bool := rules.any fun r => body_requires_extended r.body

section
variable (P : Pmatcher)

/-- The inner loop of `step`: adds what a rule derived. -/
def addDerived (derived : List Fact) (state : Bool × List Fact) : Bool × List Fact :=
  derived.foldl (fun state f => (state.1 || (add_if_new state.2 f).1, (add_if_new state.2 f).2)) state

/-- One round of `evaluate_naive_extended`: each rule over all facts, those just added included. -/
def step (rules : List ExtendedRule) (all_facts : List Fact) : Bool × List Fact :=
  rules.foldl (fun state r => addDerived (resolve_extended P r.head r.body state.2 P.empty_dict) state) (false, all_facts)

/-- The `while` loop, and with it the function. -/
def evaluate_extended_naive (rules : List ExtendedRule) : ℕ → List Fact → Option (List Fact)
  | 0, _ => none
  | fuel + 1, all_facts =>
    match step P rules all_facts with
    | (true, all_facts) => evaluate_extended_naive rules fuel all_facts
    | (false, all_facts) => some all_facts

end

/-- The two engines of MiniDatalog. -/
structure MiniDatalog where
  semi_naive_datalog : List ExtendedRule → List Fact → List Fact
  naive_datalog : List ExtendedRule → List Fact → List Fact

/-- `evaluate_program`: semi-naive only when every rule is plain. -/
def evaluate_program (P : Pmatcher) (engines : MiniDatalog) (fuel : ℕ) (prog : LogicProgram) (edb : List Fact) :
    Option (List Fact) :=
  if prog.strategy = .semi_naive ∧ has_extended_atoms prog.rules = false then
    some (engines.semi_naive_datalog prog.rules edb)
  else if prog.strategy = .naive ∧ has_extended_atoms prog.rules = false then
    some (engines.naive_datalog prog.rules edb)
  else evaluate_extended_naive P prog.rules fuel edb

/-! ## The evaluator saturates -/

theorem fact_equal_iff {a b : Fact} : fact_equal a b = true ↔ a = b := by
  induction a generalizing b with
  | nil => cases b <;> simp [fact_equal]
  | cons s a ih =>
    cases b with
    | nil => simp [fact_equal]
    | cons s' b =>
      rw [List.cons.injEq, ← ih]
      simp [fact_equal, and_left_comm]

theorem any_fact_equal {facts : List Fact} {fact : Fact} : facts.any (fact_equal · fact) = true ↔ fact ∈ facts := by
  simp [fact_equal_iff]

theorem add_if_new_eq (set : List Fact) (fact : Fact) : add_if_new set fact = addNew set fact := by
  unfold add_if_new addNew
  by_cases h : fact ∈ set
  · rw [if_pos h, if_pos (any_fact_equal.2 h)]
  · rw [if_neg h, if_neg (mt any_fact_equal.1 h)]

theorem addDerived_eq (derived : List Fact) (state : Bool × List Fact) : addDerived derived state = addAll derived state := by
  induction derived generalizing state with
  | nil => rfl
  | cons f derived ih =>
    rw [addAll, ← ih, ← add_if_new_eq]
    rfl

/-- What a rule derives from the facts. -/
def derive (P : Pmatcher) (r : ExtendedRule) (facts : List Fact) : List Fact :=
  resolve_extended P r.head r.body facts P.empty_dict

theorem step_eq (P : Pmatcher) (rules : List ExtendedRule) (all_facts : List Fact) :
    step P rules all_facts = sweep (derive P) rules (false, all_facts) := by
  suffices h : ∀ state, rules.foldl (fun state r => addDerived (resolve_extended P r.head r.body state.2 P.empty_dict) state) state =
      sweep (derive P) rules state from h _
  induction rules with
  | nil => exact fun state => rfl
  | cons r rules ih =>
    intro state
    rw [List.foldl_cons, ih, addDerived_eq]
    rfl

theorem evaluate_extended_naive_eq (P : Pmatcher) (rules : List ExtendedRule) (fuel : ℕ) (edb : List Fact) :
    evaluate_extended_naive P rules fuel edb = saturate (derive P) rules fuel edb := by
  induction fuel generalizing edb with
  | zero => rfl
  | succ fuel ih =>
    rw [evaluate_extended_naive, saturate, step_eq]
    cases sweep (derive P) rules (false, edb) with
    | mk changed db => cases changed <;> simp [ih]

end LainLang.Datalog
