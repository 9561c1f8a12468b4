import LainLang.Tracer.Query
/-!
# The relational reading of a query

What the clauses of a query say about values for its `?`-variables, with no word
on states or substitutions: a clause holds of an assignment if the node, edge,
attribute, label or path it names is there.
-/
open LainLang.Lib LainLang.Js

namespace LainLang.Tracer

/-! ## Values of terms -/

mutual

/-- The value of a term, its strings read by `strings`. -/
def fill (strings : String → Value) : Term → Value
  | .atom (.str s) => strings s
  | .atom a => .atom a
  | .arr items => .arr (fillItems strings items)
  | .obj fields => .obj (fillFields strings fields)

/-- The items of an array, filled in. -/
def fillItems (strings : String → Value) : List Term → List Value
  | [] => []
  | t :: ts => fill strings t :: fillItems strings ts

/-- The fields of an object, filled in. -/
def fillFields (strings : String → Value) : List (String × Term) → List (String × Value)
  | [] => []
  | (k, t) :: fs => (k, fill strings t) :: fillFields strings fs

end

/-- A string value. -/
def Value.str (s : String) : Value := .atom (.str s)

/-- The value of data. -/
def literal : Term → Value := fill Value.str

/-- Values for the `?`-variables of a query, by name. -/
abbrev Assignment := String → Value

/-- The value of a term of a query. -/
def valueOf (ρ : Assignment) : Term → Value := fill fun s => if startsWith s "?" then ρ s else .str s

/-- No logic variable anywhere in the term. -/
inductive NoVars : Term → Prop where
  | atom (a : Atom) : NoVars (.atom a)
  | arr {items : List Term} (all : ∀ x ∈ items, NoVars x) : NoVars (.arr items)
  | obj {fields : List (String × Term)} (root : is_logic_var (.obj fields) = none)
      (all : ∀ k x, field fields k = some x → NoVars x) : NoVars (.obj fields)

theorem fillItems_eq (strings : String → Value) (items : List Term) : fillItems strings items = items.map (fill strings) := by
  induction items with
  | nil => rfl
  | cons t ts ih => rw [fillItems, ih, List.map_cons]

theorem fillFields_eq (strings : String → Value) (fields : List (String × Term)) :
    fillFields strings fields = fields.map fun f => (f.1, fill strings f.2) := by
  induction fields with
  | nil => rfl
  | cons f fs ih => rw [fillFields, ih, List.map_cons]

/-! ## Relations of a graph -/

section relations
variable (graph : DirectedGraph)

/-- `node`, as a relation. -/
def NodeFact (x y : Value) : Prop :=
  ∃ id attrs, graph.nodes.get? id = some attrs ∧ Same x (.str id) ∧ Same y (literal (.obj attrs))

/-- `edge`, as a relation. -/
def EdgeFact (x y : Value) : Prop := ∃ a b, (a, b) ∈ graph.edges ∧ Same x (.str a) ∧ Same y (.str b)

/-- A node and its attribute, where `counts` holds of the attribute. -/
def AttrFact (attr_name : String) (counts : Term → Prop) (x y : Value) : Prop :=
  ∃ id attrs, graph.nodes.get? id = some attrs ∧ counts (get_attr attrs attr_name) ∧ Same x (.str id) ∧
    Same y (literal (get_attr attrs attr_name))

/-- A node whose label is a string that passes the test against a string. -/
def LabelFact (test : String → String → Bool) (x y : Value) : Prop :=
  ∃ id attrs raw_label text, graph.nodes.get? id = some attrs ∧ get_attr attrs "label" = .str raw_label ∧
    test raw_label text = true ∧ Same x (.str id) ∧ Same y (.str text)

/-- `reachable`, as a relation. -/
def PathFact (x y : Value) : Prop := ∃ a b, graph.Path a b ∧ Same x (.str a) ∧ Same y (.str b)

end relations

/-- The fields that an operator on two terms reads, and the relation it names.
An absent `kind`, `namespace`, `relationLevel` or `label` is the value
`undefined`; an absent `value` or `content` is no fact. -/
def binary_relation (graph : DirectedGraph) : String → Option (String × String × (Value → Value → Prop))
  | "equal" => some ("left", "right", Same)
  | "node" => some ("id", "attrs", NodeFact graph)
  | "edge" => some ("source", "target", EdgeFact graph)
  | "kind" => some ("id", "value", AttrFact graph "kind" fun _ => True)
  | "namespace" => some ("id", "value", AttrFact graph "namespace" fun _ => True)
  | "level" => some ("id", "value", AttrFact graph "relationLevel" fun _ => True)
  | "label" => some ("id", "value", AttrFact graph "label" fun _ => True)
  | "value" => some ("id", "value", AttrFact graph "value" (· ≠ .undefined))
  | "content" => some ("id", "value", AttrFact graph "content" (· ≠ .undefined))
  | "label_prefix" => some ("id", "value", LabelFact graph startsWith)
  | "label_contains" => some ("id", "value", LabelFact graph includes)
  | "reachable" => some ("source", "target", PathFact graph)
  | "downstream_of" => some ("source", "target", PathFact graph)
  | "upstream_of" => some ("source", "target", fun x y => PathFact graph y x)
  | _ => none

/-- The operators whose second term must be a string when the goal runs. -/
def needsText (op : String) : Prop := op = "label_prefix" ∨ op = "label_contains"

/-! ## Clauses -/

/-- An object. -/
def isObject : Term → Bool
  | .obj _ => true
  | _ => false

/-- The clauses among `clause.clauses`. -/
def subclauses (fields : List (String × Term)) : List Term :=
  match field fields "clauses" with
  | some (.arr clauses) => clauses.filter isObject
  | _ => []

/-- The op of a clause. -/
def hasOp (fields : List (String × Term)) (op : String) : Prop := field fields "op" = some (.str op)

/-- The assignment satisfies the clause. -/
inductive Satisfies (graph : DirectedGraph) (ρ : Assignment) : Term → Prop where
  | and {fields : List (String × Term)} (op : hasOp fields "and")
      (all : ∀ c ∈ subclauses fields, Satisfies graph ρ c) : Satisfies graph ρ (.obj fields)
  | or {fields : List (String × Term)} {c : Term} (op : hasOp fields "or") (mem : c ∈ subclauses fields)
      (branch : Satisfies graph ρ c) : Satisfies graph ρ (.obj fields)
  | join_through {fields : List (String × Term)} (op : hasOp fields "join_through")
      (first : EdgeFact graph (valueOf ρ (clauseField fields "source")) (valueOf ρ (clauseField fields "middle")))
      (second : EdgeFact graph (valueOf ρ (clauseField fields "middle")) (valueOf ρ (clauseField fields "target"))) :
      Satisfies graph ρ (.obj fields)
  | binary {fields : List (String × Term)} {name first second : String} {R : Value → Value → Prop}
      (op : hasOp fields name) (relation : binary_relation graph name = some (first, second, R))
      (holds : R (valueOf ρ (clauseField fields first)) (valueOf ρ (clauseField fields second))) :
      Satisfies graph ρ (.obj fields)

/-- The clause has recognised operators only, an `or` has a branch, a label is
tested against a literal string and no term has a variable in it. -/
inductive Recognised (graph : DirectedGraph) : Term → Prop where
  | and {fields : List (String × Term)} (op : hasOp fields "and") (all : ∀ c ∈ subclauses fields, Recognised graph c) :
      Recognised graph (.obj fields)
  | or {fields : List (String × Term)} (op : hasOp fields "or") (some : subclauses fields ≠ [])
      (all : ∀ c ∈ subclauses fields, Recognised graph c) : Recognised graph (.obj fields)
  | join_through {fields : List (String × Term)} (op : hasOp fields "join_through")
      (source : NoVars (clauseField fields "source")) (middle : NoVars (clauseField fields "middle"))
      (target : NoVars (clauseField fields "target")) : Recognised graph (.obj fields)
  | binary {fields : List (String × Term)} {name first second : String} {R : Value → Value → Prop}
      (op : hasOp fields name) (relation : binary_relation graph name = some (first, second, R))
      (left : NoVars (clauseField fields first)) (right : NoVars (clauseField fields second))
      (text : needsText name → ∃ s, clauseField fields second = .str s ∧ startsWith s "?" = false) :
      Recognised graph (.obj fields)

/-! ## The variables and the projection of a query -/

mutual

/-- The `?`-variables of a term. -/
def termVars : Term → List String
  | .atom (.str s) => if startsWith s "?" then [s] else []
  | .atom _ => []
  | .arr items => itemsVars items
  | .obj fields => (ownEntries (fieldsVars fields)).flatMap Prod.snd

/-- The variables in an array. -/
def itemsVars : List Term → List String
  | [] => []
  | t :: ts => termVars t ++ itemsVars ts

/-- The variables in each field. -/
def fieldsVars : List (String × Term) → List (String × List String)
  | [] => []
  | (k, t) :: fs => (k, termVars t) :: fieldsVars fs

end

/-- The fields of a clause that hold terms. -/
def termKeys (graph : DirectedGraph) (op : String) : List String :=
  if op = "join_through" then ["source", "middle", "target"]
  else
    match binary_relation graph op with
    | some (first, second, _) => [first, second]
    | none => []

mutual

/-- The `?`-variables of a clause. -/
def clauseVars (graph : DirectedGraph) : Term → List String
  | .obj fields =>
    match field fields "op" with
    | some (.atom (.str op)) =>
      if op = "and" ∨ op = "or" then nestedVars graph fields
      else (termKeys graph op).flatMap fun key => termVars (clauseField fields key)
    | _ => []
  | _ => []

/-- The variables under `clauses`. -/
def nestedVars (graph : DirectedGraph) : List (String × Term) → List String
  | [] => []
  | (key, t) :: fields =>
    if key = "clauses" then
      match t with
      | .arr clauses => clausesVars graph clauses
      | _ => []
    else nestedVars graph fields

/-- The variables of a list of clauses. -/
def clausesVars (graph : DirectedGraph) : List Term → List String
  | [] => []
  | c :: cs => clauseVars graph c ++ clausesVars graph cs

end

/-- What an assignment projects to: the value of `select`, or an object with the
value of each variable of the clauses. -/
def projected (graph : DirectedGraph) (parsed : LogicQuerySpec) (ρ : Assignment) : Value :=
  match parsed.select with
  | some select => valueOf ρ select
  | none => .obj ((clausesVars graph parsed.where).map fun name => (sliceFrom name 1, ρ name))

/-! ## Reading a clause by its operator -/

section satisfies
variable {graph : DirectedGraph} {ρ : Assignment} {fields : List (String × Term)}

theorem hasOp_unique {op op' : String} (h : hasOp fields op) (h' : hasOp fields op') : op = op' := by
  rw [hasOp, h] at h'
  simpa [Term.str] using h'

theorem satisfies_and (op : hasOp fields "and") :
    Satisfies graph ρ (.obj fields) ↔ ∀ c ∈ subclauses fields, Satisfies graph ρ c := by
  constructor
  · intro h
    cases h with
    | and _ all => exact all
    | or op' => exact absurd (hasOp_unique op op') (by decide)
    | join_through op' => exact absurd (hasOp_unique op op') (by decide)
    | binary op' relation => obtain rfl := hasOp_unique op op'; cases relation
  · exact .and op

theorem satisfies_or (op : hasOp fields "or") :
    Satisfies graph ρ (.obj fields) ↔ ∃ c ∈ subclauses fields, Satisfies graph ρ c := by
  constructor
  · intro h
    cases h with
    | and op' => exact absurd (hasOp_unique op op') (by decide)
    | or _ mem branch => exact ⟨_, mem, branch⟩
    | join_through op' => exact absurd (hasOp_unique op op') (by decide)
    | binary op' relation => obtain rfl := hasOp_unique op op'; cases relation
  · rintro ⟨c, mem, branch⟩
    exact .or op mem branch

theorem satisfies_join_through (op : hasOp fields "join_through") : Satisfies graph ρ (.obj fields) ↔
    EdgeFact graph (valueOf ρ (clauseField fields "source")) (valueOf ρ (clauseField fields "middle")) ∧
      EdgeFact graph (valueOf ρ (clauseField fields "middle")) (valueOf ρ (clauseField fields "target")) := by
  constructor
  · intro h
    cases h with
    | and op' => exact absurd (hasOp_unique op op') (by decide)
    | or op' => exact absurd (hasOp_unique op op') (by decide)
    | join_through _ first second => exact ⟨first, second⟩
    | binary op' relation => obtain rfl := hasOp_unique op op'; cases relation
  · rintro ⟨first, second⟩
    exact .join_through op first second

theorem satisfies_binary {name first second : String} {R : Value → Value → Prop} (op : hasOp fields name)
    (relation : binary_relation graph name = some (first, second, R)) : Satisfies graph ρ (.obj fields) ↔
      R (valueOf ρ (clauseField fields first)) (valueOf ρ (clauseField fields second)) := by
  constructor
  · intro h
    cases h with
    | and op' => obtain rfl := hasOp_unique op op'; cases relation
    | or op' => obtain rfl := hasOp_unique op op'; cases relation
    | join_through op' => obtain rfl := hasOp_unique op op'; cases relation
    | binary op' relation' holds =>
      obtain rfl := hasOp_unique op op'
      rw [relation] at relation'
      cases relation'
      exact holds
  · exact .binary op relation

end satisfies

end LainLang.Tracer
