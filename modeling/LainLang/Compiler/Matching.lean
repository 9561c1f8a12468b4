import LainLang.Compiler.Unfold
import LainLang.Lib.Relational
/-!
# Handlers of the compiler

`define_generic_expr_handler` gives each handler one variable `matched`. The
matcher writes it whenever the dispatch asks whether the handler fits an
expression, and the function a compilation returned reads it only when it is
applied to an environment.
-/
open LainLang.Lib LainLang.Js

namespace LainLang.Compiler.Matching

/-! ## Patterns -/

/-- A pattern of `[P.element, name, predicate]`, `[P.segment, name]` and lists. -/
inductive Pattern where
  | element (name : String) (predicate : LainExpr → Bool)
  | segment (name : String)
  | list (items : List Pattern)

mutual

/-- The names a pattern binds. -/
def Pattern.names : Pattern → List String
  | .element name _ => [name]
  | .segment name => [name]
  | .list items => Pattern.namesOf items

/-- The names a list of patterns binds. -/
def Pattern.namesOf : List Pattern → List String
  | [] => []
  | p :: ps => p.names ++ Pattern.namesOf ps

end

/-- The dictionary of a match. -/
abbrev Bindings := String → Option LainExpr

/-- The pattern matcher: a function of its arguments that binds every name of a
pattern that matches. A segment is bound to the list of its items. -/
structure Matcher where
  match_ : LainExpr → List Pattern → Option Bindings
  binds : ∀ args pattern b, match_ args pattern = some b → ∀ name ∈ Pattern.namesOf pattern, ∃ x, b name = some x
  safeGet_error : String → String
  text : List Pattern → String
  inspect : Option (Option Bindings) → String

/-- An element whose type has the text of `type`. -/
def has_type (type : LainType) : LainExpr → Bool
  | .element t _ => t.text == type.text
  | _ => false

/-- An element of type `Symbol`. -/
def is_element_symbol (x : LainExpr) : Bool := has_type .symbol x

/-- A string, a number or a boolean. -/
def is_self_evaluating (x : LainExpr) : Bool := has_type .string x || has_type .number x || has_type .boolean x

/-- `[P.element, name]`. -/
def element (name : String) : Pattern := .element name fun _ => true

/-- An element that is the symbol, under a name. -/
def p_symbol (symbol name : String) : Pattern :=
  .element name fun x => is_element_symbol x && (match expr_value x with
    | some (.str s) => s == symbol
    | _ => false)

/-- A symbol of the language, under a name of its own. -/
def s_constant (symbol : String) : Pattern := p_symbol symbol (symbol ++ "_constant")

/-- The handlers of `compile`, in the order they are defined: for constants,
symbols, `->`, `network`, `?`, `??` and `>::`. -/
inductive Handler where
  | constant | symbol | output | network | summary | inspect | update
  deriving DecidableEq

/-- The pattern that each handler is defined with. -/
def Handler.pattern : Handler → List Pattern
  | .constant => [.element "constant" is_self_evaluating]
  | .symbol => [.element "symbol" is_element_symbol]
  | .output => [.list [s_constant "->", element "A"]]
  | .network => [.list [s_constant "network", element "name", .list [s_constant ">::", .segment "inputs"],
      .list [s_constant "::>", .segment "outputs"], .segment "body"]]
  | .summary => [.list [s_constant "?", element "A"]]
  | .inspect => [.list [s_constant "??", element "A"]]
  | .update => [.list [s_constant ">::", element "cell", element "value"]]

/-- The keys a handler looks up, in order. -/
def Handler.keys : Handler → List String
  | .constant => ["constant"]
  | .symbol => ["symbol"]
  | .output => ["A"]
  | .network => ["name", "inputs", "outputs", "body", "name"]
  | .summary => ["A"]
  | .inspect => ["A"]
  | .update => ["cell", "value"]

theorem Handler.keys_names (h : Handler) : ∀ key ∈ h.keys, key ∈ Pattern.namesOf h.pattern := by
  cases h <;>
    simp [Handler.keys, Handler.pattern, Pattern.namesOf, Pattern.names, s_constant, p_symbol, element]

/-- The generic dispatch: the handlers it asks, given whether each fits, and the one
it runs. It runs a handler that it asked and that fits. -/
structure Dispatch where
  asked : (Handler → Bool) → List Handler
  chosen : (Handler → Bool) → Option Handler
  chosen_spec : ∀ fits h, chosen fits = some h → h ∈ asked fits ∧ fits h = true

/-! ## States -/

/-- `matched` is undefined until the handler's matcher is asked. `reads` is what
`force_get_dict_value` has answered so far. -/
structure State (World : Type) where
  matched : Handler → Option (Option Bindings)
  world : World
  reads : List (String × LainExpr)

/-- What was thrown, or calls nested deeper than is looked at. -/
inductive Failure where
  | thrown (message : String)
  | deeper

/-- Code that reads and writes the variables `matched`. -/
abbrev Program (World : Type) := EStateM Failure (State World)

section compiler

variable (M : Matcher) (D : Dispatch) {World Val : Type}

/-- The predicate of a handler: it matches, and puts the answer into `matched`. -/
def expr_matcher (h : Handler) (args : LainExpr) : Program World Bool := do
  let matched := M.match_ args h.pattern
  modify fun s => { s with matched := fun h' => if h' = h then some matched else s.matched h' }
  return matched.isSome

/-- Looks a key up in what the handler has matched last. -/
def force_get_dict_value (h : Handler) (key : String) : Program World LainExpr := do
  let s ← get
  match s.matched h with
  | some (some dictionary) =>
    match dictionary key with
    | some value => do
      modify fun s => { s with reads := s.reads ++ [(key, value)] }
      return value
    | none =>
      throw (.thrown ("value not found in matched dictionary, key: " ++ key ++ " error: " ++ M.safeGet_error key))
  | matched =>
    throw (.thrown ("match failed, expr: " ++ M.text h.pattern ++ "matched: " ++ M.inspect matched))

/-- What `compile` returns: the function of a handler, or of the default. -/
inductive Code where
  | handler (h : Handler)
  | default (expr : LainExpr)

/-- Whether the pattern of a handler matches an expression. -/
def fits (e : LainExpr) (h : Handler) : Bool := (M.match_ (.list [e]) h.pattern).isSome

/-- The dispatch asks a handler, which changes its `matched`. -/
def ask (e : LainExpr) (h : Handler) : Program World PUnit := do
  let _ ← expr_matcher M h (.list [e])

/-- `compile(expr)`: the dispatch asks and chooses, and nothing runs yet. -/
def compile (e : LainExpr) : Program World Code := do
  (D.asked (fits M e)).forM (ask M e)
  return (D.chosen (fits M e)).elim (.default e) .handler

end compiler

/-! ## What handlers do -/

/-- Code behind a handler: operations on the world, and compilations. What a
compilation is applied to is `Ctx`: an environment for `compile`. -/
inductive Action (Ctx World Val : Type) where
  | done (result : Val)
  | op (op : EStateM String World Val) (next : Val → Action Ctx World Val)
  | call (expr : LainExpr) (ctx : Ctx) (next : Val → Action Ctx World Val)

/-- What the handlers of both compilers call. The value of an environment is looked at
without a compilation. -/
structure CommonCallees (Ctx World Val : Type) where
  undefined : Val
  text : String → Val
  constant_cell_from_expr : LainExpr → Action Ctx World Val
  ce_cached_lexical_lookup : Option LainExpr → Val → Action Ctx World Val
  construct_cell : Option LainExpr → Action Ctx World Val
  bind_to_env : Option LainExpr → Val → Val → Action Ctx World Val
  execute_all_tasks_sequential : Action Ctx World Val
  summarize : Val → Action Ctx World Val
  cell_strongest_base_value : Val → World → Val
  cell_content : Val → World → Val
  is_map : Val → Bool
  map_get : World → Val → Option LainExpr → Option Val
  summarize_cells : List Val → Action Ctx World Val
  console_log : Val → Action Ctx World Val

section common

variable {Ctx World Val : Type}

/-- An operation on the world, what it throws included. -/
def at_world (op : EStateM String World Val) : Program World Val := fun s =>
  match op s.world with
  | .ok v world => .ok v { s with world := world }
  | .error message world => .error (.thrown message) { s with world := world }

/-- `call` is the compilation of an expression, applied. -/
def perform (call : LainExpr → Ctx → Program World Val) : Action Ctx World Val → Program World Val
  | .done result => pure result
  | .op op next => at_world op >>= fun v => perform call (next v)
  | .call expr ctx next => call expr ctx >>= fun v => perform call (next v)

/-- A look at the world. -/
def value_of_world (f : World → Val) : Program World Val := do
  let s ← get
  return f s.world

variable (M : Matcher) (C : CommonCallees Ctx World Val) (call : LainExpr → Ctx → Program World Val) (ctx : Ctx) (env : Val)

/-- A constant becomes a constant cell. -/
def constant_handler : Program World Val := do
  let constant ← force_get_dict_value M .constant "constant"
  perform call (C.constant_cell_from_expr constant)

/-- A symbol is looked up in the environment. -/
def symbol_handler : Program World Val := do
  let symbol_expr ← force_get_dict_value M .symbol "symbol"
  perform call (C.ce_cached_lexical_lookup (expr_value symbol_expr) env)

/-- A symbol is bound to a new cell; anything else is compiled. -/
def output_handler : Program World Val := do
  let expr ← force_get_dict_value M .output "A"
  if is_element_symbol expr then
    let output ← perform call (C.construct_cell (expr_value expr))
    let _ ← perform call (C.bind_to_env (expr_value expr) output env)
    return output
  else call expr ctx

/-- What is compiled is summarised when the scheduler is through. -/
def summary_handler : Program World Val := do
  let expr ← force_get_dict_value M .summary "A"
  let a ← call expr ctx
  let _ ← perform call C.execute_all_tasks_sequential
  perform call (C.summarize a)

/-- The environment is not a map. -/
def log_environment : Program World Val := do
  let content ← value_of_world (C.cell_content env)
  let _ ← perform call (C.console_log content)
  let value ← value_of_world (C.cell_strongest_base_value env)
  let _ ← perform call (C.console_log value)
  return env

/-- The cell that the map of an environment has for an expression. -/
def cell_of (e_map : Val) (expr : LainExpr) : Program World (Option Val) := do
  let s ← get
  return C.map_get s.world e_map (expr_value expr)

/-- The cell of a name is summarised, if the environment has it. -/
def inspect_handler : Program World Val := do
  let e_map ← value_of_world (C.cell_strongest_base_value env)
  if C.is_map e_map then
    let expr ← force_get_dict_value M .inspect "A"
    let cell ← cell_of C e_map expr
    match cell with
    | some cell => do
      let summary ← perform call (C.summarize_cells [cell])
      let _ ← perform call (C.console_log summary)
      return cell
    | none => do
      let _ ← perform call (C.console_log (C.text "cell not found"))
      return env
  else log_environment C call env

/-- The default: an operator and its operands. -/
def operator_handler (apply_propagator : Val → LainExpr → Action Ctx World Val) (expr : LainExpr) : Program World Val :=
  match M.match_ expr [element "operator", .segment "operands"] with
  | some result =>
    match result "operator", result "operands" with
    | some operator_expr, some operands_expr => do
      let operator ← call operator_expr ctx
      perform call (apply_propagator operator operands_expr)
    -- A match binds both.
    | _, _ => return C.undefined
  | none => return C.undefined

end common

/-! ## The handlers of `compile` -/

/-- A closure cell is made without a compilation. -/
structure Callees (World Val : Type) extends CommonCallees Val World Val where
  construct_closure_cell : Val → LainExpr → LainExpr → LainExpr → LainExpr → EStateM String World Val
  define : LainExpr → Val → Val → Action Val World Val
  reactive_update : Val → Option LainExpr → Action Val World Val
  apply_propagator : Val → LainExpr → Val → Action Val World Val

/-- `apply_propagator` in an environment. -/
def Callees.apply_in {World Val : Type} (C : Callees World Val) (env operator : Val) (operands_expr : LainExpr) :
    Action Val World Val :=
  C.apply_propagator operator operands_expr env

section handlers

variable (M : Matcher) (D : Dispatch) {World Val : Type} (C : Callees World Val)

-- `call` is `compile(expr)(env)`.
variable (call : LainExpr → Val → Program World Val) (env : Val)

/-- The handler of constants. -/
def handle_constant : Program World Val := constant_handler M C.toCommonCallees call

/-- The handler of symbols. -/
def handle_symbol : Program World Val := symbol_handler M C.toCommonCallees call env

/-- The handler of `(-> A)`. -/
def handle_output : Program World Val := output_handler M C.toCommonCallees call env env

/-- The handler of `network`: a closure cell, defined under its name. -/
def handle_network : Program World Val := do
  let name ← force_get_dict_value M .network "name"
  let inputs ← force_get_dict_value M .network "inputs"
  let outputs ← force_get_dict_value M .network "outputs"
  let body ← force_get_dict_value M .network "body"
  let closure ← at_world (C.construct_closure_cell env name inputs outputs body)
  let name ← force_get_dict_value M .network "name"
  let _ ← perform call (C.define name env closure)
  return closure

/-- The handler of `(? A)`. -/
def handle_summary : Program World Val := summary_handler M C.toCommonCallees call env

/-- The handler of `(?? A)`. -/
def handle_inspect : Program World Val := inspect_handler M C.toCommonCallees call env

/-- The handler of `>::`: the value goes to the cell of the name, if there is one. -/
def handle_update : Program World Val := do
  let e_map ← value_of_world (C.cell_strongest_base_value env)
  if C.is_map e_map then
    let name ← force_get_dict_value M .update "cell"
    let cell ← cell_of C.toCommonCallees e_map name
    let value ← force_get_dict_value M .update "value"
    let _ ← match cell with
      | some cell => perform call (C.reactive_update cell (expr_value value))
      | none => pure C.undefined
    let _ ← perform call C.execute_all_tasks_sequential
    return cell.getD C.undefined
  else do
    let _ ← perform call (C.console_log (C.text "env contradicted"))
    log_environment C.toCommonCallees call env

/-- The code behind each handler. -/
def handle : Handler → Program World Val
  | .constant => handle_constant M C call
  | .symbol => handle_symbol M C call env
  | .output => handle_output M C call env
  | .network => handle_network M C call env
  | .summary => handle_summary M C call env
  | .inspect => handle_inspect M C call env
  | .update => handle_update M C call env

/-- The default of `compile`. -/
def apply_operator (expr : LainExpr) : Program World Val :=
  operator_handler M C.toCommonCallees call env (C.apply_in env) expr

/-- The function that `compile` returned, applied to an environment. -/
def apply_code : Code → Program World Val
  | .handler h => handle M C call env h
  | .default expr => apply_operator M C call env expr

/-- `compile(expr)(env)`, with calls nested at most so deep. -/
def compile_and_apply : ℕ → LainExpr → Val → Program World Val
  | 0, _, _ => throw .deeper
  | n + 1, expr, env => do
    let code ← compile M D expr
    apply_code M C (compile_and_apply n) env code

end handlers

end LainLang.Compiler.Matching
