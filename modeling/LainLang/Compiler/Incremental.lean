import LainLang.Compiler.Forms
import LainLang.Lib.Projection
/-!
# The incremental compiler

`incremental_compile` has its own handlers, with the patterns of `compile`, and hands
the source cell and the timestamp of a build on to what it compiles. What the scheduler
compiles in between may carry those of other builds.
-/
open LainLang.Lib LainLang.Js
open LainLang.Compiler.Matching (Matcher Dispatch Handler State Failure Program Code Action CommonCallees at_world
  value_of_world force_get_dict_value perform cell_of log_environment constant_handler symbol_handler output_handler
  summary_handler inspect_handler operator_handler)

namespace LainLang.Compiler.Incremental

/-- What `incremental_compile(expr)` is applied to. -/
structure Build (Val : Type) where
  env : Val
  source_cell : Val
  timestamp : JsNumber

/-- Cells and propagators are made without a compilation; what they hold is compiled when
the scheduler runs. -/
structure Callees (World Val : Type) extends CommonCallees (Build Val) World Val where
  construct_closure : Val → LainExpr → LainExpr → LainExpr → LainExpr → Val
  cell_id : Val → String
  construct_layered_datum : Val → List (String × JsNumber) → Val
  update_cell : Val → Val → Action (Build Val) World Val
  source_has_neighbor : Val → Val → World → Bool
  p_reactive_dispatch : Val → Val → EStateM String World Val
  update_source_cell : Val → Val → Option LainExpr → Action (Build Val) World Val
  ce_is_closure : Val → EStateM String World Val
  ce_is_primitive : Val → EStateM String World Val
  ce_switch : Val → Val → EStateM String World Val
  incremental_apply_closure : Val → LainExpr → Val → Val → JsNumber → EStateM String World Val
  incremental_apply_primitive : Val → LainExpr → Val → Val → JsNumber → EStateM String World Val

/-- `(-> expr)`. -/
def make_output (expr : LainExpr) : LainExpr := .list [lain_symbol "->", expr]

section handlers

variable (M : Matcher) (D : Dispatch) {World Val : Type} (C : Callees World Val)

/-- The parameterised compiler closes over the source cell and the timestamp. -/
def incremental_apply_propagator (build : Build Val) (operator : Val) (operands_expr : LainExpr) :
    Action (Build Val) World Val :=
  .op (C.ce_is_closure operator) fun is_closure =>
    .op (C.ce_switch is_closure operator) fun closure =>
      .op (C.incremental_apply_closure closure operands_expr build.env build.source_cell build.timestamp) fun _ =>
        .op (C.ce_is_primitive operator) fun is_primitive =>
          .op (C.ce_switch is_primitive operator) fun primitive =>
            .op (C.incremental_apply_primitive primitive operands_expr build.env build.source_cell build.timestamp) fun _ =>
              .done C.undefined

-- `call` is `incremental_compile(expr)(env, source_cell, timestamp)`.
variable (call : LainExpr → Build Val → Program World Val) (build : Build Val)

/-- The handler of constants. -/
def handle_constant : Program World Val := constant_handler M C.toCommonCallees call

/-- The handler of symbols. -/
def handle_symbol : Program World Val := symbol_handler M C.toCommonCallees call build.env

/-- The handler of `(-> A)`. -/
def handle_output : Program World Val := output_handler M C.toCommonCallees call build build.env

/-- The closure is put into the cell of its name, and not the cell but the closure is
returned. -/
def handle_network : Program World Val := do
  let name ← force_get_dict_value M .network "name"
  let inputs ← force_get_dict_value M .network "inputs"
  let outputs ← force_get_dict_value M .network "outputs"
  let body ← force_get_dict_value M .network "body"
  let closure := C.construct_closure build.env name inputs outputs body
  let name ← force_get_dict_value M .network "name"
  let closure_cell ← call (make_output name) build
  let _ ← perform call
    (C.update_cell closure_cell (C.construct_layered_datum closure [(C.cell_id build.source_cell, build.timestamp)]))
  return closure

/-- The handler of `(? A)`. -/
def handle_summary : Program World Val := summary_handler M C.toCommonCallees call build

/-- The handler of `(?? A)`. -/
def handle_inspect : Program World Val := inspect_handler M C.toCommonCallees call build.env

/-- The value is looked up only where there is a cell, and behind the construction of
the dispatch. -/
def handle_update : Program World Val := do
  let e_map ← value_of_world (C.cell_strongest_base_value build.env)
  if C.is_map e_map then
    let name ← force_get_dict_value M .update "cell"
    let cell ← cell_of C.toCommonCallees e_map name
    match cell with
    | some cell => do
      let has_neighbor ← value_of_world (C.source_has_neighbor build.source_cell cell)
      let _ ← if has_neighbor then pure C.undefined else at_world (C.p_reactive_dispatch build.source_cell cell)
      let value ← force_get_dict_value M .update "value"
      let _ ← perform call (C.update_source_cell build.source_cell cell (expr_value value))
      return cell
    | none => return C.undefined
  else do
    let _ ← perform call (C.console_log (C.text "env contradicted"))
    log_environment C.toCommonCallees call build.env

/-- The code behind each handler. -/
def handle : Handler → Program World Val
  | .constant => handle_constant M C call
  | .symbol => handle_symbol M C call build
  | .output => handle_output M C call build
  | .network => handle_network M C call build
  | .summary => handle_summary M C call build
  | .inspect => handle_inspect M C call build
  | .update => handle_update M C call build

/-- The default of `incremental_compile`. -/
def apply_operator (expr : LainExpr) : Program World Val :=
  operator_handler M C.toCommonCallees call build (incremental_apply_propagator C build) expr

/-- The function that `incremental_compile` returned, applied to a build. -/
def apply_code : Code → Program World Val
  | .handler h => handle M C call build h
  | .default expr => apply_operator M C call build expr

/-- `incremental_compile(expr)(env, source_cell, timestamp)`, with calls nested at most
so deep. -/
def compile_and_apply : ℕ → LainExpr → Build Val → Program World Val
  | 0, _, _ => throw .deeper
  | n + 1, expr, build => do
    let code ← Matching.compile M D expr
    apply_code M C (compile_and_apply n) build code

end handlers

end LainLang.Compiler.Incremental
