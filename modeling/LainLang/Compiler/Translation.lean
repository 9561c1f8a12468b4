import LainLang.Compiler.SyntaxDirected
/-!
# The incremental compiler as a translation

The handlers of `incremental_compile` read before they compile, but for one: the value
of an update is read behind the construction of the dispatch of its source cell, which
makes a propagator and compiles nothing.
-/
open LainLang.Lib LainLang.Js
open LainLang.Compiler.Matching (PatternMatcher Dispatch Handler State Failure Program ExprForm form Action MatchedAs Does
  perform world_value report_environment translateCommon shows_read shows_value shows_at_world shows_cell_of does_perform
  does_log_environment shows_constant shows_symbol shows_output shows_summary shows_inspect does_operator)

namespace LainLang.Compiler.Incremental

section translation

variable {World Val : Type} (C : Callees World Val) (call : LainExpr → Build Val → EStateM Failure World Val) (build : Build Val)

/-- `call` is `incremental_compile(expr)(env, source_cell, timestamp)`. -/
def translateForm : ExprForm → EStateM Failure World Val
  | .network name inputs outputs body => do
    let closure := C.construct_closure build.env name inputs outputs body
    let closure_cell ← call (make_output name) build
    let _ ← (C.update_cell closure_cell
      (C.construct_layered_datum closure [(C.cell_id build.source_cell, build.timestamp)])).run call
    return closure
  | .update name value => do
    let e_map ← world_value (C.cell_strongest_base_value build.env)
    if C.is_map e_map then
      let cell ← world_value fun world => C.map_get world e_map (expr_value name)
      match cell with
      | some cell => do
        let has_neighbor ← world_value (C.source_has_neighbor build.source_cell cell)
        let _ ← if has_neighbor then pure C.undefined
          else retold Failure.thrown (C.p_reactive_dispatch build.source_cell cell)
        let _ ← (C.update_source_cell build.source_cell cell (expr_value value)).run call
        return cell
      | none => return C.undefined
    else do
      let _ ← (C.console_log (C.text "env contradicted")).run call
      report_environment C.toCommonCallees call build.env
  | form => translateCommon C.toCommonCallees call build build.env (incremental_apply_propagator C build) form

/-- The translation of expressions, with calls nested at most so deep. -/
def translate (segment_ok : List LainExpr → Bool) : ℕ → LainExpr → Build Val → EStateM Failure World Val
  | 0, _, _ => throw .deeper
  | n + 1, expr, build => translateForm C (translate segment_ok n) build (form segment_ok expr)

end translation

section shows

variable {M : PatternMatcher} {World Val : Type} {C : Callees World Val} {call : LainExpr → Build Val → Program World Val}
  {call' : LainExpr → Build Val → EStateM Failure World Val} (hcall : ∀ e build, Does (call e build) (call' e build))

include hcall

/-- The handler of a form does what the form says. -/
theorem shows_handle {h : Handler} {f : ExprForm} (hf : f.handler = some h) (build : Build Val) :
    Shows State.world (MatchedAs h f) (fun _ => True) (handle M.toMatcher C call build h) (translateForm C call' build f) := by
  cases f with
  | constant x =>
    cases hf
    exact shows_constant hcall build build.env (incremental_apply_propagator C build) x
  | symbol x =>
    cases hf
    exact shows_symbol hcall build build.env (incremental_apply_propagator C build) x
  | output A =>
    cases hf
    exact shows_output hcall build build.env (incremental_apply_propagator C build) A
  | network name inputs outputs body =>
    cases hf
    refine shows_read (by simp [Handler.keys]) rfl ?_
    refine shows_read (by simp [Handler.keys]) rfl ?_
    refine shows_read (by simp [Handler.keys]) rfl ?_
    refine shows_read (by simp [Handler.keys]) rfl ?_
    -- The name is read once more before its cell is compiled.
    refine shows_read (by simp [Handler.keys]) rfl (Shows.anywhere ?_)
    exact (hcall (make_output name) build).bind fun _ => (does_perform hcall _).bind fun _ => .pure _
  | summary A =>
    cases hf
    exact shows_summary hcall build build.env (incremental_apply_propagator C build) A
  | inspect A =>
    cases hf
    exact shows_inspect hcall build build.env (incremental_apply_propagator C build) A
  | update name value =>
    cases hf
    refine (shows_value _).bind fun e_map => ?_
    split
    · refine shows_read (by simp [Handler.keys]) rfl ?_
      refine (shows_cell_of e_map name).bind fun cell => ?_
      cases cell with
      | some cell =>
        refine (shows_value _).bind fun has_neighbor => ?_
        have hvalue : Shows State.world (MatchedAs .update (.update name value)) (fun _ => True)
            (Matching.force_get_dict_value M.toMatcher .update "value" >>= fun value =>
              perform call (C.update_source_cell build.source_cell cell (expr_value value)) >>= fun _ => pure cell)
            ((C.update_source_cell build.source_cell cell (expr_value value)).run call' >>= fun _ => pure cell) :=
          shows_read (by simp [Handler.keys]) rfl
            (Shows.anywhere ((does_perform hcall _).bind fun _ => .pure cell))
        cases has_neighbor with
        | true => exact Shows.bind (.pure C.undefined) fun _ => hvalue
        | false => exact (shows_at_world _).bind fun _ => hvalue
      | none => exact (Shows.pure C.undefined).forget
    · exact Shows.anywhere ((does_perform hcall _).bind fun _ => does_log_environment hcall build.env)
  | application operator operands => cases hf
  | nothing => cases hf

theorem does_apply_operator {e : LainExpr} (he : (form M.segment_ok e).handler = none) (build : Build Val) :
    Does (apply_operator M.toMatcher C call build e) (translateForm C call' build (form M.segment_ok e)) := by
  have htranslate : translateForm C call' build (form M.segment_ok e) = translateCommon C.toCommonCallees call' build build.env
      (incremental_apply_propagator C build) (form M.segment_ok e) := by
    cases hform : form M.segment_ok e with
    | network => simp [hform, ExprForm.handler] at he
    | update => simp [hform, ExprForm.handler] at he
    | _ => rfl
  rw [htranslate]
  exact does_operator hcall build build.env _ he

end shows

theorem does_compile_and_apply {M : PatternMatcher} {D : Dispatch} (hD : D.Total) {World Val : Type} (C : Callees World Val)
    (n : ℕ) (e : LainExpr) (build : Build Val) :
    Does (compile_and_apply M.toMatcher D C n e build) (translate C M.segment_ok n e build) := by
  induction n generalizing e build with
  | zero => exact .throw _
  | succ n ih =>
    refine Matching.does_compile fun s => ?_
    rcases Matching.codeOf_form (M := M) hD e with ⟨h, hh, hcode, hholds⟩ | ⟨hnone, hcode⟩
    · rw [hcode]
      exact (shows_handle ih hh build).seen _ (hholds s)
    · rw [hcode]
      exact (does_apply_operator ih hnone build).seen _ trivial

/-- Whatever is compiled in between, and in whatever order the dispatch asks, the two
compilers have the effects, the result and the errors of the translations that look at
the form of the expression and pass its parts along. -/
theorem compilers_translate_forms (M : PatternMatcher) (D : Dispatch) (hD : D.Total) (World Val : Type) (n : ℕ)
    (e : LainExpr) (build : Build Val) (s : State World) :
    (∀ C : Matching.Callees World Val, seen State.world (Matching.compile_and_apply M.toMatcher D C n e build.env s) =
      Matching.translate C M.segment_ok n e build.env s.world) ∧
    ∀ C : Callees World Val, seen State.world (compile_and_apply M.toMatcher D C n e build s) = translate C M.segment_ok n e build s.world :=
  ⟨fun C => (Matching.does_compile_and_apply hD C n e build.env).seen s trivial,
    fun C => (does_compile_and_apply hD C n e build).seen s trivial⟩

/-- An operation that only writes down that it was called. -/
def note (text : List String) (result : String) : Action (Build String) (List String) String :=
  .op (fun log => .ok result (log ++ text)) .done

/-- A key as it is written down. -/
def keyText : Option LainExpr → String
  | some (.str s) => s
  | _ => "undefined"

/-- Callees that write down what they are called for, in a world where no environment
is a map. -/
def clerk : Callees (List String) String where
  undefined := "undefined"
  text s := s
  constant_cell_from_expr _ := note ["constant_cell_from_expr"] "constant"
  ce_cached_lexical_lookup key env := note ["ce_cached_lexical_lookup", keyText key, env] (keyText key)
  construct_cell key := note ["construct_cell", keyText key] (keyText key)
  bind_to_env key cell env := note ["bind_to_env", keyText key, cell, env] "undefined"
  construct_closure _ _ _ _ _ := "closure"
  cell_id cell := cell
  construct_layered_datum value clock := value ++ " of " ++ ", ".intercalate (clock.map (·.1))
  update_cell cell value := note ["update_cell", cell, value] "undefined"
  execute_all_tasks_sequential := note ["execute_all_tasks_sequential"] "undefined"
  summarize cell := note ["summarize", cell] "summary"
  cell_strongest_base_value env _ := env
  cell_content env _ := env
  is_map _ := false
  map_get _ _ _ := none
  summarize_cells _ := note ["summarize_cells"] "summary"
  console_log text := note ["console_log", text] "undefined"
  source_has_neighbor _ _ _ := false
  p_reactive_dispatch _ _ := pure "undefined"
  update_source_cell _ _ _ := note ["update_source_cell"] "undefined"
  ce_is_closure operator := pure ("is_closure " ++ operator)
  ce_is_primitive operator := pure ("is_primitive " ++ operator)
  ce_switch condition _ := pure condition
  incremental_apply_closure closure _ _ _ _ := fun log => .ok "undefined" (log ++ [closure])
  incremental_apply_primitive primitive _ _ _ _ := fun log => .ok "undefined" (log ++ [primitive])

/-- Asks the handlers in order. -/
theorem firstFit_total : Matching.firstFit.Total := by
  intro fits h hfits
  exact List.find?_isSome.2 ⟨h, by cases h <;> simp [Matching.handlers], hfits⟩

/-- `(network f (>:: a) (::> b) (g a b))` puts the closure into a new cell `f`, also
where every handler failed to match before. -/
theorem compilers_translate_forms_network :
    seen State.world (compile_and_apply Matching.backtracking.toMatcher Matching.firstFit clerk 3
      (.list [lain_symbol "network", lain_symbol "f", .list [lain_symbol ">::", lain_symbol "a"],
        .list [lain_symbol "::>", lain_symbol "b"], .list [lain_symbol "g", lain_symbol "a", lain_symbol "b"]])
      ⟨"env", "source", .ofNat 0⟩ { matched := fun _ => some none, world := [], reads := [] }) =
    .ok "closure" ["construct_cell", "f", "bind_to_env", "f", "f", "env", "update_cell", "f", "closure of source"] := by
  rw [(compilers_translate_forms _ _ firstFit_total _ _ _ _ _ _).2]
  rfl

end LainLang.Compiler.Incremental
