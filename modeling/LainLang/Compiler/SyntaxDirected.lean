import LainLang.Compiler.Incremental
import LainLang.Compiler.Interference
/-!
# Compilers as translations of forms

Both compilers keep what a handler matched in a variable that all compilations share,
and leave it to the dispatch which handler runs. What they do to the world is what a
translation does that has neither: it looks at the form of the expression, and passes
the parts of the form along.
-/
open LainLang.Lib LainLang.Js

namespace LainLang.Compiler.Matching

/-! ## Handlers that read their own expression -/

/-- The handler has matched an expression of the form. -/
def MatchedAs {World : Type} (h : Handler) (f : ExprForm) (s : State World) : Prop :=
  ∃ b, s.matched h = some (some b) ∧ ∀ key ∈ h.keys, b key = f.part key

section steps

variable {M : Matcher} {World Val α : Type} {h : Handler} {f : ExprForm} {P Q : State World → Prop}

/-- A key that the handler looks up, and what is done with it. -/
theorem shows_read {key : String} {x : LainExpr} (hkey : key ∈ h.keys) (hx : f.part key = some x)
    {k : LainExpr → Program World α} {y : EStateM Failure World α} (hk : Shows State.world (MatchedAs h f) Q (k x) y) :
    Shows State.world (MatchedAs h f) Q (force_get_dict_value M h key >>= k) y := by
  have hread : ∀ s : State World, MatchedAs h f s →
      ∃ s', force_get_dict_value M h key s = .ok x s' ∧ s'.world = s.world ∧ MatchedAs h f s' := by
    rintro s ⟨b, hs, hb⟩
    exact ⟨_, read_of_bound hs ((hb key hkey).trans hx), rfl, b, hs, hb⟩
  constructor
  · intro s hs
    obtain ⟨s', hs', hworld, hholds⟩ := hread s hs
    rw [bind_of_ok hs', hk.seen s' hholds, hworld]
  · intro s a s'' hs h
    obtain ⟨s', hs', -, hholds⟩ := hread s hs
    rw [bind_of_ok hs'] at h
    exact hk.ok s' a s'' hholds h

theorem shows_at_world (op : EStateM String World Val) :
    Shows State.world (MatchedAs h f) (MatchedAs h f) (at_world op) (retold Failure.thrown op) where
  seen s _ := by
    rw [at_world, retold]
    cases op s.world <;> rfl
  ok s a s' hs hop := by
    rw [at_world] at hop
    cases hop' : op s.world with
    | ok v world =>
      rw [hop'] at hop
      cases hop
      exact hs
    | error message world =>
      rw [hop'] at hop
      cases hop

/-- A look at the world. -/
def world_value (g : World → α) : EStateM Failure World α := do
  let world ← get
  return g world

theorem shows_value (g : World → α) : Shows State.world P P (value_of_world g) (world_value g) := .look g

end steps

/-! ## What both compilers make of a form -/

section common

variable {Ctx World Val : Type}

/-- `call` is the compilation of an expression, applied. -/
def Action.run (call : LainExpr → Ctx → EStateM Failure World Val) : Action Ctx World Val → EStateM Failure World Val
  | .done result => pure result
  | .op operation next => retold Failure.thrown operation >>= fun v => Action.run call (next v)
  | .call expr ctx next => call expr ctx >>= fun v => Action.run call (next v)

variable (C : CommonCallees Ctx World Val) (call : LainExpr → Ctx → EStateM Failure World Val) (ctx : Ctx) (env : Val)

/-- The environment is not a map. -/
def report_environment : EStateM Failure World Val := do
  let content ← world_value (C.cell_content env)
  let _ ← (C.console_log content).run call
  let value ← world_value (C.cell_strongest_base_value env)
  let _ ← (C.console_log value).run call
  return env

/-- The forms that both compilers translate alike; what is passed along to compile an
expression, and how an operator is applied, is their own. -/
def translateCommon (apply_propagator : Val → LainExpr → Action Ctx World Val) : ExprForm → EStateM Failure World Val
  | .constant x => (C.constant_cell_from_expr x).run call
  | .symbol x => (C.ce_cached_lexical_lookup (expr_value x) env).run call
  | .output A =>
    if is_element_symbol A then do
      let output ← (C.construct_cell (expr_value A)).run call
      let _ ← (C.bind_to_env (expr_value A) output env).run call
      return output
    else call A ctx
  | .summary A => do
    let a ← call A ctx
    let _ ← C.execute_all_tasks_sequential.run call
    (C.summarize a).run call
  | .inspect A => do
    let e_map ← world_value (C.cell_strongest_base_value env)
    if C.is_map e_map then
      let cell ← world_value fun world => C.map_get world e_map (expr_value A)
      match cell with
      | some cell => do
        let summary ← (C.summarize_cells [cell]).run call
        let _ ← (C.console_log summary).run call
        return cell
      | none => do
        let _ ← (C.console_log (C.text "cell not found")).run call
        return env
    else report_environment C call env
  | .application operator operands => do
    let operator ← call operator ctx
    (apply_propagator operator operands).run call
  | _ => return C.undefined

end common

section shows

variable {M : PatternMatcher} {Ctx World Val : Type} {C : CommonCallees Ctx World Val} {P : State World → Prop}

/-- From any state the same effects on the world. -/
abbrev Does {α : Type} (x : Program World α) (y : EStateM Failure World α) : Prop :=
  Shows State.world (fun _ => True) (fun _ => True) x y

theorem does_at_world (op : EStateM String World Val) : Does (at_world op) (retold Failure.thrown op) where
  seen s _ := by
    rw [at_world, retold]
    cases op s.world <;> rfl
  ok _ _ _ _ _ := trivial

theorem shows_cell_of (e_map : Val) (expr : LainExpr) :
    Shows State.world P P (cell_of C e_map expr) (world_value fun world => C.map_get world e_map (expr_value expr)) :=
  shows_value fun world => C.map_get world e_map (expr_value expr)

variable {call : LainExpr → Ctx → Program World Val} {call' : LainExpr → Ctx → EStateM Failure World Val}
  (hcall : ∀ e ctx, Does (call e ctx) (call' e ctx))

include hcall

theorem does_perform (action : Action Ctx World Val) : Does (perform call action) (action.run call') := by
  induction action with
  | done v => exact .pure v
  | op op next ih => exact (does_at_world op).bind ih
  | call e ctx next ih => exact (hcall e ctx).bind ih

theorem does_log_environment (env : Val) : Does (log_environment C call env) (report_environment C call' env) :=
  (shows_value _).bind fun _ => (does_perform hcall _).bind fun _ =>
    (shows_value _).bind fun _ => (does_perform hcall _).bind fun _ => .pure env

variable (ctx : Ctx) (env : Val) (apply_propagator : Val → LainExpr → Action Ctx World Val)

theorem shows_constant (x : LainExpr) :
    Shows State.world (MatchedAs .constant (.constant x)) (fun _ => True) (constant_handler M.toMatcher C call)
      (translateCommon C call' ctx env apply_propagator (.constant x)) :=
  shows_read (by simp [Handler.keys]) rfl (does_perform hcall _).anywhere

theorem shows_symbol (x : LainExpr) :
    Shows State.world (MatchedAs .symbol (.symbol x)) (fun _ => True) (symbol_handler M.toMatcher C call env)
      (translateCommon C call' ctx env apply_propagator (.symbol x)) :=
  shows_read (by simp [Handler.keys]) rfl (does_perform hcall _).anywhere

theorem shows_output (A : LainExpr) :
    Shows State.world (MatchedAs .output (.output A)) (fun _ => True) (output_handler M.toMatcher C call ctx env)
      (translateCommon C call' ctx env apply_propagator (.output A)) := by
  refine shows_read (by simp [Handler.keys]) rfl (Shows.anywhere ?_)
  rw [translateCommon]
  split
  · exact (does_perform hcall _).bind fun output => (does_perform hcall _).bind fun _ => .pure output
  · exact hcall A ctx

theorem shows_summary (A : LainExpr) :
    Shows State.world (MatchedAs .summary (.summary A)) (fun _ => True) (summary_handler M.toMatcher C call ctx)
      (translateCommon C call' ctx env apply_propagator (.summary A)) := by
  refine shows_read (by simp [Handler.keys]) rfl (Shows.anywhere ?_)
  exact (hcall A ctx).bind fun a => (does_perform hcall _).bind fun _ => does_perform hcall _

theorem shows_inspect (A : LainExpr) :
    Shows State.world (MatchedAs .inspect (.inspect A)) (fun _ => True) (inspect_handler M.toMatcher C call env)
      (translateCommon C call' ctx env apply_propagator (.inspect A)) := by
  refine (shows_value _).bind fun e_map => ?_
  split
  · refine shows_read (by simp [Handler.keys]) rfl ?_
    refine (shows_cell_of e_map A).bind fun cell => Shows.anywhere ?_
    cases cell with
    | some cell => exact (does_perform hcall _).bind fun _ => (does_perform hcall _).bind fun _ => .pure cell
    | none => exact (does_perform hcall _).bind fun _ => .pure env
  · exact (does_log_environment hcall env).anywhere

/-- The default, for an expression that no handler fits. -/
theorem does_operator {e : LainExpr} (he : (form M.segment_ok e).handler = none) :
    Does (operator_handler M.toMatcher C call ctx apply_propagator e)
      (translateCommon C call' ctx env apply_propagator (form M.segment_ok e)) := by
  unfold operator_handler
  split
  · rename_i b hb
    obtain ⟨operator, operands, hform, hoperator, hoperands⟩ := default_match he hb
    rw [hform, hoperator, hoperands]
    exact (hcall operator ctx).bind fun _ => does_perform hcall _
  · rename_i hb
    rw [default_no_match he hb]
    exact .pure _

end shows

/-! ## The compiler -/

section translation

variable {World Val : Type} (C : Callees World Val) (call : LainExpr → Val → EStateM Failure World Val) (env : Val)

/-- `call` is `compile(expr)(env)`. -/
def translateForm : ExprForm → EStateM Failure World Val
  | .network name inputs outputs body => do
    let closure ← retold Failure.thrown (C.construct_closure_cell env name inputs outputs body)
    let _ ← (C.define name env closure).run call
    return closure
  | .update name value => do
    let e_map ← world_value (C.cell_strongest_base_value env)
    if C.is_map e_map then
      let cell ← world_value fun world => C.map_get world e_map (expr_value name)
      let _ ← match cell with
        | some cell => (C.reactive_update cell (expr_value value)).run call
        | none => pure C.undefined
      let _ ← C.execute_all_tasks_sequential.run call
      return cell.getD C.undefined
    else do
      let _ ← (C.console_log (C.text "env contradicted")).run call
      report_environment C.toCommonCallees call env
  | form => translateCommon C.toCommonCallees call env env (C.apply_in env) form

/-- The translation of expressions, with calls nested at most so deep. -/
def translate (segment_ok : List LainExpr → Bool) : ℕ → LainExpr → Val → EStateM Failure World Val
  | 0, _, _ => throw .deeper
  | n + 1, expr, env => translateForm C (translate segment_ok n) env (form segment_ok expr)

end translation

section shows

variable {M : PatternMatcher} {World Val : Type} {C : Callees World Val} {call : LainExpr → Val → Program World Val}
  {call' : LainExpr → Val → EStateM Failure World Val} (hcall : ∀ e env, Does (call e env) (call' e env))

include hcall

/-- The handler of a form does what the form says. -/
theorem shows_handle {h : Handler} {f : ExprForm} (hf : f.handler = some h) (env : Val) :
    Shows State.world (MatchedAs h f) (fun _ => True) (handle M.toMatcher C call env h) (translateForm C call' env f) := by
  cases f with
  | constant x =>
    cases hf
    exact shows_constant hcall env env (C.apply_in env) x
  | symbol x =>
    cases hf
    exact shows_symbol hcall env env (C.apply_in env) x
  | output A =>
    cases hf
    exact shows_output hcall env env (C.apply_in env) A
  | network name inputs outputs body =>
    cases hf
    refine shows_read (by simp [Handler.keys]) rfl ?_
    refine shows_read (by simp [Handler.keys]) rfl ?_
    refine shows_read (by simp [Handler.keys]) rfl ?_
    refine shows_read (by simp [Handler.keys]) rfl ?_
    refine (shows_at_world _).bind fun closure => ?_
    refine shows_read (by simp [Handler.keys]) rfl (Shows.anywhere ?_)
    exact (does_perform hcall _).bind fun _ => .pure closure
  | summary A =>
    cases hf
    exact shows_summary hcall env env (C.apply_in env) A
  | inspect A =>
    cases hf
    exact shows_inspect hcall env env (C.apply_in env) A
  | update name value =>
    cases hf
    refine (shows_value _).bind fun e_map => ?_
    split
    · refine shows_read (by simp [Handler.keys]) rfl ?_
      refine (shows_cell_of e_map name).bind fun cell => ?_
      refine shows_read (by simp [Handler.keys]) rfl (Shows.anywhere ?_)
      cases cell with
      | some cell => exact (does_perform hcall _).bind fun _ => (does_perform hcall _).bind fun _ => .pure cell
      | none => exact Shows.bind (.pure C.undefined) fun _ => (does_perform hcall _).bind fun _ => .pure _
    · exact Shows.anywhere ((does_perform hcall _).bind fun _ => does_log_environment hcall env)
  | application operator operands => cases hf
  | nothing => cases hf

theorem does_apply_operator {e : LainExpr} (he : (form M.segment_ok e).handler = none) (env : Val) :
    Does (apply_operator M.toMatcher C call env e) (translateForm C call' env (form M.segment_ok e)) := by
  have htranslate : translateForm C call' env (form M.segment_ok e) = translateCommon C.toCommonCallees call' env env
      (C.apply_in env) (form M.segment_ok e) := by
    cases hform : form M.segment_ok e with
    | network => simp [hform, ExprForm.handler] at he
    | update => simp [hform, ExprForm.handler] at he
    | _ => rfl
  rw [htranslate]
  exact does_operator hcall env env _ he

end shows

/-! ### What a dispatch does -/

variable {M : PatternMatcher} {D : Dispatch}

/-- Behind the dispatch the chosen handler holds the form of the expression, or the
default has the expression. -/
theorem codeOf_form (hD : D.Total) (e : LainExpr) :
    (∃ h, (form M.segment_ok e).handler = some h ∧ codeOf M.toMatcher D e = .handler h ∧
      ∀ {World : Type} (s : State World), MatchedAs h (form M.segment_ok e) (askedState M.toMatcher D e s)) ∨
    (form M.segment_ok e).handler = none ∧ codeOf M.toMatcher D e = .default e := by
  have hchosen := chosen_eq (M := M) hD e
  cases hh : (form M.segment_ok e).handler with
  | some h =>
    rw [hh] at hchosen
    refine .inl ⟨h, rfl, by simp [codeOf, hchosen], fun s => ?_⟩
    obtain ⟨b, hb, hs⟩ := askedState_chosen hchosen s
    exact ⟨b, hs, (form_of_match hb).2⟩
  | none =>
    rw [hh] at hchosen
    exact .inr ⟨rfl, by simp [codeOf, hchosen]⟩

/-- The dispatch touches nothing of the world. -/
theorem does_compile {World α : Type} {e : LainExpr} {k : Code → Program World α} {y : EStateM Failure World α}
    (hk : ∀ s : State World, seen State.world (k (codeOf M.toMatcher D e) (askedState M.toMatcher D e s)) = y s.world) :
    Does (compile M.toMatcher D e >>= k) y where
  seen s _ := by
    rw [bind_of_ok (compile_apply M.toMatcher D e s)]
    exact hk s
  ok _ _ _ _ _ := trivial

theorem does_compile_and_apply (hD : D.Total) {World Val : Type} (C : Callees World Val) (n : ℕ) (e : LainExpr)
    (env : Val) : Does (compile_and_apply M.toMatcher D C n e env) (translate C M.segment_ok n e env) := by
  induction n generalizing e env with
  | zero => exact .throw _
  | succ n ih =>
    refine does_compile fun s => ?_
    rcases codeOf_form (M := M) hD e with ⟨h, hh, hcode, hholds⟩ | ⟨hnone, hcode⟩
    · rw [hcode]
      exact (shows_handle ih hh env).seen _ (hholds s)
    · rw [hcode]
      exact (does_apply_operator ih hnone env).seen _ trivial

end LainLang.Compiler.Matching
