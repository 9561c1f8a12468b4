import LainLang.Compiler.Matching
/-!
# Two compilations

`compile` returns a function that reads the bindings of its expression when it is
applied. A compilation in between whose dispatch asks the same handler writes
these bindings, so the function behaves as if applied at once exactly when that
match binds the same.
-/
open LainLang.Lib LainLang.Js

namespace LainLang.Compiler.Matching

variable (M : Matcher) (D : Dispatch) {World Val : Type}

/-! ## States that look the same -/

/-- The same but for what the handlers have matched. -/
def Same (s t : State World) : Prop := s.world = t.world ∧ s.reads = t.reads

/-- The handler reads the same. -/
structure SameOn (h : Handler) (s t : State World) : Prop where
  same : Same s t
  bound : ∃ b c, s.matched h = some (some b) ∧ t.matched h = some (some c) ∧
    ∀ key ∈ h.keys, ∃ x, b key = some x ∧ c key = some x

/-- Where a compilation has returned `code`, what `code` reads is the same. -/
def SameFor : Code → State World → State World → Prop
  | .handler h => SameOn h
  | .default _ => Same

theorem SameFor.same {code : Code} {s t : State World} (h : SameFor code s t) : Same s t := by
  cases code with
  | handler k => exact SameOn.same h
  | default e => exact h

/-! ## What a compilation does -/

/-- The handlers have matched `e`. -/
def matchedBy (hs : List Handler) (e : LainExpr) (s : State World) : State World :=
  { s with matched := fun h => if h ∈ hs then some (M.match_ (.list [e]) h.pattern) else s.matched h }

/-- The state behind a compilation. -/
def askedState (e : LainExpr) (s : State World) : State World := matchedBy M (D.asked (fits M e)) e s

/-- The code that `compile` returns for an expression. -/
def codeOf (e : LainExpr) : Code := (D.chosen (fits M e)).elim (.default e) .handler

theorem ask_apply (e : LainExpr) (h : Handler) (s : State World) : ask M e h s = .ok ⟨⟩ (matchedBy M [h] e s) := by
  simp only [matchedBy, List.mem_singleton]
  change EStateM.Result.ok PUnit.unit { s with matched := _ } = _
  congr 2
  funext k
  by_cases hk : k = h
  · subst hk
    simp
  · simp [hk]

theorem forM_ask (e : LainExpr) (hs : List Handler) (s : State World) :
    hs.forM (ask M e) s = .ok ⟨⟩ (matchedBy M hs e s) := by
  induction hs generalizing s with
  | nil => simp [matchedBy]
  | cons h hs ih =>
    rw [forM_cons_of_ok _ (ask_apply M e h s), ih]
    simp only [matchedBy, List.mem_cons, List.not_mem_nil, or_false]
    congr 2
    funext k
    by_cases hk : k ∈ hs
    · simp [hk]
    · by_cases hkh : k = h
      · simp [hkh]
      · simp [hk, hkh]

theorem compile_apply (e : LainExpr) (s : State World) : compile M D e s = .ok (codeOf M D e) (askedState M D e s) := by
  rw [compile, bind_of_ok (forM_ask M e _ s)]
  rfl

variable {M D}

theorem askedState_chosen {e : LainExpr} {h : Handler} (hh : D.chosen (fits M e) = some h) (s : State World) :
    ∃ b, M.match_ (.list [e]) h.pattern = some b ∧ (askedState M D e s).matched h = some (some b) := by
  obtain ⟨hasked, hfits⟩ := D.chosen_spec _ _ hh
  obtain ⟨b, hb⟩ := Option.isSome_iff_exists.1 hfits
  exact ⟨b, hb, by simp [askedState, matchedBy, hasked, hb]⟩

/-- A compilation leaves nothing of what was matched before for its own function. -/
theorem relates_compile (e : LainExpr) {s t : State World} (h : Same s t) :
    SameFor (codeOf M D e) (askedState M D e s) (askedState M D e t) := by
  unfold codeOf
  cases hh : D.chosen (fits M e) with
  | none => exact h
  | some k =>
    obtain ⟨b, hb, hs⟩ := askedState_chosen hh s
    obtain ⟨c, hc, ht⟩ := askedState_chosen hh t
    obtain rfl := Option.some.inj (hb.symm.trans hc)
    exact ⟨h, b, b, hs, ht, fun key hkey => (M.binds _ _ _ hb key (k.keys_names key hkey)).imp fun x hx => ⟨hx, hx⟩⟩

/-! ## Functions do not depend on what others matched -/

theorem read_of_bound {h : Handler} {key : String} {s : State World} {b : Bindings} {x : LainExpr}
    (hs : s.matched h = some (some b)) (hb : b key = some x) :
    force_get_dict_value M h key s = .ok x { s with reads := s.reads ++ [(key, x)] } := by
  rw [force_get_dict_value, bind_of_ok (get_apply s)]
  simp [hs, hb, bind_apply]

theorem relates_read {h : Handler} {key : String} (hkey : key ∈ h.keys) :
    Relates (SameOn h) (SameOn h) (force_get_dict_value M h key : Program World LainExpr)
      (force_get_dict_value M h key) := by
  rintro s t ⟨⟨hworld, hreads⟩, b, c, hs, ht, hbound⟩
  obtain ⟨x, hb, hc⟩ := hbound key hkey
  rw [read_of_bound hs hb, read_of_bound ht hc]
  exact .ok ⟨⟨hworld, by rw [hreads]⟩, b, c, hs, ht, hbound⟩

theorem SameOn.of_world {h : Handler} {s t : State World} (hst : SameOn h s t) {world : World} :
    SameOn h { s with world := world } { t with world := world } :=
  ⟨⟨rfl, hst.same.2⟩, hst.bound⟩

theorem relates_at_world {h : Handler} (op : EStateM String World Val) :
    Relates (SameOn h) (SameOn h) (at_world op) (at_world op) := by
  intro s t hst
  rw [at_world, at_world, hst.same.1]
  cases op t.world with
  | ok v world => exact .ok hst.of_world
  | error e world => exact .error hst.of_world

theorem relates_value_of_world {h : Handler} (f : World → Val) :
    Relates (SameOn h) (SameOn h) (value_of_world f) (value_of_world f) := by
  intro s t hst
  rw [value_of_world, bind_of_ok (get_apply s), bind_of_ok (get_apply t), hst.same.1]
  exact .ok hst

variable {C : Callees World Val}

theorem relates_cell_of {h : Handler} (e_map : Val) (expr : LainExpr) :
    Relates (SameOn h) (SameOn h) (cell_of C.toCommonCallees e_map expr) (cell_of C.toCommonCallees e_map expr) := by
  intro s t hst
  rw [cell_of, bind_of_ok (get_apply s), bind_of_ok (get_apply t), hst.same.1]
  exact .ok hst

/-- A program that does not read the matches of its handler. -/
abbrev Blind {α : Type} (x : Program World α) : Prop := Relates Same Same x x

theorem blind_at_world (op : EStateM String World Val) : Blind (at_world op) := by
  rintro s t ⟨hworld, hreads⟩
  rw [at_world, at_world, hworld]
  cases op t.world with
  | ok v world => exact .ok ⟨rfl, hreads⟩
  | error e world => exact .error ⟨rfl, hreads⟩

theorem blind_value_of_world (f : World → Val) : Blind (value_of_world f) := by
  rintro s t ⟨hworld, hreads⟩
  rw [value_of_world, bind_of_ok (get_apply s), bind_of_ok (get_apply t), hworld]
  exact .ok ⟨hworld, hreads⟩

theorem Blind.bind {α β : Type} {x : Program World α} {f : α → Program World β} (hx : Blind x) (hf : ∀ a, Blind (f a)) :
    Blind (x >>= f) :=
  Relates.bind hx hf fun _ _ h => h

theorem Blind.on {α : Type} {x : Program World α} (hx : Blind x) (h : Handler) : Relates (SameOn h) Same x x :=
  hx.of_le fun _ _ hst => hst.same

/-- A read, and what is done with it. -/
theorem relates_read_bind {α : Type} {h : Handler} {key : String} (hkey : key ∈ h.keys) {f : LainExpr → Program World α}
    (hf : ∀ x, Relates (SameOn h) Same (f x) (f x)) :
    Relates (SameOn h) Same (force_get_dict_value M h key >>= f) (force_get_dict_value M h key >>= f) :=
  (relates_read hkey).bind hf fun _ _ hst => hst.same

section call

variable {call : LainExpr → Val → Program World Val} (hcall : ∀ e env, Blind (call e env))

include hcall

theorem blind_perform (action : Action Val World Val) : Blind (perform call action) := by
  induction action with
  | done v => exact .pure v
  | op op next ih => exact (blind_at_world op).bind ih
  | call e env next ih => exact (hcall e env).bind ih

variable (env : Val)

theorem blind_log_environment : Blind (log_environment C.toCommonCallees call env) :=
  (blind_value_of_world _).bind fun _ => (blind_perform hcall _).bind fun _ =>
    (blind_value_of_world _).bind fun _ => (blind_perform hcall _).bind fun _ => .pure env

/-- Every read of a handler comes before what may compile. -/
theorem relates_handle (h : Handler) : Relates (SameOn h) Same (handle M C call env h) (handle M C call env h) := by
  cases h with
  | constant => exact relates_read_bind (by simp [Handler.keys]) fun _ => (blind_perform hcall _).on _
  | symbol => exact relates_read_bind (by simp [Handler.keys]) fun _ => (blind_perform hcall _).on _
  | output =>
    refine relates_read_bind (by simp [Handler.keys]) fun expr => Blind.on ?_ _
    split
    · exact (blind_perform hcall _).bind fun output => (blind_perform hcall _).bind fun _ => .pure output
    · exact hcall expr env
  | network =>
    refine relates_read_bind (by simp [Handler.keys]) fun name => ?_
    refine relates_read_bind (by simp [Handler.keys]) fun inputs => ?_
    refine relates_read_bind (by simp [Handler.keys]) fun outputs => ?_
    refine relates_read_bind (by simp [Handler.keys]) fun body => ?_
    refine (relates_at_world _).bind (fun closure => ?_) fun _ _ hst => hst.same
    refine relates_read_bind (by simp [Handler.keys]) fun name => Blind.on ?_ _
    exact (blind_perform hcall _).bind fun _ => .pure closure
  | summary =>
    refine relates_read_bind (by simp [Handler.keys]) fun expr => Blind.on ?_ _
    exact (hcall expr env).bind fun a => (blind_perform hcall _).bind fun _ => blind_perform hcall _
  | inspect =>
    refine (relates_value_of_world _).bind (fun e_map => ?_) fun _ _ hst => hst.same
    split
    · refine relates_read_bind (by simp [Handler.keys]) fun expr => ?_
      refine (relates_cell_of e_map expr).bind (fun cell => Blind.on ?_ _) fun _ _ hst => hst.same
      cases cell with
      | some cell => exact (blind_perform hcall _).bind fun _ => (blind_perform hcall _).bind fun _ => .pure cell
      | none => exact (blind_perform hcall _).bind fun _ => .pure env
    · exact (blind_log_environment hcall env).on _
  | update =>
    refine (relates_value_of_world _).bind (fun e_map => ?_) fun _ _ hst => hst.same
    split
    · -- The cell is looked up between the two reads.
      refine relates_read_bind (by simp [Handler.keys]) fun name => ?_
      refine (relates_cell_of e_map name).bind (fun cell => ?_) fun _ _ hst => hst.same
      refine relates_read_bind (by simp [Handler.keys]) fun value => Blind.on ?_ _
      cases cell with
      | some cell => exact (blind_perform hcall _).bind fun _ => (blind_perform hcall _).bind fun _ => .pure cell
      | none => exact Blind.bind (Relates.pure C.undefined) fun _ => (blind_perform hcall _).bind fun _ => .pure _
    · exact Blind.on ((blind_perform hcall _).bind fun _ => blind_log_environment hcall env) _

theorem relates_apply_code (code : Code) :
    Relates (SameFor code) Same (apply_code M C call env code) (apply_code M C call env code) := by
  cases code with
  | handler h => exact relates_handle hcall env h
  | default e =>
    change Blind (apply_operator M C call env e)
    unfold apply_operator operator_handler
    split
    · split
      · exact (hcall _ env).bind fun _ => blind_perform hcall _
      · exact Relates.pure C.undefined
    · exact Relates.pure C.undefined

end call

/-- `compile(expr)(env)` does not depend on what was matched before it. -/
theorem blind_compile_and_apply (n : ℕ) (e : LainExpr) (env : Val) : Blind (compile_and_apply M D C n e env) := by
  induction n generalizing e env with
  | zero => exact .throw _
  | succ n ih =>
    intro s t hst
    rw [compile_and_apply, bind_of_ok (compile_apply M D e s), bind_of_ok (compile_apply M D e t)]
    exact relates_apply_code ih env _ _ _ (relates_compile e hst)

/-! ## Compilations that do not interfere -/

variable (M D) in
/-- The function of `e₁`, applied behind the compilation of `e₂`, ends as it does
when applied at once, and reads the same sub-expressions. -/
def NonInterfering (e₁ e₂ : LainExpr) : Prop :=
  ∀ (World Val : Type) (C : Callees World Val) (n : ℕ) (env : Val) (s : State World),
    Alike Same
      ((do
        let f₁ ← compile M D e₁
        apply_code M C (compile_and_apply M D C n) env f₁) s)
      ((do
        let f₁ ← compile M D e₁
        let _ ← compile M D e₂
        apply_code M C (compile_and_apply M D C n) env f₁) s)

variable (M D) in
/-- If the dispatch asks the handler of `e₁` for `e₂`, then the handler's pattern
matches `e₂` as well and binds what the handler looks up to the same. -/
def Undisturbed (e₁ e₂ : LainExpr) : Prop :=
  ∀ h, D.chosen (fits M e₁) = some h → h ∈ D.asked (fits M e₂) →
    ∃ b c, M.match_ (.list [e₁]) h.pattern = some b ∧ M.match_ (.list [e₂]) h.pattern = some c ∧
      ∀ key ∈ h.keys, b key = c key

theorem sameFor_of_undisturbed {e₁ e₂ : LainExpr} (h : Undisturbed M D e₁ e₂) (s : State World) :
    SameFor (codeOf M D e₁) (askedState M D e₁ s) (askedState M D e₂ (askedState M D e₁ s)) := by
  unfold codeOf
  cases hh : D.chosen (fits M e₁) with
  | none => exact ⟨rfl, rfl⟩
  | some k =>
    obtain ⟨b, hb, hs⟩ := askedState_chosen hh s
    have hbound := fun key hkey => M.binds _ _ _ hb key (k.keys_names key hkey)
    by_cases hasked : k ∈ D.asked (fits M e₂)
    · -- Overwritten, with the same expression under every key that is looked up.
      obtain ⟨b', c, hb', hc, hkeys⟩ := h k hh hasked
      obtain rfl := Option.some.inj (hb.symm.trans hb')
      refine ⟨⟨rfl, rfl⟩, b, c, hs, by simp [askedState, matchedBy, hasked, hc], fun key hkey => ?_⟩
      exact (hbound key hkey).imp fun x hx => ⟨hx, (hkeys key hkey).symm.trans hx⟩
    · have ht : (askedState M D e₂ (askedState M D e₁ s)).matched k = some (some b) := by
        rw [← hs]
        simp [askedState, matchedBy, hasked]
      exact ⟨⟨rfl, rfl⟩, b, b, hs, ht, fun key hkey => (hbound key hkey).imp fun x hx => ⟨hx, hx⟩⟩

theorem nonInterfering_of_undisturbed {e₁ e₂ : LainExpr} (h : Undisturbed M D e₁ e₂) : NonInterfering M D e₁ e₂ := by
  intro World Val C n env s
  rw [bind_of_ok (compile_apply M D e₁ s), bind_of_ok (compile_apply M D e₁ s), bind_of_ok (compile_apply M D e₂ _)]
  exact relates_apply_code (blind_compile_and_apply n) env _ _ _ (sameFor_of_undisturbed h s)

/-! ### Reads in the simplest world -/

/-- Callees that do nothing, in a world without data, where every value is a map. -/
def idle : Callees Unit Unit where
  undefined := ()
  text _ := ()
  constant_cell_from_expr _ := .done ()
  ce_cached_lexical_lookup _ _ := .done ()
  construct_cell _ := .done ()
  bind_to_env _ _ _ := .done ()
  construct_closure_cell _ _ _ _ _ := pure ()
  define _ _ _ := .done ()
  execute_all_tasks_sequential := .done ()
  summarize _ := .done ()
  cell_strongest_base_value _ _ := ()
  cell_content _ _ := ()
  is_map _ := true
  map_get _ _ _ := none
  summarize_cells _ := .done ()
  console_log _ := .done ()
  reactive_update _ _ := .done ()
  apply_propagator _ _ _ := .done ()

/-- The state with more reads. -/
def State.log (s : State World) (reads : List (String × LainExpr)) : State World := { s with reads := s.reads ++ reads }

theorem log_nil (s : State World) : s.log [] = s := by simp [State.log]

theorem read_log {h : Handler} {key : String} {s : State World} {b : Bindings} {x : LainExpr}
    (hs : s.matched h = some (some b)) (hb : b key = some x) (reads : List (String × LainExpr)) :
    force_get_dict_value M h key (s.log reads) = .ok x (s.log (reads ++ [(key, x)])) := by
  rw [read_of_bound (s := s.log reads) hs hb]
  simp [State.log]

theorem handle_inspect_idle (s : State Unit) :
    handle M idle (compile_and_apply M D idle 0) () .inspect s =
      (force_get_dict_value M .inspect "A" >>= fun expr => cell_of idle.toCommonCallees () expr >>= fun _ => pure ()) s := rfl

theorem handle_update_idle (s : State Unit) :
    handle M idle (compile_and_apply M D idle 0) () .update s =
      (force_get_dict_value M .update "cell" >>= fun _ =>
        force_get_dict_value M .update "value" >>= fun _ => pure ()) s :=
  rfl

/-- What a handler reads there. -/
theorem reads_handle {h : Handler} {s : State Unit} {b : Bindings} (hs : s.matched h = some (some b))
    {f : String → LainExpr} (hb : ∀ key ∈ h.keys, b key = some (f key)) :
    (stateAfter (handle M idle (compile_and_apply M D idle 0) () h s)).reads =
      s.reads ++ h.keys.map fun key => (key, f key) := by
  conv_lhs => rw [← log_nil s]
  have hread : ∀ key ∈ h.keys, ∀ reads, force_get_dict_value M h key (s.log reads) =
      .ok (f key) (s.log (reads ++ [(key, f key)])) := fun key hkey => read_log hs (hb key hkey)
  cases h with
  | constant =>
    rw [handle, handle_constant, constant_handler, bind_of_ok (hread "constant" (by simp [Handler.keys]) [])]
    rfl
  | symbol =>
    rw [handle, handle_symbol, symbol_handler, bind_of_ok (hread "symbol" (by simp [Handler.keys]) [])]
    rfl
  | output =>
    rw [handle, handle_output, output_handler, bind_of_ok (hread "A" (by simp [Handler.keys]) [])]
    split
    · rfl
    · rfl
  | network =>
    have hclosure : ∀ t : State Unit,
        at_world (idle.construct_closure_cell () (f "name") (f "inputs") (f "outputs") (f "body")) t = .ok () t :=
      fun _ => rfl
    rw [handle, handle_network, bind_of_ok (hread "name" (by simp [Handler.keys]) []),
      bind_of_ok (hread "inputs" (by simp [Handler.keys]) _), bind_of_ok (hread "outputs" (by simp [Handler.keys]) _),
      bind_of_ok (hread "body" (by simp [Handler.keys]) _), bind_of_ok (hclosure _),
      bind_of_ok (hread "name" (by simp [Handler.keys]) _)]
    rfl
  | summary =>
    rw [handle, handle_summary, summary_handler, bind_of_ok (hread "A" (by simp [Handler.keys]) [])]
    rfl
  | inspect =>
    rw [handle_inspect_idle, bind_of_ok (hread "A" (by simp [Handler.keys]) [])]
    rfl
  | update =>
    rw [handle_update_idle, bind_of_ok (hread "cell" (by simp [Handler.keys]) []),
      bind_of_ok (hread "value" (by simp [Handler.keys]) _)]
    rfl

/-- A handler whose last match failed reads nothing. -/
theorem reads_handle_failed {h : Handler} {s : State Unit} (hs : s.matched h = some none) :
    (stateAfter (handle M idle (compile_and_apply M D idle 0) () h s)).reads = s.reads := by
  have hread : ∀ key, ∃ e, force_get_dict_value M h key s = .error e s := by
    intro key
    rw [force_get_dict_value, bind_of_ok (get_apply s)]
    simp [hs]
  cases h with
  | constant =>
    obtain ⟨e, he⟩ := hread "constant"
    rw [handle, handle_constant, constant_handler, bind_of_error he]
    rfl
  | symbol =>
    obtain ⟨e, he⟩ := hread "symbol"
    rw [handle, handle_symbol, symbol_handler, bind_of_error he]
    rfl
  | output =>
    obtain ⟨e, he⟩ := hread "A"
    rw [handle, handle_output, output_handler, bind_of_error he]
    rfl
  | network =>
    obtain ⟨e, he⟩ := hread "name"
    rw [handle, handle_network, bind_of_error he]
    rfl
  | summary =>
    obtain ⟨e, he⟩ := hread "A"
    rw [handle, handle_summary, summary_handler, bind_of_error he]
    rfl
  | inspect =>
    obtain ⟨e, he⟩ := hread "A"
    rw [handle_inspect_idle, bind_of_error he]
    rfl
  | update =>
    obtain ⟨e, he⟩ := hread "cell"
    rw [handle_update_idle, bind_of_error he]
    rfl

/-- The value that bindings have for a key that they bind. -/
def Bindings.value (b : Bindings) (key : String) : LainExpr := (b key).getD (.list [])

theorem Bindings.value_of_match {args : LainExpr} {h : Handler} {b : Bindings} (hb : M.match_ args h.pattern = some b) :
    ∀ key ∈ h.keys, b key = some (b.value key) := by
  intro key hkey
  obtain ⟨x, hx⟩ := M.binds _ _ _ hb key (h.keys_names key hkey)
  rw [Bindings.value, hx]
  rfl

theorem undisturbed_of_nonInterfering {e₁ e₂ : LainExpr} (h : NonInterfering M D e₁ e₂) : Undisturbed M D e₁ e₂ := by
  intro k hk hasked
  let start : State Unit := { matched := fun _ => none, world := (), reads := [] }
  have halike := h Unit Unit idle 0 () start
  rw [bind_of_ok (compile_apply M D e₁ start), bind_of_ok (compile_apply M D e₁ start),
    bind_of_ok (compile_apply M D e₂ _)] at halike
  have hcode : codeOf M D e₁ = .handler k := by simp [codeOf, hk]
  rw [hcode] at halike
  have hreads : (stateAfter (handle M idle (compile_and_apply M D idle 0) () k (askedState M D e₁ start))).reads =
      (stateAfter (handle M idle (compile_and_apply M D idle 0) () k
        (askedState M D e₂ (askedState M D e₁ start)))).reads := halike.stateAfter.2
  -- Behind both compilations the variable holds what the handler's pattern made of `e₂`.
  obtain ⟨b, hb, hs⟩ := askedState_chosen hk start
  have hlast : (askedState M D e₂ (askedState M D e₁ start)).matched k = some (M.match_ (.list [e₂]) k.pattern) := by
    simp [askedState, matchedBy, hasked]
  rw [reads_handle hs (Bindings.value_of_match hb)] at hreads
  cases hc : M.match_ (.list [e₂]) k.pattern with
  | none =>
    -- `val` throws, while the function applied at once reads at least one key.
    rw [hc] at hlast
    rw [reads_handle_failed hlast] at hreads
    have hnil : k.keys.map (fun key => (key, b.value key)) = [] := List.append_right_eq_self.1 hreads
    cases k <;> simp [Handler.keys] at hnil
  | some c =>
    rw [hc] at hlast
    rw [reads_handle hlast (Bindings.value_of_match hc)] at hreads
    have hvalues := List.map_inj_left.1 (List.append_cancel_left hreads)
    refine ⟨b, c, hb, rfl, fun key hkey => ?_⟩
    rw [Bindings.value_of_match hb key hkey, Bindings.value_of_match hc key hkey, (Prod.mk.inj (hvalues key hkey)).2]

/-- The functions of two compilations do not interfere exactly when the dispatch of
the second does not change what the handler of the first has bound. -/
theorem compilations_do_not_interfere_iff (M : Matcher) (D : Dispatch) (e₁ e₂ : LainExpr) :
    NonInterfering M D e₁ e₂ ↔ Undisturbed M D e₁ e₂ :=
  ⟨undisturbed_of_nonInterfering, nonInterfering_of_undisturbed⟩

/-! ### Two constants -/

/-- Matches an element, and nothing else. -/
def elementMatcher : Matcher where
  match_
    | .list [x], [.element name predicate] =>
      if predicate x then some fun key => if key = name then some x else none else none
    | _, _ => none
  binds args pattern b h name hname := by
    split at h
    · split at h
      · cases h
        obtain rfl : name = _ := by simpa [Pattern.namesOf, Pattern.names] using hname
        exact ⟨_, if_pos rfl⟩
      · cases h
    · cases h
  safeGet_error key := key
  text _ := ""
  inspect _ := ""

/-- All handlers, in the order they are defined. -/
def handlers : List Handler := [.constant, .symbol, .output, .network, .summary, .inspect, .update]

/-- Asks the handlers in order, up to the first that fits. -/
def firstFit : Dispatch where
  asked fits := handlers.takeWhile (fun h => !fits h) ++ (handlers.find? fits).toList
  chosen fits := handlers.find? fits
  chosen_spec fits h hh := ⟨List.mem_append_right _ (by simp [hh]), List.find?_some hh⟩

/-- The function of `1` makes a cell for `2` once `2` has been compiled. -/
theorem constants_interfere :
    ¬NonInterfering elementMatcher firstFit (.element .number (.num (.ofNat 1)))
      (.element .number (.num (.ofNat 2))) := by
  intro h
  obtain ⟨b, c, hb, hc, hkeys⟩ := undisturbed_of_nonInterfering h .constant rfl (by decide)
  have hkey := hkeys "constant" (by simp [Handler.keys])
  cases hb
  cases hc
  simp only [if_true, Option.some.injEq, LainExpr.element.injEq, LainExpr.num.injEq, true_and] at hkey
  exact absurd (Decimal.ofNat_injective (JsNumber.finite.inj hkey)) (by decide)

end LainLang.Compiler.Matching
