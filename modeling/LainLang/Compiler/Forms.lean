import LainLang.Compiler.Matching
/-!
# The forms of an expression

Which handler fits an expression, and what it binds, is read off the expression: no
two handlers fit one expression, so the order in which the dispatch asks does not
matter.
-/
open LainLang.Lib LainLang.Js

namespace LainLang.Compiler.Matching

/-! ## What the matcher binds -/

/-- The ways to match a list of patterns with a list of items. Whether a segment may
be empty is up to the matcher. -/
inductive Matches (segment_ok : List LainExpr → Bool) : List Pattern → List LainExpr → List (String × LainExpr) → Prop where
  | nil : Matches segment_ok [] [] []
  | element {name : String} {predicate : LainExpr → Bool} {x : LainExpr} {ps : List Pattern} {xs : List LainExpr}
      {bound : List (String × LainExpr)} (h : predicate x = true) (rest : Matches segment_ok ps xs bound) :
      Matches segment_ok (.element name predicate :: ps) (x :: xs) ((name, x) :: bound)
  | segment {name : String} {items xs : List LainExpr} {ps : List Pattern} {bound : List (String × LainExpr)}
      (h : segment_ok items = true) (rest : Matches segment_ok ps xs bound) :
      Matches segment_ok (.segment name :: ps) (items ++ xs) ((name, .list items) :: bound)
  | list {inner ps : List Pattern} {items xs : List LainExpr} {bound bound' : List (String × LainExpr)}
      (h : Matches segment_ok inner items bound) (rest : Matches segment_ok ps xs bound') :
      Matches segment_ok (.list inner :: ps) (.list items :: xs) (bound ++ bound')

/-- A matcher that finds a way to match if there is one. -/
structure PatternMatcher extends Matcher where
  segment_ok : List LainExpr → Bool
  sound : ∀ args pattern b, (Pattern.namesOf pattern).Nodup → match_ args pattern = some b →
    ∃ items bound, args = .list items ∧ Matches segment_ok pattern items bound ∧ ∀ p ∈ bound, b p.1 = some p.2
  complete : ∀ items pattern bound, (Pattern.namesOf pattern).Nodup → Matches segment_ok pattern items bound →
    (match_ (.list items) pattern).isSome = true

/-- The dispatch runs a handler wherever one fits. -/
def Dispatch.Total (D : Dispatch) : Prop := ∀ fits h, fits h = true → (D.chosen fits).isSome = true

/-! ## Forms -/

/-- What an expression is to the compilers, with the parts their handlers look up. -/
inductive ExprForm where
  | constant (x : LainExpr)
  | symbol (x : LainExpr)
  | output (A : LainExpr)
  | network (name inputs outputs body : LainExpr)
  | summary (A : LainExpr)
  | inspect (A : LainExpr)
  | update (cell value : LainExpr)
  | application (operator operands : LainExpr)
  | nothing

/-- The symbol of that name. -/
def named (symbol : String) (x : LainExpr) : Bool :=
  is_element_symbol x && (match expr_value x with
    | some (.str s) => s == symbol
    | _ => false)

theorem LainType.text_eq_symbol {type : LainType} (h : (type.text == LainType.symbol.text) = true) : type = .symbol := by
  cases type <;> first | rfl | exact absurd h (by decide)

theorem named_iff {symbol : String} {x : LainExpr} : named symbol x = true ↔ x = lain_symbol symbol := by
  constructor
  · intro h
    cases x with
    | element type value =>
      simp only [named, Bool.and_eq_true, expr_value] at h
      obtain ⟨htype, hvalue⟩ := h
      cases value with
      | str s =>
        obtain rfl := eq_of_beq hvalue
        obtain rfl := LainType.text_eq_symbol htype
        rfl
      | _ => cases hvalue
    | _ => cases h
  · rintro rfl
    simp [named, lain_symbol, is_element_symbol, has_type, expr_value]

section form

variable (segment_ok : List LainExpr → Bool)

/-- The lists that are not applications. -/
def special : List LainExpr → Option ExprForm
  | [head, A] =>
    if named "->" head then some (.output A)
    else if named "?" head then some (.summary A)
    else if named "??" head then some (.inspect A)
    else none
  | [head, cell, value] => if named ">::" head then some (.update cell value) else none
  | head :: name :: .list (i :: inputs) :: .list (o :: outputs) :: body =>
    if named "network" head && named ">::" i && named "::>" o && segment_ok inputs && segment_ok outputs && segment_ok body then
      some (.network name (.list inputs) (.list outputs) (.list body))
    else none
  | _ => none

/-- A list that is no special form applies its first item to the rest. -/
def applied : List LainExpr → ExprForm
  | operator :: operands => if segment_ok operands then .application operator (.list operands) else .nothing
  | [] => .nothing

/-- The form of an expression. -/
def form : LainExpr → ExprForm
  | .list items => (special segment_ok items).getD (applied segment_ok items)
  | x => if is_self_evaluating x then .constant x else if is_element_symbol x then .symbol x else .nothing

end form

/-- The handler of a form; an application goes to the default. -/
def ExprForm.handler : ExprForm → Option Handler
  | .constant _ => some .constant
  | .symbol _ => some .symbol
  | .output _ => some .output
  | .network _ _ _ _ => some .network
  | .summary _ => some .summary
  | .inspect _ => some .inspect
  | .update _ _ => some .update
  | .application _ _ | .nothing => none

/-- What the handler of a form looks up. -/
def ExprForm.part : ExprForm → String → Option LainExpr
  | .constant x, "constant" => some x
  | .symbol x, "symbol" => some x
  | .output A, "A" => some A
  | .network name _ _ _, "name" => some name
  | .network _ inputs _ _, "inputs" => some inputs
  | .network _ _ outputs _, "outputs" => some outputs
  | .network _ _ _ body, "body" => some body
  | .summary A, "A" => some A
  | .inspect A, "A" => some A
  | .update cell _, "cell" => some cell
  | .update _ value, "value" => some value
  | _, _ => none

/-! ## The handler that fits -/

variable {segment_ok : List LainExpr → Bool}

theorem named_symbol (symbol name : String) : named symbol (lain_symbol name) = (name == symbol) := by
  rw [Bool.eq_iff_iff, named_iff, beq_iff_eq]
  exact ⟨fun h => by cases h; rfl, fun h => by rw [h]⟩

/-- The predicate of a constant of the language. -/
theorem matches_s_constant {symbol : String} {ps : List Pattern} {xs : List LainExpr} {bound : List (String × LainExpr)}
    (h : Matches segment_ok (s_constant symbol :: ps) xs bound) :
    ∃ xs' bound', xs = lain_symbol symbol :: xs' ∧ bound = (symbol ++ "_constant", lain_symbol symbol) :: bound' ∧
      Matches segment_ok ps xs' bound' := by
  cases h with
  | element h rest =>
    obtain rfl := named_iff.1 h
    exact ⟨_, _, rfl, rfl, rest⟩

theorem matches_element {name : String} {ps : List Pattern} {xs : List LainExpr} {bound : List (String × LainExpr)}
    (h : Matches segment_ok (element name :: ps) xs bound) :
    ∃ x xs' bound', xs = x :: xs' ∧ bound = (name, x) :: bound' ∧ Matches segment_ok ps xs' bound' := by
  cases h with
  | element h rest => exact ⟨_, _, _, rfl, rfl, rest⟩

theorem matches_list {inner ps : List Pattern} {xs : List LainExpr} {bound : List (String × LainExpr)}
    (h : Matches segment_ok (.list inner :: ps) xs bound) :
    ∃ items xs' bound' bound'', xs = .list items :: xs' ∧ bound = bound' ++ bound'' ∧
      Matches segment_ok inner items bound' ∧ Matches segment_ok ps xs' bound'' := by
  cases h with
  | list h rest => exact ⟨_, _, _, _, rfl, rfl, h, rest⟩

/-- A segment behind which nothing follows. -/
theorem matches_segment {name : String} {xs : List LainExpr} {bound : List (String × LainExpr)}
    (h : Matches segment_ok [.segment name] xs bound) : segment_ok xs = true ∧ bound = [(name, .list xs)] := by
  cases h with
  | segment h rest =>
    cases rest
    rw [List.append_nil]
    exact ⟨h, rfl⟩

theorem segment_matches {name : String} {xs : List LainExpr} (h : segment_ok xs = true) :
    Matches segment_ok [.segment name] xs [(name, .list xs)] := by
  have hm : Matches segment_ok [.segment name] (xs ++ []) [(name, .list xs)] := .segment h .nil
  rwa [List.append_nil] at hm

theorem matches_nil {xs : List LainExpr} {bound : List (String × LainExpr)} (h : Matches segment_ok [] xs bound) :
    xs = [] ∧ bound = [] := by
  cases h
  exact ⟨rfl, rfl⟩

/-- An expression that is a list. -/
theorem matches_singleton {inner : List Pattern} {e : LainExpr} {bound : List (String × LainExpr)}
    (h : Matches segment_ok [.list inner] [e] bound) : ∃ items, e = .list items ∧ Matches segment_ok inner items bound := by
  obtain ⟨items, xs, bound', bound'', heq, rfl, hinner, hrest⟩ := matches_list h
  obtain ⟨rfl, rfl⟩ := matches_nil hrest
  rw [List.append_nil]
  exact ⟨items, (List.cons.inj heq).1, hinner⟩

/-- An operator of one argument. -/
theorem matches_unary {symbol : String} {e : LainExpr} {bound : List (String × LainExpr)}
    (h : Matches segment_ok [.list [s_constant symbol, element "A"]] [e] bound) :
    ∃ A, e = .list [lain_symbol symbol, A] ∧ ("A", A) ∈ bound := by
  obtain ⟨items, rfl, hitems⟩ := matches_singleton h
  obtain ⟨xs, bound₁, rfl, rfl, hA⟩ := matches_s_constant hitems
  obtain ⟨A, ys, bound₂, rfl, rfl, hnil⟩ := matches_element hA
  obtain ⟨rfl, rfl⟩ := matches_nil hnil
  exact ⟨A, rfl, by simp⟩

/-- A pattern that matches an expression is that of the handler of its form, and binds
the parts of the form. -/
theorem handler_of_matches {h : Handler} {e : LainExpr} {bound : List (String × LainExpr)}
    (hm : Matches segment_ok h.pattern [e] bound) :
    (form segment_ok e).handler = some h ∧ ∀ key ∈ h.keys, ∃ x, (key, x) ∈ bound ∧ (form segment_ok e).part key = some x := by
  cases h with
  | constant =>
    cases hm with
    | element h rest =>
      obtain ⟨-, rfl⟩ := matches_nil rest
      have hform : form segment_ok e = .constant e := by
        cases e with
        | element type value => exact if_pos h
        | _ => cases h
      rw [hform]
      exact ⟨rfl, by simp [Handler.keys, ExprForm.part]⟩
  | symbol =>
    cases hm with
    | element h rest =>
      obtain ⟨-, rfl⟩ := matches_nil rest
      have hform : form segment_ok e = .symbol e := by
        cases e with
        | element type value =>
          obtain rfl := LainType.text_eq_symbol h
          rfl
        | _ => cases h
      rw [hform]
      exact ⟨rfl, by simp [Handler.keys, ExprForm.part]⟩
  | output =>
    obtain ⟨A, rfl, hA⟩ := matches_unary hm
    simp [form, special, named_symbol, ExprForm.handler, Handler.keys, ExprForm.part, hA]
  | network =>
    obtain ⟨items, rfl, hitems⟩ := matches_singleton hm
    obtain ⟨xs, bound₁, rfl, rfl, hname⟩ := matches_s_constant hitems
    obtain ⟨name, ys, bound₂, rfl, rfl, hlists⟩ := matches_element hname
    obtain ⟨inputs, zs, bound₃, bound₄, rfl, rfl, hinputs, hrest⟩ := matches_list hlists
    obtain ⟨outputs, body, bound₅, bound₆, rfl, rfl, houtputs, hbody⟩ := matches_list hrest
    obtain ⟨ins, bound₇, rfl, rfl, hins⟩ := matches_s_constant hinputs
    obtain ⟨outs, bound₈, rfl, rfl, houts⟩ := matches_s_constant houtputs
    obtain ⟨hins_ok, rfl⟩ := matches_segment hins
    obtain ⟨houts_ok, rfl⟩ := matches_segment houts
    obtain ⟨hbody_ok, rfl⟩ := matches_segment hbody
    simp [form, special, named_symbol, hins_ok, houts_ok, hbody_ok, ExprForm.handler, Handler.keys, ExprForm.part]
  | summary =>
    obtain ⟨A, rfl, hA⟩ := matches_unary hm
    simp [form, special, named_symbol, ExprForm.handler, Handler.keys, ExprForm.part, hA]
  | inspect =>
    obtain ⟨A, rfl, hA⟩ := matches_unary hm
    simp [form, special, named_symbol, ExprForm.handler, Handler.keys, ExprForm.part, hA]
  | update =>
    obtain ⟨items, rfl, hitems⟩ := matches_singleton hm
    obtain ⟨xs, bound₁, rfl, rfl, hcell⟩ := matches_s_constant hitems
    obtain ⟨cell, ys, bound₂, rfl, rfl, hvalue⟩ := matches_element hcell
    obtain ⟨value, zs, bound₃, rfl, rfl, hnil⟩ := matches_element hvalue
    obtain ⟨rfl, rfl⟩ := matches_nil hnil
    simp [form, special, named_symbol, ExprForm.handler, Handler.keys, ExprForm.part]

theorem applied_handler (items : List LainExpr) : (applied segment_ok items).handler = none := by
  unfold applied
  split
  · split <;> rfl
  · rfl

/-- The pattern of the handler of a list that is no application matches. -/
theorem matches_of_special {items : List LainExpr} {f : ExprForm} (hf : special segment_ok items = some f) :
    ∃ h bound, f.handler = some h ∧ Matches segment_ok h.pattern [.list items] bound := by
  unfold special at hf
  split at hf
  · split at hf
    · rename_i hhead
      cases hf
      exact ⟨.output, _, rfl, .list (.element hhead (.element rfl .nil)) .nil⟩
    split at hf
    · rename_i hhead
      cases hf
      exact ⟨.summary, _, rfl, .list (.element hhead (.element rfl .nil)) .nil⟩
    split at hf
    · rename_i hhead
      cases hf
      exact ⟨.inspect, _, rfl, .list (.element hhead (.element rfl .nil)) .nil⟩
    · cases hf
  · split at hf
    · rename_i hhead
      cases hf
      exact ⟨.update, _, rfl, .list (.element hhead (.element rfl (.element rfl .nil))) .nil⟩
    · cases hf
  · split at hf
    · rename_i hall
      cases hf
      simp only [Bool.and_eq_true] at hall
      obtain ⟨⟨⟨⟨⟨hhead, hi⟩, ho⟩, hinputs⟩, houtputs⟩, hbody⟩ := hall
      exact ⟨.network, _, rfl,
        .list (.element hhead (.element rfl (.list (.element hi (segment_matches hinputs))
          (.list (.element ho (segment_matches houtputs)) (segment_matches hbody))))) .nil⟩
    · cases hf
  · cases hf

/-- The pattern of the handler of a form matches. -/
theorem matches_of_handler {h : Handler} {e : LainExpr} (hh : (form segment_ok e).handler = some h) :
    ∃ bound, Matches segment_ok h.pattern [e] bound := by
  unfold form at hh
  split at hh
  · rename_i items
    cases hf : special segment_ok items with
    | some f =>
      obtain ⟨k, bound, hk, hm⟩ := matches_of_special hf
      rw [hf, Option.getD_some, hk] at hh
      cases hh
      exact ⟨bound, hm⟩
    | none =>
      rw [hf, Option.getD_none, applied_handler] at hh
      cases hh
  · split at hh
    · rename_i hself
      cases hh
      exact ⟨_, .element hself .nil⟩
    split at hh
    · rename_i hsymbol
      cases hh
      exact ⟨_, .element hsymbol .nil⟩
    · cases hh

/-! ## What the dispatch chooses -/

variable {M : PatternMatcher} {D : Dispatch}

theorem Handler.names_nodup (h : Handler) : (Pattern.namesOf h.pattern).Nodup := by
  cases h <;> decide

theorem form_of_match {h : Handler} {e : LainExpr} {b : Bindings} (hb : M.match_ (.list [e]) h.pattern = some b) :
    (form M.segment_ok e).handler = some h ∧ ∀ key ∈ h.keys, b key = (form M.segment_ok e).part key := by
  obtain ⟨items, bound, heq, hm, hbound⟩ := M.sound _ _ _ h.names_nodup hb
  cases heq
  obtain ⟨hform, hparts⟩ := handler_of_matches hm
  refine ⟨hform, fun key hkey => ?_⟩
  obtain ⟨x, hmem, hx⟩ := hparts key hkey
  rw [hx]
  exact hbound _ hmem

theorem fits_iff {h : Handler} {e : LainExpr} :
    fits M.toMatcher e h = true ↔ (form M.segment_ok e).handler = some h := by
  constructor
  · intro hfits
    obtain ⟨b, hb⟩ := Option.isSome_iff_exists.1 hfits
    exact (form_of_match hb).1
  · intro hh
    obtain ⟨bound, hm⟩ := matches_of_handler hh
    exact M.complete _ _ _ h.names_nodup hm

/-- The dispatch chooses the handler of the form. -/
theorem chosen_eq (hD : D.Total) (e : LainExpr) : D.chosen (fits M.toMatcher e) = (form M.segment_ok e).handler := by
  cases hh : (form M.segment_ok e).handler with
  | some h =>
    obtain ⟨k, hk⟩ := Option.isSome_iff_exists.1 (hD _ h (fits_iff.2 hh))
    have hfits := fits_iff.1 (D.chosen_spec _ k hk).2
    rw [hk, ← hfits, hh]
  | none =>
    cases hk : D.chosen (fits M.toMatcher e) with
    | none => rfl
    | some k => cases hh.symm.trans (fits_iff.1 (D.chosen_spec _ k hk).2)

/-! ## The default -/

/-- The pattern of the default. -/
def default_pattern : List Pattern := [element "operator", .segment "operands"]

theorem form_list {items : List LainExpr} (h : (form segment_ok (.list items)).handler = none) :
    form segment_ok (.list items) = applied segment_ok items := by
  rw [form] at h ⊢
  cases hf : special segment_ok items with
  | some f =>
    obtain ⟨k, bound, hk, -⟩ := matches_of_special hf
    rw [hf, Option.getD_some, hk] at h
    cases h
  | none => rfl

theorem default_nodup : (Pattern.namesOf default_pattern).Nodup := by decide

/-- The default matches an application. -/
theorem default_match {e : LainExpr} {b : Bindings} (h : (form M.segment_ok e).handler = none)
    (hb : M.match_ e default_pattern = some b) :
    ∃ operator operands, form M.segment_ok e = .application operator operands ∧ b "operator" = some operator ∧
      b "operands" = some operands := by
  obtain ⟨items, bound, rfl, hm, hbound⟩ := M.sound _ _ _ default_nodup hb
  obtain ⟨operator, operands, bound', rfl, rfl, hrest⟩ := matches_element hm
  obtain ⟨hok, rfl⟩ := matches_segment hrest
  refine ⟨operator, .list operands, ?_, hbound ("operator", operator) (by simp),
    hbound ("operands", .list operands) (by simp)⟩
  rw [form_list h, applied, if_pos hok]

/-- What it does not match is no application. -/
theorem default_no_match {e : LainExpr} (h : (form M.segment_ok e).handler = none)
    (hb : M.match_ e default_pattern = none) : form M.segment_ok e = .nothing := by
  cases e with
  | list items =>
    rw [form_list h]
    cases items with
    | nil => rfl
    | cons operator operands =>
      rw [applied]
      split
      · rename_i hok
        have hm : Matches M.segment_ok default_pattern (operator :: operands)
            [("operator", operator), ("operands", .list operands)] := .element rfl (segment_matches hok)
        cases (congrArg Option.isSome hb).symm.trans (M.complete _ _ _ default_nodup hm)
      · rfl
  | element type value =>
    have hform : form M.segment_ok (.element type value) =
        if is_self_evaluating (.element type value) then .constant (.element type value)
        else if is_element_symbol (.element type value) then .symbol (.element type value) else .nothing := rfl
    rw [hform] at h ⊢
    split at h
    · cases h
    split at h
    · cases h
    · rename_i hself hsymbol
      rw [if_neg hself, if_neg hsymbol]
  | _ => rfl

/-! ## A matcher -/

/-- Tries the shortest segment first. -/
def matchItems : List Pattern → List LainExpr → Option (List (String × LainExpr))
  | [], [] => some []
  | [], _ :: _ => none
  | .element name predicate :: ps, x :: xs => if predicate x then (matchItems ps xs).map ((name, x) :: ·) else none
  | .element _ _ :: _, [] => none
  | .segment name :: ps, xs =>
    (List.range (xs.length + 1)).findSome? fun k => (matchItems ps (xs.drop k)).map ((name, .list (xs.take k)) :: ·)
  | .list inner :: ps, .list items :: xs =>
    (matchItems inner items).bind fun bound => (matchItems ps xs).map (bound ++ ·)
  | .list _ :: _, _ => none
termination_by ps => sizeOf ps

theorem matches_of_matchItems (ps : List Pattern) (xs : List LainExpr) (bound : List (String × LainExpr))
    (h : matchItems ps xs = some bound) : Matches (fun _ => true) ps xs bound := by
  fun_induction matchItems ps xs generalizing bound with
  | case1 =>
    cases h
    exact .nil
  | case2 => cases h
  | case3 name predicate ps x xs hx ih =>
    obtain ⟨rest, hrest, rfl⟩ := Option.map_eq_some_iff.1 h
    exact .element hx (ih rest hrest)
  | case4 => cases h
  | case5 => cases h
  | case6 name ps xs ih =>
    obtain ⟨k, -, hk⟩ := List.exists_of_findSome?_eq_some h
    obtain ⟨rest, hrest, rfl⟩ := Option.map_eq_some_iff.1 hk
    have hm : Matches (fun _ => true) (.segment name :: ps) (xs.take k ++ xs.drop k) ((name, .list (xs.take k)) :: rest) :=
      .segment rfl (ih k rest hrest)
    rwa [List.take_append_drop] at hm
  | case7 inner ps items xs ih₁ ih₂ =>
    obtain ⟨first, hfirst, hrest⟩ := Option.bind_eq_some_iff.1 h
    obtain ⟨rest, hxs, rfl⟩ := Option.map_eq_some_iff.1 hrest
    exact .list (ih₁ first hfirst) (ih₂ rest hxs)
  | case8 => cases h

theorem matchItems_of_matches {ps : List Pattern} {xs : List LainExpr} {bound : List (String × LainExpr)}
    (h : Matches (fun _ => true) ps xs bound) : (matchItems ps xs).isSome = true := by
  induction h with
  | nil => simp [matchItems]
  | element hx _ ih => simp [matchItems, hx, ih]
  | @segment name items xs ps bound _ _ ih =>
    obtain ⟨rest, hrest⟩ := Option.isSome_iff_exists.1 ih
    rw [matchItems, List.findSome?_isSome_iff]
    refine ⟨items.length, List.mem_range.2 (by rw [List.length_append]; omega), ?_⟩
    simp [hrest]
  | list _ _ ih₁ ih₂ =>
    obtain ⟨first, hfirst⟩ := Option.isSome_iff_exists.1 ih₁
    obtain ⟨rest, hrest⟩ := Option.isSome_iff_exists.1 ih₂
    simp [matchItems, hfirst, hrest]

theorem Matches.names {ps : List Pattern} {xs : List LainExpr} {bound : List (String × LainExpr)}
    (h : Matches segment_ok ps xs bound) : bound.map (·.1) = Pattern.namesOf ps := by
  induction h with
  | nil => rfl
  | element _ _ ih => simp [Pattern.namesOf, Pattern.names, ih]
  | segment _ _ ih => simp [Pattern.namesOf, Pattern.names, ih]
  | list _ _ ih₁ ih₂ => simp [Pattern.namesOf, Pattern.names, ih₁, ih₂]

/-- The bindings as a dictionary. -/
def dictionary (bound : List (String × LainExpr)) : Bindings := fun key => (bound.find? (·.1 == key)).map (·.2)

theorem dictionary_of_mem {bound : List (String × LainExpr)} (hnodup : (bound.map (·.1)).Nodup) {p : String × LainExpr}
    (hp : p ∈ bound) : dictionary bound p.1 = some p.2 := by
  induction bound with
  | nil => cases hp
  | cons q bound ih =>
    rw [List.map_cons, List.nodup_cons] at hnodup
    rcases List.mem_cons.1 hp with rfl | hp
    · simp [dictionary]
    · have hne : q.1 ≠ p.1 := fun heq => hnodup.1 (heq ▸ List.mem_map_of_mem hp)
      simpa [dictionary, hne] using ih hnodup.2 hp

/-- A matcher that tries every way to split a list. -/
def backtracking : PatternMatcher where
  match_ args pattern :=
    match args with
    | .list items => (matchItems pattern items).map dictionary
    | _ => none
  binds args pattern b h name hname := by
    split at h
    · obtain ⟨bound, hbound, rfl⟩ := Option.map_eq_some_iff.1 h
      rw [← (matches_of_matchItems _ _ _ hbound).names] at hname
      obtain ⟨p, hp, rfl⟩ := List.mem_map.1 hname
      have hsome : (bound.find? (·.1 == p.1)).isSome = true := List.find?_isSome.2 ⟨p, hp, by simp⟩
      obtain ⟨q, hq⟩ := Option.isSome_iff_exists.1 hsome
      exact ⟨q.2, by rw [dictionary, hq]; rfl⟩
    · cases h
  safeGet_error key := key
  text _ := ""
  inspect _ := ""
  segment_ok _ := true
  sound args pattern b hnodup h := by
    split at h
    · rename_i items
      obtain ⟨bound, hbound, rfl⟩ := Option.map_eq_some_iff.1 h
      have hm := matches_of_matchItems _ _ _ hbound
      exact ⟨items, bound, rfl, hm, fun p hp => dictionary_of_mem (hm.names ▸ hnodup) hp⟩
    · cases h
  complete items pattern bound _ hm := by
    rw [Option.isSome_map]
    exact matchItems_of_matches hm

end LainLang.Compiler.Matching
