import LainLang.Datalog.Values
/-!
# The model a program computes

`immediate_consequence` is monotone once it is fixed which facts `NegFact` looks
for. For safe rules without `NegFact` the naive evaluation computes the least
fixpoint; where no head has a predicate that occurs under `NegFact`, it computes
the one in which `NegFact` looks into the facts given.
-/
open LainLang.Lib

namespace LainLang.Datalog

/-! ## Checking that a rule is safe -/

/-- The variables of an atom. -/
def Atom.variables (a : Atom) : List String := a.filterMap fun
  | .V x => some x
  | .str _ => none

theorem Atom.mem_variables {a : Atom} {x : String} : x ∈ Atom.variables a ↔ .V x ∈ a := by
  rw [Atom.variables, List.mem_filterMap]
  constructor
  · rintro ⟨t, ht, h⟩
    cases t with
    | V y => cases h; exact ht
    | str s => cases h
  · exact fun h => ⟨.V x, h, rfl⟩

/-- What a literal binds besides the variables bound before it. -/
def BodyAtom.binds (bound : List String) : BodyAtom → List String
  | .atom a =>
    if is_eq a then
      match a.at 1, a.at 2 with
      | .V x, .V y => (if x ∈ bound then [y] else []) ++ (if y ∈ bound then [x] else [])
      | .V x, .str _ => [x]
      | .str _, .V x => [x]
      | .str _, .str _ => []
    else if is_neq a then []
    else Atom.variables a
  | _ => []

/-- Along a path, guards and the head only read variables that were bound before. -/
def safePath (head : Atom) : List String → List BodyAtom → Bool
  | bound, [] => (Atom.variables head).all (· ∈ bound)
  | bound, a :: path => (Atom.variables a.guarded).all (· ∈ bound) && safePath head (a.binds bound ++ bound) path

/-- Every path through the body is safe. -/
def ExtendedRule.safe (r : ExtendedRule) : Bool := (bodyPaths r.body).all (safePath r.head [])

theorem Bound.mono {lits lits' : List BodyAtom} (h : lits ⊆ lits') {x : String} (hx : Bound lits x) : Bound lits' x := by
  induction hx with
  | atom hmem heq hneq hx => exact .atom (h hmem) heq hneq hx
  | eq hmem heq hsides _ ih => exact .eq (h hmem) heq hsides ih

theorem bound_of_binds {before : List BodyAtom} {bound : List String} (h : ∀ x ∈ bound, Bound before x) {a : BodyAtom}
    {x : String} (hx : x ∈ a.binds bound) : Bound (before ++ [a]) x := by
  have hbefore : ∀ y ∈ bound, Bound (before ++ [a]) y := fun y hy => (h y hy).mono (List.subset_append_left _ _)
  have hmem : a ∈ before ++ [a] := by simp
  cases a with
  | atom a =>
    rw [BodyAtom.binds] at hx
    by_cases heq : is_eq a = true
    · rw [if_pos heq] at hx
      cases h1 : a.at 1 with
      | V y =>
        cases h2 : a.at 2 with
        | V z =>
          simp only [h1, h2, List.mem_append] at hx
          rcases hx with hx | hx
          · by_cases hy : y ∈ bound
            · rw [if_pos hy, List.mem_singleton] at hx
              exact .eq hmem heq (.inr ⟨h1, hx ▸ h2⟩) fun w hw => by cases hw; exact hbefore y hy
            · simp [hy] at hx
          · by_cases hz : z ∈ bound
            · rw [if_pos hz, List.mem_singleton] at hx
              exact .eq hmem heq (.inl ⟨hx ▸ h1, h2⟩) fun w hw => by cases hw; exact hbefore z hz
            · simp [hz] at hx
        | str s =>
          simp only [h1, h2, List.mem_singleton] at hx
          exact .eq hmem heq (.inl ⟨hx ▸ h1, h2⟩) fun w hw => by cases hw
      | str s =>
        cases h2 : a.at 2 with
        | V z =>
          simp only [h1, h2, List.mem_singleton] at hx
          exact .eq hmem heq (.inr ⟨h1, hx ▸ h2⟩) fun w hw => by cases hw
        | str s' => simp [h1, h2] at hx
    · rw [if_neg heq] at hx
      by_cases hneq : is_neq a = true
      · simp [hneq] at hx
      · rw [if_neg hneq] at hx
        exact .atom hmem (Bool.eq_false_iff.2 heq) (Bool.eq_false_iff.2 hneq) (Atom.mem_variables.1 hx)
  | _ => simp [BodyAtom.binds] at hx

theorem safePath_sound {head : Atom} {before path : List BodyAtom} {bound : List String}
    (h : ∀ x ∈ bound, Bound before x) (hsafe : safePath head bound path = true) :
    (∀ x, .V x ∈ head → Bound (before ++ path) x) ∧
      ∀ mid a after, path = mid ++ a :: after → ∀ x, .V x ∈ a.guarded → Bound (before ++ mid) x := by
  induction path generalizing before bound with
  | nil =>
    simp only [safePath, List.all_eq_true, decide_eq_true_eq] at hsafe
    refine ⟨fun x hx => by simpa using h x (hsafe x (Atom.mem_variables.2 hx)), fun mid a after hpath => ?_⟩
    simp at hpath
  | cons a path ih =>
    simp only [safePath, Bool.and_eq_true, List.all_eq_true, decide_eq_true_eq] at hsafe
    have hnext : ∀ x ∈ a.binds bound ++ bound, Bound (before ++ [a]) x := fun x hx => by
      rcases List.mem_append.1 hx with hx | hx
      · exact bound_of_binds h hx
      · exact (h x hx).mono (List.subset_append_left _ _)
    obtain ⟨hhead, hguards⟩ := ih hnext hsafe.2
    refine ⟨by simpa using hhead, fun mid b after hpath x hx => ?_⟩
    cases mid with
    | nil =>
      cases hpath
      simpa using h x (hsafe.1 x (Atom.mem_variables.2 hx))
    | cons c mid =>
      cases hpath
      simpa using hguards mid b after rfl x hx

theorem safe_of_check {r : ExtendedRule} (h : r.safe = true) : r.Safe := by
  intro path hpath
  have hcheck := List.all_eq_true.1 h path hpath
  obtain ⟨hhead, hguards⟩ := @safePath_sound r.head [] path [] (by simp) hcheck
  exact ⟨hhead, hguards⟩

/-! ## Immediate consequences -/

mutual

/-- The templates that occur under `NegFact`. -/
def BodyAtom.negated : BodyAtom → List Atom
  | .neg_fact template => [template]
  | .or branches => branchesNegated branches
  | .and conjuncts => bodyNegated conjuncts
  | _ => []

/-- The templates under `NegFact` in a body. -/
def bodyNegated : List BodyAtom → List Atom
  | [] => []
  | a :: as => a.negated ++ bodyNegated as

/-- The templates under `NegFact` in the branches of an `Or`. -/
def branchesNegated : List (List BodyAtom) → List Atom
  | [] => []
  | b :: bs => bodyNegated b ++ branchesNegated bs

end

theorem bodyNegated_append (as bs : List BodyAtom) : bodyNegated (as ++ bs) = bodyNegated as ++ bodyNegated bs := by
  induction as with
  | nil => rfl
  | cons a as ih => simp [bodyNegated, ih]

theorem mem_branchesNegated {b : List BodyAtom} {branches : List (List BodyAtom)} (h : b ∈ branches) :
    bodyNegated b ⊆ branchesNegated branches := by
  induction branches with
  | nil => cases h
  | cons c branches ih =>
    rcases List.mem_cons.1 h with rfl | h
    · exact List.subset_append_left _ _
    · exact List.Subset.trans (ih h) (List.subset_append_right _ _)

theorem negated_of_path {body path : List BodyAtom} (h : path ∈ bodyPaths body) {template : Atom}
    (ht : .neg_fact template ∈ path) : template ∈ bodyNegated body := by
  induction body using body_induction generalizing path with
  | nil => simp only [bodyPaths, List.mem_singleton] at h; simp [h] at ht
  | or branches rest ih =>
    obtain ⟨b, hb, hpath⟩ := mem_bodyPaths_or.1 h
    have hmem := ih b hb hpath ht
    rw [bodyNegated_append, List.mem_append] at hmem
    rw [bodyNegated, List.mem_append]
    exact hmem.imp (fun h => mem_branchesNegated hb h) id
  | and conjuncts rest ih =>
    have hmem := ih (mem_bodyPaths_and.1 h) ht
    rwa [bodyNegated_append] at hmem
  | flat a rest ha ih =>
    obtain ⟨q, hq, rfl⟩ := (mem_bodyPaths_flat ha).1 h
    rw [bodyNegated, List.mem_append]
    rcases List.mem_cons.1 ht with rfl | ht
    · exact .inl (by simp [BodyAtom.negated])
    · exact .inr (ih hq ht)

/-- More facts make more bodies hold, and what `NegFact` looks into matters only
for its templates. -/
theorem AllHold.mono {I J N M : Set Fact} {σ : Assignment} {body : List BodyAtom} (hIJ : I ⊆ J)
    (hNM : ∀ template ∈ bodyNegated body, Atom.eval σ template ∈ M → Atom.eval σ template ∈ N)
    (h : AllHold I N σ body) : AllHold J M σ body := by
  obtain ⟨path, hpath, hall⟩ := allHold_iff_paths.1 h
  refine allHold_iff_paths.2 ⟨path, hpath, fun a ha => ?_⟩
  have hlit := hall a ha
  have hflat := bodyPaths_flat hpath a ha
  cases a with
  | or branches => exact hflat.elim
  | and conjuncts => exact hflat.elim
  | pred t fn => exact hlit
  | neg_fact template => exact fun hM => hlit (hNM template (negated_of_path hpath ha) hM)
  | atom a =>
    rw [BodyAtom.Holds] at hlit ⊢
    by_cases heq : is_eq a = true
    · rwa [if_pos heq] at hlit ⊢
    · rw [if_neg heq] at hlit ⊢
      by_cases hneq : is_neq a = true
      · rwa [if_pos hneq] at hlit ⊢
      · rw [if_neg hneq] at hlit ⊢
        exact hIJ hlit

/-- What a rule derives at once from the facts `I`, where `NegFact` looks into `N`. -/
def immediate_consequence (N : Set Fact) (r : ExtendedRule) : Set Fact →o Set Fact where
  toFun I := {f | ∃ σ, AllHold I N σ r.body ∧ Atom.eval σ r.head = f}
  monotone' := by
    rintro I J hIJ f ⟨σ, hbody, hhead⟩
    exact ⟨σ, hbody.mono hIJ fun _ _ h => h, hhead⟩

/-- The least set of facts that contains `edb` and the immediate consequences of
its own facts, where `NegFact` looks into `N`. -/
def least_model (N : Set Fact) (rules : List ExtendedRule) (edb : Set Fact) : Set Fact :=
  (closure edb (immediate_consequence N) {r | r ∈ rules}).lfp

theorem mem_least_model {N edb : Set Fact} {rules : List ExtendedRule} {f : Fact} :
    f ∈ least_model N rules edb ↔
      f ∈ edb ∨ ∃ r ∈ rules, ∃ σ, AllHold (least_model N rules edb) N σ r.body ∧ Atom.eval σ r.head = f := by
  have hfix : edb ∪ ⋃ r ∈ {r | r ∈ rules}, immediate_consequence N r (least_model N rules edb) =
      least_model N rules edb := (closure edb (immediate_consequence N) {r | r ∈ rules}).map_lfp
  have hmem : f ∈ least_model N rules edb ↔
      f ∈ edb ∪ ⋃ r ∈ {r | r ∈ rules}, immediate_consequence N r (least_model N rules edb) := by rw [hfix]
  rw [hmem, Set.mem_union, Set.mem_iUnion₂]
  exact or_congr Iff.rfl (exists_congr fun r => exists_prop)

/-- The predicate of an atom or a fact. -/
def Atom.predicate (a : Atom) : Option Term := a.head?

theorem eval_head? {a : Atom} {p : String} (h : Atom.predicate a = some (.str p)) (σ : Assignment) :
    (Atom.eval σ a).head? = some p := by
  cases a with
  | nil => cases h
  | cons t a =>
    simp only [Atom.predicate, List.head?_cons, Option.some.injEq] at h
    simp [Atom.eval, h]

/-- Facts whose predicate no rule derives are among those given. -/
theorem mem_edb_of_predicate {N edb : Set Fact} {rules : List ExtendedRule} {f : Fact} {p : String}
    (hf : f.head? = some p) (hheads : ∀ r ∈ rules, ∃ q, Atom.predicate r.head = some (.str q) ∧ q ≠ p) :
    f ∈ least_model N rules edb ↔ f ∈ edb := by
  refine mem_least_model.trans (or_iff_left ?_)
  rintro ⟨r, hr, σ, -, rfl⟩
  obtain ⟨q, hq, hne⟩ := hheads r hr
  rw [eval_head? hq, Option.some.injEq] at hf
  exact hne hf

section
variable {P : Pmatcher} (hP : P.FirstOrder)
include hP

/-- Where `N` has the same negated facts, a safe rule derives its immediate
consequences. -/
theorem derive_eq {N : Set Fact} {r : ExtendedRule} (hsafe : r.Safe) {facts : List Fact}
    (hN : ∀ template ∈ bodyNegated r.body, ∀ σ, Atom.eval σ template ∈ facts ↔ Atom.eval σ template ∈ N) :
    {f | f ∈ derive P r facts} = immediate_consequence N r {f | f ∈ facts} := by
  ext f
  refine (mem_derive_iff hP hsafe).trans (exists_congr fun σ => and_congr_left fun _ => ?_)
  constructor
  · exact fun h => h.mono subset_rfl fun template ht => (hN template ht σ).2
  · exact fun h => h.mono subset_rfl fun template ht => (hN template ht σ).1

theorem evaluate_positive {rules : List ExtendedRule} (hsafe : ∀ r ∈ rules, r.Safe)
    (hpositive : ∀ r ∈ rules, bodyNegated r.body = []) {edb : List Fact} {fuel : ℕ} {facts : List Fact}
    (h : evaluate_extended_naive P rules fuel edb = some facts) :
    {f | f ∈ facts} = least_model ∅ rules {f | f ∈ edb} := by
  rw [evaluate_extended_naive_eq] at h
  refine saturate_eq_lfp (fun r hr db _ _ => derive_eq hP (hsafe r hr) fun template ht => ?_) h
  rw [hpositive r hr] at ht
  cases ht

/-- Naive evaluation of safe rules without `NegFact` ends with the least model. -/
theorem evaluate_least_model {rules : List ExtendedRule} (hsafe : ∀ r ∈ rules, r.Safe)
    (hpositive : ∀ r ∈ rules, bodyNegated r.body = []) (edb : List Fact) :
    (∃ fuel facts, evaluate_extended_naive P rules fuel edb = some facts) ∧
      ∀ fuel facts, evaluate_extended_naive P rules fuel edb = some facts →
        {f | f ∈ facts} = least_model ∅ rules {f | f ∈ edb} := by
  exact ⟨evaluate_ends hP rules edb, fun fuel facts h => evaluate_positive hP hsafe hpositive h⟩

end

/-- Cells joined in either direction, and those two steps apart by way of a named one. -/
def linkedRules : List ExtendedRule := [
  rule (atom "linked" [.V "X", .V "Y"]) [
    .or [[.atom (atom "edge" [.V "X", .V "Y"])], [.atom (atom "edge" [.V "Z", .V "X"]), .atom [.str "=", .V "Y", .V "Z"]]]],
  rule (atom "linked" [.V "X", .V "Z"]) [
    .and [.atom (atom "linked" [.V "X", .V "Y"]), .atom (atom "linked" [.V "Y", .V "Z"])],
    .atom [.str "!=", .V "X", .V "Z"],
    .pred (.V "Y") fun name => name.length != 0]]

theorem linkedRules_safe : ∀ r ∈ linkedRules, r.safe = true := by decide

theorem evaluate_least_model_linked :
    (∃ fuel facts, evaluate_extended_naive firstOrder linkedRules fuel [["edge", "a", "b"]] = some facts) ∧
      ∀ fuel facts, evaluate_extended_naive firstOrder linkedRules fuel [["edge", "a", "b"]] = some facts →
        {f | f ∈ facts} = least_model ∅ linkedRules {f | f ∈ [["edge", "a", "b"]]} :=
  evaluate_least_model firstOrder_firstOrder (fun r hr => safe_of_check (linkedRules_safe r hr)) (by decide) _

end LainLang.Datalog
