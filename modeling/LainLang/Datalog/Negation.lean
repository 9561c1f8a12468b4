import LainLang.Datalog.TopologyPrograms
/-!
# Negation of what no rule derives

Where no head has a predicate that occurs under `NegFact`, the facts that
`NegFact` looks for are there from the start or never, so neither the order of
the rules nor that of the facts matters.
-/
open LainLang.Lib

namespace LainLang.Datalog

/-- No head has a predicate that occurs under `NegFact`. -/
def NegatesOnlyEdb (rules : List ExtendedRule) : Prop :=
  ∀ r ∈ rules, ∀ q ∈ rules, ∀ template ∈ bodyNegated q.body,
    ∃ p p', Atom.predicate r.head = some (.str p) ∧ Atom.predicate template = some (.str p') ∧ p ≠ p'

/-- The model that reads `NegFact` as absence from the facts given. -/
def perfect_model (rules : List ExtendedRule) (edb : Set Fact) : Set Fact := least_model edb rules edb

theorem least_model_congr {N edb edb' : Set Fact} {rules rules' : List ExtendedRule} (hrules : ∀ r, r ∈ rules' ↔ r ∈ rules)
    (hedb : edb' = edb) : least_model N rules' edb' = least_model N rules edb := by
  have hset : {r | r ∈ rules'} = {r | r ∈ rules} := Set.ext hrules
  rw [least_model, least_model, hedb, hset]

section
variable {P : Pmatcher} (hP : P.FirstOrder)
include hP

theorem evaluate_perfect_model {rules : List ExtendedRule} (hsafe : ∀ r ∈ rules, r.Safe) (hneg : NegatesOnlyEdb rules)
    {edb : List Fact} {fuel : ℕ} {facts : List Fact} (h : evaluate_extended_naive P rules fuel edb = some facts) :
    {f | f ∈ facts} = perfect_model rules {f | f ∈ edb} := by
  rw [evaluate_extended_naive_eq] at h
  refine saturate_eq_lfp (fun q hq db hsub hmodel => derive_eq hP (hsafe q hq) fun template ht σ => ?_) h
  constructor
  · intro hdb
    -- A negated fact of the model was not derived.
    rcases hhead : rules with _ | ⟨r, rules'⟩
    · rw [hhead] at hq
      cases hq
    · obtain ⟨-, p', -, hp', -⟩ := hneg r (by simp [hhead]) q hq template ht
      refine (mem_edb_of_predicate (eval_head? hp' σ) fun r hr => ?_).1 (hmodel hdb)
      obtain ⟨p, p'', hp, hp'', hne⟩ := hneg r hr q hq template ht
      rw [hp', Option.some.injEq, Term.str.injEq] at hp''
      exact ⟨p, hp, hp'' ▸ hne⟩
  · exact fun hedb => hsub hedb

/-- The rules in any order on the facts in any order. -/
theorem evaluate_any_order {rules : List ExtendedRule} (hsafe : ∀ r ∈ rules, r.Safe) (hneg : NegatesOnlyEdb rules)
    {edb : List Fact} {rules' : List ExtendedRule} (hrules : rules'.Perm rules) {edb' : List Fact} (hedb : edb'.Perm edb)
    {fuel : ℕ} {facts : List Fact} (h : evaluate_extended_naive P rules' fuel edb' = some facts) :
    {f | f ∈ facts} = perfect_model rules {f | f ∈ edb} := by
  have hsub : ∀ r ∈ rules', r ∈ rules := fun r => hrules.mem_iff.1
  have hset : {f | f ∈ edb'} = {f | f ∈ edb} := Set.ext fun f => hedb.mem_iff
  rw [evaluate_perfect_model hP (fun r hr => hsafe r (hsub r hr)) (fun r hr q hq => hneg r (hsub r hr) q (hsub q hq)) h,
    perfect_model, hset]
  exact least_model_congr (fun r => hrules.mem_iff) rfl

end

/-! ## One way between three cells -/

theorem oneWay_negates_edb (a b c : String) : NegatesOnlyEdb ((directed a b c).map oneWayRule) := by
  intro r hr q hq template ht
  obtain ⟨pair, -, rfl⟩ := List.mem_map.1 hr
  obtain ⟨pair', -, rfl⟩ := List.mem_map.1 hq
  refine ⟨"surface_one_way", "reachable", rfl, ?_, by decide⟩
  simp only [oneWayRule, rule, NegFact, bodyNegated, BodyAtom.negated, List.nil_append, List.append_nil,
    List.mem_singleton] at ht
  rw [ht]
  rfl

section
variable {P : Pmatcher} (hP : P.FirstOrder)
include hP

/-- The second stage adds `surface_one_way(x, y)` if and only if `reachable(x, y)`
was there and `reachable(y, x)` was not. -/
theorem oneWay_iff {a b c x y : String} (hx : x ∈ [a, b, c]) (hy : y ∈ [a, b, c]) (hxy : x ≠ y) {closed : List Fact}
    {fuel : ℕ} {facts : List Fact} (h : evaluate_extended_naive P ((directed a b c).map oneWayRule) fuel closed = some facts) :
    ["surface_one_way", x, y] ∈ facts ↔
      ["surface_one_way", x, y] ∈ closed ∨ ["reachable", x, y] ∈ closed ∧ ["reachable", y, x] ∉ closed := by
  have hsafe : ∀ r ∈ (directed a b c).map oneWayRule, r.Safe := fun r hr => by
    obtain ⟨pair, -, rfl⟩ := List.mem_map.1 hr
    exact oneWayRule_safe pair
  have hmodel := evaluate_perfect_model hP hsafe (oneWay_negates_edb a b c) h
  have hmem : ∀ f, f ∈ facts ↔ f ∈ perfect_model ((directed a b c).map oneWayRule) {f | f ∈ closed} := fun f =>
    Set.ext_iff.1 hmodel f
  have hreachable : ∀ u v, ["reachable", u, v] ∈ perfect_model ((directed a b c).map oneWayRule) {f | f ∈ closed} ↔
      ["reachable", u, v] ∈ closed := fun u v => mem_edb_of_predicate rfl fun r hr => by
    obtain ⟨pair, -, rfl⟩ := List.mem_map.1 hr
    exact ⟨"surface_one_way", rfl, by decide⟩
  have hbody : ∀ σ pair, AllHold (perfect_model ((directed a b c).map oneWayRule) {f | f ∈ closed}) {f | f ∈ closed} σ
      (oneWayRule pair).body ↔ ["reachable", pair.1, pair.2] ∈ closed ∧ ["reachable", pair.2, pair.1] ∉ closed := by
    intro σ pair
    rw [← hreachable pair.1 pair.2]
    simp only [oneWayRule, rule, NegFact, AllHold, and_true]
    rw [holds_atom (by decide) (by decide)]
    rfl
  rw [hmem, perfect_model, mem_least_model]
  refine or_congr Iff.rfl ⟨?_, ?_⟩
  · rintro ⟨r, hr, σ, hall, hhead⟩
    obtain ⟨pair, -, rfl⟩ := List.mem_map.1 hr
    have heq : ["surface_one_way", pair.1, pair.2] = ["surface_one_way", x, y] := hhead
    simp only [List.cons.injEq, and_true, true_and] at heq
    obtain ⟨rfl, rfl⟩ := heq
    exact (hbody σ pair).1 hall
  · intro hone
    exact ⟨oneWayRule (x, y), List.mem_map_of_mem (mem_directed hx hy hxy), fun _ => "", (hbody _ (x, y)).2 hone, rfl⟩

/-- Reachability derives no `surface_one_way`. -/
theorem oneWay_closed {edb : List Fact} {fuel : ℕ} {closed : List Fact}
    (h : evaluate_extended_naive P [flowsToRule, reachableRule, reachableStepRule] fuel edb = some closed) (x y : String) :
    ["surface_one_way", x, y] ∈ closed ↔ ["surface_one_way", x, y] ∈ edb := by
  have hmodel := evaluate_positive hP (reachability_safe .incremental) (reachability_positive .incremental) h
  refine (Set.ext_iff.1 hmodel _).trans (mem_edb_of_predicate rfl fun r hr => ?_)
  simp only [topology_reachability_program, program, List.mem_cons, List.not_mem_nil, or_false] at hr
  rcases hr with rfl | rfl | rfl
  · exact ⟨"flows_to", rfl, by decide⟩
  · exact ⟨"reachable", rfl, by decide⟩
  · exact ⟨"reachable", rfl, by decide⟩

/-- Negation does not depend on the order of rules and facts, and the triad's
second stage finds what is reachable one way only. -/
theorem negation_order_independent (engines : MiniDatalog) :
    (∀ rules : List ExtendedRule, (∀ r ∈ rules, r.Safe) → NegatesOnlyEdb rules → ∀ (edb : List Fact) rules' edb',
      rules'.Perm rules → edb'.Perm edb →
        (∃ fuel facts, evaluate_extended_naive P rules' fuel edb' = some facts) ∧
          ∀ fuel facts, evaluate_extended_naive P rules' fuel edb' = some facts →
            {f | f ∈ facts} = perfect_model rules {f | f ∈ edb}) ∧
    ∀ (edb : List Fact) a b c strategy,
      (∃ fuel closed, evaluate_program P engines fuel (topology_reachability_program .incremental) edb = some closed) ∧
      ∀ fuel closed, evaluate_program P engines fuel (topology_reachability_program .incremental) edb = some closed →
        (∃ fuel facts, evaluate_program P engines fuel (topology_triad_one_way_surface_program a b c strategy) closed = some facts) ∧
        ∀ fuel facts, evaluate_program P engines fuel (topology_triad_one_way_surface_program a b c strategy) closed = some facts →
          ∀ x ∈ [a, b, c], ∀ y ∈ [a, b, c], x ≠ y → (["surface_one_way", x, y] ∈ facts ↔
            ["surface_one_way", x, y] ∈ edb ∨ ["reachable", x, y] ∈ closed ∧ ["reachable", y, x] ∉ closed) := by
  constructor
  · intro rules hsafe hneg edb rules' edb' hrules hedb
    exact ⟨evaluate_ends hP rules' edb', fun fuel facts h => evaluate_any_order hP hsafe hneg hrules hedb h⟩
  · intro edb a b c strategy
    simp only [evaluate_reachability, evaluate_oneWay]
    refine ⟨evaluate_ends hP _ edb, fun fuel closed hclosed => ⟨evaluate_ends hP _ closed, fun fuel' facts h => ?_⟩⟩
    intro x hx y hy hxy
    rw [oneWay_iff hP hx hy hxy h, oneWay_closed hP hclosed]

end

/-- Engines that compute the least model, as MiniDatalog's do. -/
noncomputable def naiveEngines : MiniDatalog where
  semi_naive_datalog rules edb := (evaluate_ends firstOrder_firstOrder rules edb).choose_spec.choose
  naive_datalog rules edb := (evaluate_ends firstOrder_firstOrder rules edb).choose_spec.choose

/-- `p` flows to `b` from `a`, so `surface_one_way(a, b)` is found and its converse is not. -/
theorem negation_order_independent_triad :
    (∀ fuel facts,
      evaluate_extended_naive firstOrder ((directed "a" "b" "c").map oneWayRule).reverse fuel [["reachable", "a", "b"]] = some facts →
        {f | f ∈ facts} = perfect_model ((directed "a" "b" "c").map oneWayRule) {f | f ∈ [["reachable", "a", "b"]]}) ∧
    ∃ fuel closed fuel' facts,
      evaluate_program firstOrder naiveEngines fuel (topology_reachability_program .incremental)
        [["reads", "p", "a"], ["writes", "p", "b"]] = some closed ∧
      evaluate_program firstOrder naiveEngines fuel' (topology_triad_one_way_surface_program "a" "b" "c" .naive) closed =
        some facts ∧
      (["surface_one_way", "a", "b"] ∈ facts ↔ ["surface_one_way", "a", "b"] ∈ [["reads", "p", "a"], ["writes", "p", "b"]] ∨
        ["reachable", "a", "b"] ∈ closed ∧ ["reachable", "b", "a"] ∉ closed) := by
  obtain ⟨horder, htriad⟩ := negation_order_independent firstOrder_firstOrder naiveEngines
  have hsafe : ∀ r ∈ (directed "a" "b" "c").map oneWayRule, r.Safe := fun r hr => by
    obtain ⟨pair, -, rfl⟩ := List.mem_map.1 hr
    exact oneWayRule_safe pair
  refine ⟨(horder _ hsafe (oneWay_negates_edb "a" "b" "c") [["reachable", "a", "b"]] _ _ (List.reverse_perm _) (.refl _)).2, ?_⟩
  obtain ⟨⟨fuel, closed, hclosed⟩, hrun⟩ := htriad [["reads", "p", "a"], ["writes", "p", "b"]] "a" "b" "c" .naive
  obtain ⟨⟨fuel', facts, hfacts⟩, hone⟩ := hrun fuel closed hclosed
  exact ⟨fuel, closed, fuel', facts, hclosed, hfacts, hone fuel' facts hfacts "a" (by decide) "b" (by decide) (by decide)⟩

end LainLang.Datalog
