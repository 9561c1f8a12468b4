import LainLang.Datalog.Reachability
import LainLang.Datalog.Staging
/-!
# Orientation programs

What the programs composed with reachability derive from topology facts: mutual
reachability and the surface of three cells. The second stage that negates `reachable`
finds the surface pairs that are not mutual.
-/
open LainLang.Lib

namespace LainLang.Datalog

/-! ## Orientation -/

/-- Both reach each other. -/
def mutualReachRule : ExtendedRule :=
  rule (atom "mutual_reach" [.V "X", .V "Y"])
    [.atom (atom "reachable" [.V "X", .V "Y"]), .atom (atom "reachable" [.V "Y", .V "X"])]

/-- Reachability and mutual reachability. -/
def topology_mutual_reach_program (strategy : ExecutionStrategy) : LogicProgram :=
  compose_programs (topology_reachability_program strategy) (program strategy [mutualReachRule]) (some strategy)

/-- The pairs of three ids, each in one direction. -/
def undirected (a b c : String) : List (String × String) := [(a, b), (a, c), (b, c)]

/-- A directed pair that is reachable. -/
def dirRule (pair : String × String) : ExtendedRule :=
  rule (atom "surface_dir" [.str pair.1, .str pair.2]) [.atom (atom "reachable" [.str pair.1, .str pair.2])]

/-- A mutual pair, in both orders. -/
def mutRules (pair : String × String) : List ExtendedRule := [
  rule (atom "surface_mutual" [.str pair.1, .str pair.2]) [.atom (atom "mutual_reach" [.str pair.1, .str pair.2])],
  rule (atom "surface_mutual" [.str pair.2, .str pair.1]) [.atom (atom "mutual_reach" [.str pair.1, .str pair.2])]]

/-- The rules of the triad: its directed pairs, then its undirected ones. -/
def surfaceRules (a b c : String) : List ExtendedRule :=
  (directed a b c).map dirRule ++ (undirected a b c).flatMap mutRules

/-- Mutual reachability, and what the triad shows of it. -/
def topology_triad_surface_program (a b c : String) (strategy : ExecutionStrategy) : LogicProgram :=
  compose_programs (topology_mutual_reach_program strategy) (program strategy (surfaceRules a b c)) (some strategy)

/-! ## They are safe and positive, and fed by what comes before -/

theorem mem_directed_iff {a b c x y : String} :
    (x, y) ∈ directed a b c ↔ (x, y) ∈ undirected a b c ∨ (y, x) ∈ undirected a b c := by
  simp only [directed, undirected, List.mem_cons, Prod.mk.injEq, List.not_mem_nil, or_false]
  tauto

theorem mem_surfaceRules {a b c : String} {r : ExtendedRule} (h : r ∈ surfaceRules a b c) :
    (∃ pair ∈ directed a b c, r = dirRule pair) ∨ ∃ x y, (x, y) ∈ undirected a b c ∧
      r.body = [.atom (atom "mutual_reach" [.str x, .str y])] ∧
        (r.head = atom "surface_mutual" [.str x, .str y] ∨ r.head = atom "surface_mutual" [.str y, .str x]) := by
  rcases List.mem_append.1 h with h | h
  · obtain ⟨pair, hpair, rfl⟩ := List.mem_map.1 h
    exact .inl ⟨pair, hpair, rfl⟩
  · obtain ⟨⟨x, y⟩, hpair, hr⟩ := List.mem_flatMap.1 h
    simp only [mutRules, List.mem_cons, List.not_mem_nil, or_false] at hr
    rcases hr with rfl | rfl
    · exact .inr ⟨x, y, hpair, rfl, .inl rfl⟩
    · exact .inr ⟨x, y, hpair, rfl, .inr rfl⟩

/-- Rules whose heads have no variables, with one atom in their bodies. -/
theorem ground_rule_safe (p q : String) (hp : p ≠ "!=") (x y u v : String) :
    (rule (atom q [.str x, .str y]) [.atom (atom p [.str u, .str v])]).Safe := by
  apply safe_of_check
  simp [ExtendedRule.safe, rule, atom, bodyPaths, BodyAtom.paths, safePath, Atom.variables, BodyAtom.guarded, is_neq, hp]

theorem surfaceRules_safe (a b c : String) : ∀ r ∈ surfaceRules a b c, r.Safe := by
  intro r hr
  rcases List.mem_append.1 hr with hr | hr
  · obtain ⟨pair, -, rfl⟩ := List.mem_map.1 hr
    exact ground_rule_safe "reachable" _ (by decide) _ _ _ _
  · obtain ⟨pair, -, hr⟩ := List.mem_flatMap.1 hr
    simp only [mutRules, List.mem_cons, List.not_mem_nil, or_false] at hr
    rcases hr with rfl | rfl
    · exact ground_rule_safe "mutual_reach" _ (by decide) _ _ _ _
    · exact ground_rule_safe "mutual_reach" _ (by decide) _ _ _ _

theorem surfaceRules_positive (a b c : String) : ∀ r ∈ surfaceRules a b c, bodyNegated r.body = [] := by
  intro r hr
  rcases mem_surfaceRules hr with ⟨pair, -, rfl⟩ | ⟨x, y, -, hbody, -⟩
  · rfl
  · rw [hbody]
    rfl

theorem mutualRules_checked : ∀ r ∈ [flowsToRule, reachableRule, reachableStepRule, mutualReachRule],
    r.safe = true ∧ bodyNegated r.body = [] := by decide

theorem rules_mutual (strategy : ExecutionStrategy) : (topology_mutual_reach_program strategy).rules =
    [flowsToRule, reachableRule, reachableStepRule] ++ [mutualReachRule] := rfl

theorem rules_triad (a b c : String) (strategy : ExecutionStrategy) : (topology_triad_surface_program a b c strategy).rules =
    [flowsToRule, reachableRule, reachableStepRule] ++ [mutualReachRule] ++ surfaceRules a b c := rfl

/-- No rule before them looks for what the surface rules derive, nor do they. -/
theorem surface_noFeedback {first : List ExtendedRule} (a b c : String)
    (h : ∀ r ∈ first, ∀ l ∈ bodyLookups r.body, ∃ p, Atom.predicate l = some (.str p) ∧ p ≠ "surface_dir" ∧ p ≠ "surface_mutual") :
    NoFeedback first (surfaceRules a b c) := by
  intro r hr l hl q hq
  obtain ⟨p, hp, hdir, hmut⟩ := h r hr l hl
  rcases mem_surfaceRules hq with ⟨pair, -, rfl⟩ | ⟨x, y, -, -, hhead⟩
  · exact ⟨p, "surface_dir", hp, rfl, hdir.symm⟩
  · refine ⟨p, "surface_mutual", hp, ?_, hmut.symm⟩
    rcases hhead with hhead | hhead <;> rw [hhead] <;> rfl

theorem lookups_surface {a b c : String} {r : ExtendedRule} (hr : r ∈ surfaceRules a b c) {l : Atom}
    (hl : l ∈ bodyLookups r.body) :
    ∃ p, Atom.predicate l = some (.str p) ∧ p ≠ "surface_dir" ∧ p ≠ "surface_mutual" := by
  rcases mem_surfaceRules hr with ⟨pair, -, rfl⟩ | ⟨x, y, -, hbody, -⟩
  · have hl' : l = atom "reachable" [.str pair.1, .str pair.2] := by
      simpa [dirRule, rule, bodyLookups, BodyAtom.lookups, is_eq, is_neq, atom] using hl
    exact ⟨"reachable", by rw [hl']; rfl, by decide, by decide⟩
  · rw [hbody] at hl
    have hl' : l = atom "mutual_reach" [.str x, .str y] := by
      simpa [bodyLookups, BodyAtom.lookups, is_eq, is_neq, atom] using hl
    exact ⟨"mutual_reach", by rw [hl']; rfl, by decide, by decide⟩

/-- Whether the predicate of an atom is a name among those that no surface rule derives. -/
def notSurface (l : Atom) : Bool :=
  match Atom.predicate l with
  | some (.str p) => p != "surface_dir" && p != "surface_mutual"
  | _ => false

theorem of_notSurface {l : Atom} (h : notSurface l = true) :
    ∃ p, Atom.predicate l = some (.str p) ∧ p ≠ "surface_dir" ∧ p ≠ "surface_mutual" := by
  unfold notSurface at h
  split at h
  · rename_i p hp
    exact ⟨p, hp, by simpa using h⟩
  · cases h

theorem mutual_notSurface : ∀ r ∈ [flowsToRule, reachableRule, reachableStepRule] ++ [mutualReachRule],
    ∀ l ∈ bodyLookups r.body, notSurface l = true := by decide

theorem triad_noFeedback (a b c : String) :
    NoFeedback ([flowsToRule, reachableRule, reachableStepRule] ++ [mutualReachRule]) (surfaceRules a b c) :=
  surface_noFeedback a b c fun r hr l hl => of_notSurface (mutual_notSurface r hr l hl)

theorem mutual_noFeedback : NoFeedback [flowsToRule, reachableRule, reachableStepRule] [mutualReachRule] :=
  noFeedback_of_check (by decide)

theorem mutual_once : NoFeedback [mutualReachRule] [mutualReachRule] := noFeedback_of_check (by decide)

/-! ## What they derive -/

section
variable {facts : List Fact}

/-- The model of the mutual program. -/
def mutualModel (facts : List Fact) : Set Fact :=
  {f | f ∈ flowModel facts ∨ ∃ x y, f = ["mutual_reach", x, y] ∧ Relation.TransGen (Flows facts) x y ∧
    Relation.TransGen (Flows facts) y x}

theorem body_mutualReach {I N : Set Fact} {σ : Assignment} :
    AllHold I N σ mutualReachRule.body ↔ ["reachable", σ "X", σ "Y"] ∈ I ∧ ["reachable", σ "Y", σ "X"] ∈ I := by
  simp only [mutualReachRule, rule, AllHold, and_true]
  rw [holds_atom (by decide) (by decide), holds_atom (by decide) (by decide)]
  rfl

theorem least_model_mutual (hfacts : WellFormed facts) :
    least_model ∅ ([flowsToRule, reachableRule, reachableStepRule] ++ [mutualReachRule]) {f | f ∈ facts} = mutualModel facts := by
  rw [least_model_stages mutual_noFeedback, least_model_flows hfacts.tagged]
  ext f
  refine (mem_least_model_once mutual_once).trans (or_congr Iff.rfl ?_)
  simp only [List.mem_singleton, exists_eq_left, body_mutualReach, flowModel_reachable hfacts.tagged]
  constructor
  · rintro ⟨σ, hreach, rfl⟩
    exact ⟨σ "X", σ "Y", rfl, hreach⟩
  · rintro ⟨x, y, rfl, hreach⟩
    exact ⟨fun v => if v = "X" then x else y, hreach, rfl⟩

/-- A predicate of the mutual program's rules, or of the facts. -/
theorem mutualModel_reachable (hfacts : WellFormed facts) {x y : String} :
    ["reachable", x, y] ∈ mutualModel facts ↔ Relation.TransGen (Flows facts) x y := by
  simp [mutualModel, flowModel_reachable hfacts.tagged]

theorem mutualModel_mutual (hfacts : WellFormed facts) {x y : String} : ["mutual_reach", x, y] ∈ mutualModel facts ↔
    Relation.TransGen (Flows facts) x y ∧ Relation.TransGen (Flows facts) y x := by
  have hnot : ["mutual_reach", x, y] ∉ flowModel facts := by
    rw [flowModel_edb (by decide) (by decide)]
    exact hfacts.tagged.no_predicate (by decide)
  rw [mutualModel, Set.mem_ofPred_eq, or_iff_right hnot]
  simp

theorem mutualModel_no_surface (hfacts : WellFormed facts) {pred : String} (hpred : pred ∉ topologyTags)
    (hflows : pred ≠ "flows_to") (hreach : pred ≠ "reachable") (hmutual : pred ≠ "mutual_reach") (args : List String) :
    pred :: args ∉ mutualModel facts := by
  rintro (h | ⟨x, y, heq, -⟩)
  · exact hfacts.tagged.no_predicate hpred ((flowModel_edb hflows hreach).1 h)
  · exact hmutual (List.cons.inj heq).1

/-- The surface facts are those of the pairs, directed and mutual. -/
theorem least_model_surface (hfacts : WellFormed facts) (a b c x y : String) :
    (["surface_dir", x, y] ∈ least_model ∅ ([flowsToRule, reachableRule, reachableStepRule] ++ [mutualReachRule] ++
        surfaceRules a b c) {f | f ∈ facts} ↔ (x, y) ∈ directed a b c ∧ Relation.TransGen (Flows facts) x y) ∧
      (["surface_mutual", x, y] ∈ least_model ∅ ([flowsToRule, reachableRule, reachableStepRule] ++ [mutualReachRule] ++
        surfaceRules a b c) {f | f ∈ facts} ↔
          (x, y) ∈ directed a b c ∧ Relation.TransGen (Flows facts) x y ∧ Relation.TransGen (Flows facts) y x) := by
  have honce : NoFeedback (surfaceRules a b c) (surfaceRules a b c) :=
    surface_noFeedback a b c fun r hr l hl => lookups_surface hr hl
  rw [least_model_stages (triad_noFeedback a b c), least_model_mutual hfacts]
  simp only [mem_least_model_once honce]
  have hdir : ∀ pair (σ : Assignment), AllHold (mutualModel facts) ∅ σ (dirRule pair).body ↔
      Relation.TransGen (Flows facts) pair.1 pair.2 := by
    intro pair σ
    simp only [dirRule, rule, AllHold, and_true]
    rw [holds_atom (by decide) (by decide), ← mutualModel_reachable hfacts]
    rfl
  have hmut : ∀ u v (σ : Assignment), AllHold (mutualModel facts) ∅ σ [.atom (atom "mutual_reach" [.str u, .str v])] ↔
      Relation.TransGen (Flows facts) u v ∧ Relation.TransGen (Flows facts) v u := by
    intro u v σ
    simp only [AllHold, and_true]
    rw [holds_atom (by decide) (by decide), ← mutualModel_mutual hfacts]
    rfl
  constructor
  · rw [or_iff_right (mutualModel_no_surface hfacts (by decide) (by decide) (by decide) (by decide) _)]
    constructor
    · rintro ⟨r, hr, σ, hbody, hhead⟩
      rcases mem_surfaceRules hr with ⟨pair, hpair, rfl⟩ | ⟨u, v, -, -, hsurface | hsurface⟩
      · have heq : ["surface_dir", pair.1, pair.2] = ["surface_dir", x, y] := hhead
        simp only [List.cons.injEq, and_true, true_and] at heq
        obtain ⟨rfl, rfl⟩ := heq
        exact ⟨hpair, (hdir pair σ).1 hbody⟩
      · rw [hsurface] at hhead
        have hpred : "surface_mutual" = "surface_dir" := (List.cons.inj hhead).1
        exact absurd hpred (by decide)
      · rw [hsurface] at hhead
        have hpred : "surface_mutual" = "surface_dir" := (List.cons.inj hhead).1
        exact absurd hpred (by decide)
    · rintro ⟨hpair, hreach⟩
      exact ⟨dirRule (x, y), List.mem_append_left _ (List.mem_map_of_mem hpair), fun _ => "", (hdir (x, y) _).2 hreach, rfl⟩
  · rw [or_iff_right (mutualModel_no_surface hfacts (by decide) (by decide) (by decide) (by decide) _)]
    constructor
    · rintro ⟨r, hr, σ, hbody, hhead⟩
      rcases mem_surfaceRules hr with ⟨pair, hpair, rfl⟩ | ⟨u, v, hpair, hr, hsurface⟩
      · have hpred : "surface_dir" = "surface_mutual" := (List.cons.inj hhead).1
        exact absurd hpred (by decide)
      · rw [hr] at hbody
        obtain ⟨huv, hvu⟩ := (hmut u v σ).1 hbody
        rcases hsurface with hsurface | hsurface
        · rw [hsurface] at hhead
          have heq : ["surface_mutual", u, v] = ["surface_mutual", x, y] := hhead
          simp only [List.cons.injEq, and_true, true_and] at heq
          obtain ⟨rfl, rfl⟩ := heq
          exact ⟨mem_directed_iff.2 (.inl hpair), huv, hvu⟩
        · rw [hsurface] at hhead
          have heq : ["surface_mutual", v, u] = ["surface_mutual", x, y] := hhead
          simp only [List.cons.injEq, and_true, true_and] at heq
          obtain ⟨rfl, rfl⟩ := heq
          exact ⟨mem_directed_iff.2 (.inr hpair), hvu, huv⟩
    · rintro ⟨hpair, hxy, hyx⟩
      rcases mem_directed_iff.1 hpair with hpair | hpair
      · refine ⟨rule (atom "surface_mutual" [.str x, .str y]) [.atom (atom "mutual_reach" [.str x, .str y])],
          List.mem_append_right _ (List.mem_flatMap.2 ⟨(x, y), hpair, by simp [mutRules]⟩), fun _ => "", ?_, rfl⟩
        exact (hmut x y _).2 ⟨hxy, hyx⟩
      · refine ⟨rule (atom "surface_mutual" [.str x, .str y]) [.atom (atom "mutual_reach" [.str y, .str x])],
          List.mem_append_right _ (List.mem_flatMap.2 ⟨(y, x), hpair, by simp [mutRules]⟩), fun _ => "", ?_, rfl⟩
        exact (hmut y x _).2 ⟨hyx, hxy⟩

end

/-! ## The programs -/

section
variable {P : Pmatcher} (hP : P.FirstOrder) {engines : MiniDatalog} (hE : engines.Correct P) {facts : List Fact}
  (hfacts : WellFormed facts)
include hP hE hfacts

theorem mutual_program_model {strategy : ExecutionStrategy} {fuel : ℕ} {closed : List Fact}
    (h : evaluate_program P engines fuel (topology_mutual_reach_program strategy) facts = some closed) (f : Fact) :
    f ∈ closed ↔ f ∈ mutualModel facts := by
  have hsafe : ∀ r ∈ (topology_mutual_reach_program strategy).rules, r.Safe := fun r hr =>
    safe_of_check (mutualRules_checked r hr).1
  rw [evaluate_program_model hP hE hsafe (fun r hr => (mutualRules_checked r hr).2) h f, rules_mutual,
    least_model_mutual hfacts]

/-- The programs end, and say the same of the surface of three cells: the second stage,
which looks for what is not reachable, finds the directed pairs that are not mutual. -/
theorem orientation_programs_agree (a b c : String) (strategy : ExecutionStrategy) :
    (∃ fuel surface, evaluate_program P engines fuel (topology_triad_surface_program a b c strategy) facts = some surface) ∧
    (∃ fuel closed, evaluate_program P engines fuel (topology_mutual_reach_program strategy) facts = some closed) ∧
    ∀ fuel surface fuel' closed,
      evaluate_program P engines fuel (topology_triad_surface_program a b c strategy) facts = some surface →
      evaluate_program P engines fuel' (topology_mutual_reach_program strategy) facts = some closed →
      (∃ fuel oneWay, evaluate_program P engines fuel (topology_triad_one_way_surface_program a b c strategy) closed = some oneWay) ∧
      ∀ fuel oneWay, evaluate_program P engines fuel (topology_triad_one_way_surface_program a b c strategy) closed = some oneWay →
        ∀ x y, (x, y) ∈ directed a b c → x ≠ y →
          (["surface_dir", x, y] ∈ surface ↔ Relation.TransGen (Flows facts) x y) ∧
          (["surface_mutual", x, y] ∈ surface ↔ ["mutual_reach", x, y] ∈ closed) ∧
          (["mutual_reach", x, y] ∈ closed ↔ ["surface_dir", x, y] ∈ surface ∧ ["surface_dir", y, x] ∈ surface) ∧
          (["surface_one_way", x, y] ∈ oneWay ↔ ["surface_dir", x, y] ∈ surface ∧ ["surface_mutual", x, y] ∉ surface) := by
  refine ⟨evaluate_program_ends hP engines _ facts, evaluate_program_ends hP engines _ facts,
    fun fuel surface fuel' closed hsurface hclosed => ⟨evaluate_program_ends hP engines _ closed,
      fun fuel'' oneWay honeWay x y hxy hne => ?_⟩⟩
  have hsafe : ∀ r ∈ (topology_triad_surface_program a b c strategy).rules, r.Safe ∧ bodyNegated r.body = [] := by
    intro r hr
    rw [rules_triad] at hr
    rcases List.mem_append.1 hr with hr | hr
    · exact ⟨safe_of_check (mutualRules_checked r hr).1, (mutualRules_checked r hr).2⟩
    · exact ⟨surfaceRules_safe a b c r hr, surfaceRules_positive a b c r hr⟩
  have hmem := evaluate_program_model hP hE (fun r hr => (hsafe r hr).1) (fun r hr => (hsafe r hr).2) hsurface
  have hmutual := mutual_program_model hP hE hfacts hclosed
  have hyx : (y, x) ∈ directed a b c := mem_directed_iff.2 (mem_directed_iff.1 hxy).symm
  have hends : ∀ {u v}, (u, v) ∈ directed a b c → u ∈ [a, b, c] := by
    intro u v huv
    simp only [directed, List.mem_cons, Prod.mk.injEq, List.not_mem_nil, or_false] at huv ⊢
    tauto
  obtain ⟨hdir, hmut⟩ := least_model_surface hfacts a b c x y
  have hdir' := (least_model_surface hfacts a b c y x).1
  rw [and_iff_right hxy] at hdir hmut
  rw [and_iff_right hyx] at hdir'
  have hnone : ["surface_one_way", x, y] ∉ closed := by
    rw [hmutual]
    exact mutualModel_no_surface hfacts (by decide) (by decide) (by decide) (by decide) _
  rw [evaluate_oneWay] at honeWay
  have hone := oneWay_iff hP (hends hxy) (hends hyx) hne honeWay
  rw [or_iff_right hnone, hmutual, hmutual, mutualModel_reachable hfacts, mutualModel_reachable hfacts] at hone
  rw [hone, hmutual, mutualModel_mutual hfacts, hmem, hmem, hmem, rules_triad, hdir, hdir', hmut]
  refine ⟨Iff.rfl, Iff.rfl, Iff.rfl, ?_⟩
  constructor
  · rintro ⟨hreach, hnot⟩
    exact ⟨hreach, fun hboth => hnot hboth.2⟩
  · rintro ⟨hreach, hnot⟩
    exact ⟨hreach, fun hback => hnot ⟨hreach, hback⟩⟩

end

theorem orientation_programs_agree_pair :
    ∃ surface closed oneWay,
      (∃ fuel, evaluate_program firstOrder naiveEngines fuel (topology_triad_surface_program "a" "b" "c" .semi_naive) pairFacts =
        some surface) ∧
      (∃ fuel, evaluate_program firstOrder naiveEngines fuel (topology_mutual_reach_program .semi_naive) pairFacts = some closed) ∧
      (∃ fuel, evaluate_program firstOrder naiveEngines fuel (topology_triad_one_way_surface_program "a" "b" "c" .semi_naive)
        closed = some oneWay) ∧
      (["surface_one_way", "a", "b"] ∈ oneWay ↔
        ["surface_dir", "a", "b"] ∈ surface ∧ ["surface_mutual", "a", "b"] ∉ surface) := by
  obtain ⟨⟨fuel, surface, hsurface⟩, ⟨fuel', closed, hclosed⟩, hagree⟩ :=
    orientation_programs_agree firstOrder_firstOrder naiveEngines_correct pairFacts_wellFormed "a" "b" "c" .semi_naive
  obtain ⟨⟨fuel'', oneWay, honeWay⟩, hall⟩ := hagree fuel surface fuel' closed hsurface hclosed
  obtain ⟨-, -, -, hone⟩ := hall fuel'' oneWay honeWay "a" "b" (by decide) (by decide)
  exact ⟨surface, closed, oneWay, ⟨fuel, hsurface⟩, ⟨fuel', hclosed⟩, ⟨fuel'', honeWay⟩, hone⟩

end LainLang.Datalog
