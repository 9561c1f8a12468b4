import LainLang.Datalog.Propagator
/-!
# Programs in stages

`compose_programs` puts the rules of two programs together. If no rule of the first
looks for what the second derives, the composed program derives what the second
derives from the facts of the first. A program that looks for nothing it derives is
done after one step.
-/
open LainLang.Lib

namespace LainLang.Datalog

/-- `strategy` is that of the first program if none is given. -/
def compose_programs (a b : LogicProgram) (strategy : Option ExecutionStrategy) : LogicProgram :=
  { rules := a.rules ++ b.rules, strategy := strategy.getD a.strategy }

/-! ## What a body looks for -/

mutual

/-- The atoms a literal looks for among the facts. -/
def BodyAtom.lookups : BodyAtom → List Atom
  | .atom a => if is_eq a || is_neq a then [] else [a]
  | .or branches => branchesLookups branches
  | .and conjuncts => bodyLookups conjuncts
  | _ => []

/-- The atoms a body looks up. -/
def bodyLookups : List BodyAtom → List Atom
  | [] => []
  | a :: as => a.lookups ++ bodyLookups as

/-- The atoms the branches look up. -/
def branchesLookups : List (List BodyAtom) → List Atom
  | [] => []
  | b :: bs => bodyLookups b ++ branchesLookups bs

end

theorem bodyLookups_append (as bs : List BodyAtom) : bodyLookups (as ++ bs) = bodyLookups as ++ bodyLookups bs := by
  induction as with
  | nil => rfl
  | cons a as ih => simp [bodyLookups, ih]

theorem mem_branchesLookups {b : List BodyAtom} {branches : List (List BodyAtom)} (h : b ∈ branches) :
    bodyLookups b ⊆ branchesLookups branches := by
  induction branches with
  | nil => cases h
  | cons c branches ih =>
    rcases List.mem_cons.1 h with rfl | h
    · exact List.subset_append_left _ _
    · exact List.Subset.trans (ih h) (List.subset_append_right _ _)

theorem lookup_of_path {body path : List BodyAtom} (h : path ∈ bodyPaths body) {a : Atom} (ha : .atom a ∈ path)
    (heq : is_eq a = false) (hneq : is_neq a = false) : a ∈ bodyLookups body := by
  induction body using body_induction generalizing path with
  | nil => simp only [bodyPaths, List.mem_singleton] at h; simp [h] at ha
  | or branches rest ih =>
    obtain ⟨b, hb, hpath⟩ := mem_bodyPaths_or.1 h
    have hmem := ih b hb hpath ha
    rw [bodyLookups_append, List.mem_append] at hmem
    rw [bodyLookups, List.mem_append]
    exact hmem.imp (fun h => mem_branchesLookups hb h) id
  | and conjuncts rest ih =>
    have hmem := ih (mem_bodyPaths_and.1 h) ha
    rwa [bodyLookups_append] at hmem
  | flat a' rest ha' ih =>
    obtain ⟨q, hq, rfl⟩ := (mem_bodyPaths_flat ha').1 h
    rw [bodyLookups, List.mem_append]
    rcases List.mem_cons.1 ha with rfl | ha
    · exact .inl (by simp [BodyAtom.lookups, heq, hneq])
    · exact .inr (ih hq ha)

/-- A body holds as well where the facts it looks for are the same. -/
theorem AllHold.of_lookups {I J N : Set Fact} {σ : Assignment} {body : List BodyAtom} (h : AllHold I N σ body)
    (hIJ : ∀ a ∈ bodyLookups body, Atom.eval σ a ∈ I → Atom.eval σ a ∈ J) : AllHold J N σ body := by
  obtain ⟨path, hpath, hall⟩ := allHold_iff_paths.1 h
  refine allHold_iff_paths.2 ⟨path, hpath, fun b hb => ?_⟩
  have hlit := hall b hb
  have hflat := bodyPaths_flat hpath b hb
  cases b with
  | or branches => exact hflat.elim
  | and conjuncts => exact hflat.elim
  | pred t fn => exact hlit
  | neg_fact template => exact hlit
  | atom a =>
    rw [BodyAtom.Holds] at hlit ⊢
    by_cases heq : is_eq a = true
    · rwa [if_pos heq] at hlit ⊢
    · rw [if_neg heq] at hlit ⊢
      by_cases hneq : is_neq a = true
      · rwa [if_pos hneq] at hlit ⊢
      · rw [if_neg hneq] at hlit ⊢
        exact hIJ a (lookup_of_path hpath hb (by simpa using heq) (by simpa using hneq)) hlit

/-- No rule of the first list looks for what one of the second derives. -/
def NoFeedback (first second : List ExtendedRule) : Prop :=
  ∀ r ∈ first, ∀ a ∈ bodyLookups r.body, ∀ q ∈ second,
    ∃ p p', Atom.predicate a = some (.str p) ∧ Atom.predicate q.head = some (.str p') ∧ p' ≠ p

/-- Whether both predicates are names, and different ones. -/
def predicatesDiffer (a b : Atom) : Bool :=
  match Atom.predicate a, Atom.predicate b with
  | some (.str p), some (.str p') => p' != p
  | _, _ => false

/-- No rule of the first stage looks up what the second derives. -/
def noFeedback (first second : List ExtendedRule) : Bool :=
  first.all fun r => (bodyLookups r.body).all fun a => second.all fun q => predicatesDiffer a q.head

theorem noFeedback_of_check {first second : List ExtendedRule} (h : noFeedback first second = true) :
    NoFeedback first second := by
  intro r hr a ha q hq
  have hdiffer := List.all_eq_true.1 (List.all_eq_true.1 (List.all_eq_true.1 h r hr) a ha) q hq
  unfold predicatesDiffer at hdiffer
  split at hdiffer
  · rename_i p p' hp hp'
    exact ⟨p, p', hp, hp', by simpa using hdiffer⟩
  · cases hdiffer

/-! ## Two stages -/

section
variable {N edb : Set Fact} {first second : List ExtendedRule}

/-- What a rule looks for is not added by the second stage. -/
theorem lookup_mem_iff (h : NoFeedback first second) {r : ExtendedRule} (hr : r ∈ first) {a : Atom}
    (ha : a ∈ bodyLookups r.body) (σ : Assignment) :
    Atom.eval σ a ∈ least_model N second edb ↔ Atom.eval σ a ∈ edb := by
  rcases hsecond : second with _ | ⟨q, second'⟩
  · rw [mem_least_model]
    simp
  · obtain ⟨p, -, hp, -, -⟩ := h r hr a ha q (by simp [hsecond])
    rw [← hsecond]
    refine mem_edb_of_predicate (eval_head? hp σ) fun q' hq' => ?_
    obtain ⟨p', p'', hp', hp'', hne⟩ := h r hr a ha q' hq'
    rw [hp, Option.some.injEq, Term.str.injEq] at hp'
    exact ⟨p'', hp'', hp' ▸ hne⟩

theorem least_model_stages (h : NoFeedback first second) :
    least_model N (first ++ second) edb = least_model N second (least_model N first edb) := by
  have hrules : {r | r ∈ first ++ second} = {r | r ∈ first} ∪ {r | r ∈ second} := by
    ext r
    exact List.mem_append
  rw [least_model, hrules]
  refine lfp_closure_union fun r hr => ?_
  rintro f ⟨σ, hbody, hhead⟩
  refine ⟨σ, hbody.of_lookups fun a ha hmem => ?_, hhead⟩
  exact (lookup_mem_iff h hr ha σ).1 hmem

/-- Rules that look for nothing they derive derive it at once. -/
theorem mem_least_model_once {rules : List ExtendedRule} (h : NoFeedback rules rules) {f : Fact} :
    f ∈ least_model N rules edb ↔ f ∈ edb ∨ ∃ r ∈ rules, ∃ σ, AllHold edb N σ r.body ∧ Atom.eval σ r.head = f := by
  rw [mem_least_model]
  refine or_congr Iff.rfl (exists_congr fun r => and_congr_right fun hr => exists_congr fun σ => and_congr_left fun _ => ?_)
  exact ⟨fun hbody => hbody.of_lookups fun a ha => (lookup_mem_iff h hr ha σ).1,
    fun hbody => hbody.of_lookups fun a ha => (lookup_mem_iff h hr ha σ).2⟩

theorem least_model_closed (N : Set Fact) (rules : List ExtendedRule) (edb : Set Fact) :
    edb ⊆ least_model N rules edb ∧
      ∀ r ∈ rules, immediate_consequence N r (least_model N rules edb) ⊆ least_model N rules edb :=
  closure_le.1 (closure edb (immediate_consequence N) {r | r ∈ rules}).map_lfp.le

theorem least_model_le {rules : List ExtendedRule} {U : Set Fact} (hedb : edb ⊆ U)
    (hclosed : ∀ r ∈ rules, immediate_consequence N r U ⊆ U) : least_model N rules edb ⊆ U :=
  (closure edb (immediate_consequence N) {r | r ∈ rules}).lfp_le (closure_le.2 ⟨hedb, hclosed⟩)

theorem least_model_mono {rules : List ExtendedRule} {edb' : Set Fact} (h : edb ⊆ edb') :
    least_model N rules edb ⊆ least_model N rules edb' := by
  obtain ⟨hedb, hclosed⟩ := least_model_closed N rules edb'
  exact least_model_le (h.trans hedb) hclosed

end

end LainLang.Datalog
