import LainLang.Datalog.FirstOrder
/-!
# What the resolver finds

A body is a choice of paths, sequences of literals without `or` and `and`. Under
a safe rule, where a path binds the variables of the head and of its guards,
`resolve_extended` finds the heads of exactly the assignments under which the
body holds.
-/
open LainLang.Lib

namespace LainLang.Datalog

/-! ## The reading of bodies -/

mutual

/-- A literal holds of the facts `I`, where `NegFact` looks into `N`. -/
def BodyAtom.Holds (I N : Set Fact) (σ : Assignment) : BodyAtom → Prop
  | .atom a =>
    if is_eq a then (a.at 1).eval σ = (a.at 2).eval σ
    else if is_neq a then (a.at 1).eval σ ≠ (a.at 2).eval σ
    else Atom.eval σ a ∈ I
  | .or branches => AnyHolds I N σ branches
  | .and conjuncts => AllHold I N σ conjuncts
  | .pred t fn => fn (t.eval σ) = true
  | .neg_fact template => Atom.eval σ template ∉ N

/-- Every atom of a body holds. -/
def AllHold (I N : Set Fact) (σ : Assignment) : List BodyAtom → Prop
  | [] => True
  | a :: as => a.Holds I N σ ∧ AllHold I N σ as

/-- Some branch holds. -/
def AnyHolds (I N : Set Fact) (σ : Assignment) : List (List BodyAtom) → Prop
  | [] => False
  | b :: bs => AllHold I N σ b ∨ AnyHolds I N σ bs

end

mutual

/-- The sequences of literals a body may be run through. -/
def BodyAtom.paths : BodyAtom → List (List BodyAtom)
  | .or branches => branchesPaths branches
  | .and conjuncts => bodyPaths conjuncts
  | a => [[a]]

/-- The ways through a body, with one branch for each `Or`. -/
def bodyPaths : List BodyAtom → List (List BodyAtom)
  | [] => [[]]
  | a :: as => a.paths.flatMap fun p => (bodyPaths as).map (p ++ ·)

/-- The ways through some branch. -/
def branchesPaths : List (List BodyAtom) → List (List BodyAtom)
  | [] => []
  | b :: bs => bodyPaths b ++ branchesPaths bs

end

/-- Neither `Or` nor `And`. -/
def BodyAtom.Flat : BodyAtom → Prop
  | .or _ => False
  | .and _ => False
  | _ => True

theorem mem_bodyPaths_cons {a : BodyAtom} {as path : List BodyAtom} :
    path ∈ bodyPaths (a :: as) ↔ ∃ p ∈ a.paths, ∃ q ∈ bodyPaths as, path = p ++ q := by
  simp [bodyPaths, eq_comm]

theorem mem_branchesPaths {path : List BodyAtom} {branches : List (List BodyAtom)} :
    path ∈ branchesPaths branches ↔ ∃ b ∈ branches, path ∈ bodyPaths b := by
  induction branches with
  | nil => simp [branchesPaths]
  | cons b bs ih => simp [branchesPaths, ih]

theorem mem_bodyPaths_append {as bs path : List BodyAtom} :
    path ∈ bodyPaths (as ++ bs) ↔ ∃ p ∈ bodyPaths as, ∃ q ∈ bodyPaths bs, path = p ++ q := by
  induction as generalizing path with
  | nil => simp [bodyPaths]
  | cons a as ih =>
    simp only [List.cons_append, mem_bodyPaths_cons, ih]
    constructor
    · rintro ⟨p, hp, _, ⟨q, hq, r, hr, rfl⟩, rfl⟩
      exact ⟨p ++ q, ⟨p, hp, q, hq, rfl⟩, r, hr, by simp⟩
    · rintro ⟨_, ⟨p, hp, q, hq, rfl⟩, r, hr, rfl⟩
      exact ⟨p, hp, q ++ r, ⟨q, hq, r, hr, rfl⟩, by simp⟩

theorem anyHolds_iff {I N : Set Fact} {σ : Assignment} {branches : List (List BodyAtom)} :
    AnyHolds I N σ branches ↔ ∃ b ∈ branches, AllHold I N σ b := by
  induction branches with
  | nil => simp [AnyHolds]
  | cons b bs ih => simp [AnyHolds, ih]

theorem allHold_append {I N : Set Fact} {σ : Assignment} {as bs : List BodyAtom} :
    AllHold I N σ (as ++ bs) ↔ AllHold I N σ as ∧ AllHold I N σ bs := by
  induction as with
  | nil => simp [AllHold]
  | cons a as ih => simp [AllHold, ih, and_assoc]

/-- A property of a body by the number of its literals: of the empty body, one
that starts with a disjunction, a conjunction or a literal. -/
theorem body_induction {motive : List BodyAtom → Prop} (nil : motive [])
    (or : ∀ branches rest, (∀ b ∈ branches, motive (b ++ rest)) → motive (.or branches :: rest))
    (and : ∀ conjuncts rest, motive (conjuncts ++ rest) → motive (.and conjuncts :: rest))
    (flat : ∀ a rest, a.Flat → motive rest → motive (a :: rest)) (body : List BodyAtom) : motive body := by
  induction hk : premisesSize body using Nat.strongRecOn generalizing body with
  | ind k ih =>
    cases body with
    | nil => exact nil
    | cons a rest =>
      rw [premisesSize] at hk
      have hrest : 0 < a.size → motive rest := fun hpos => ih _ (by omega) rest rfl
      cases a with
      | or branches =>
        refine or _ _ fun b hb => ih _ ?_ _ rfl
        have := premisesSize_le hb
        rw [BodyAtom.size] at hk
        rw [premisesSize_append]
        omega
      | and conjuncts =>
        refine and _ _ (ih _ ?_ _ rfl)
        rw [BodyAtom.size] at hk
        rw [premisesSize_append]
        omega
      | atom a => exact flat _ _ trivial (hrest (by simp [BodyAtom.size]))
      | pred t fn => exact flat _ _ trivial (hrest (by simp [BodyAtom.size]))
      | neg_fact template => exact flat _ _ trivial (hrest (by simp [BodyAtom.size]))

theorem BodyAtom.Flat.paths {a : BodyAtom} (h : a.Flat) : a.paths = [[a]] := by
  cases a with
  | or branches => exact h.elim
  | and conjuncts => exact h.elim
  | _ => rfl

theorem mem_bodyPaths_flat {a : BodyAtom} (h : a.Flat) {rest path : List BodyAtom} :
    path ∈ bodyPaths (a :: rest) ↔ ∃ q ∈ bodyPaths rest, path = a :: q := by
  simp [mem_bodyPaths_cons, h.paths]

theorem mem_bodyPaths_or {branches : List (List BodyAtom)} {rest path : List BodyAtom} :
    path ∈ bodyPaths (.or branches :: rest) ↔ ∃ b ∈ branches, path ∈ bodyPaths (b ++ rest) := by
  simp only [mem_bodyPaths_cons, BodyAtom.paths, mem_branchesPaths, mem_bodyPaths_append]
  constructor
  · rintro ⟨p, ⟨b, hb, hp⟩, hq⟩
    exact ⟨b, hb, p, hp, hq⟩
  · rintro ⟨b, hb, p, hp, hq⟩
    exact ⟨p, ⟨b, hb, hp⟩, hq⟩

theorem mem_bodyPaths_and {conjuncts rest path : List BodyAtom} :
    path ∈ bodyPaths (.and conjuncts :: rest) ↔ path ∈ bodyPaths (conjuncts ++ rest) := by
  rw [mem_bodyPaths_cons, mem_bodyPaths_append]
  rfl

/-- Paths consist of literals. -/
theorem bodyPaths_flat {body path : List BodyAtom} (h : path ∈ bodyPaths body) : ∀ a ∈ path, a.Flat := by
  induction body using body_induction generalizing path with
  | nil => simp only [bodyPaths, List.mem_singleton] at h; simp [h]
  | or branches rest ih =>
    obtain ⟨b, hb, hpath⟩ := mem_bodyPaths_or.1 h
    exact ih b hb hpath
  | and conjuncts rest ih => exact ih (mem_bodyPaths_and.1 h)
  | flat a rest ha ih =>
    obtain ⟨q, hq, rfl⟩ := (mem_bodyPaths_flat ha).1 h
    exact List.forall_mem_cons.2 ⟨ha, ih hq⟩

/-- A body holds if one of its paths does. -/
theorem allHold_iff_paths {I N : Set Fact} {σ : Assignment} {body : List BodyAtom} :
    AllHold I N σ body ↔ ∃ path ∈ bodyPaths body, ∀ a ∈ path, a.Holds I N σ := by
  induction body using body_induction with
  | nil => simp [AllHold, bodyPaths]
  | or branches rest ih =>
    have hbranch : ∀ b ∈ branches, (AllHold I N σ b ∧ AllHold I N σ rest ↔
        ∃ path ∈ bodyPaths (b ++ rest), ∀ a ∈ path, a.Holds I N σ) := fun b hb => allHold_append.symm.trans (ih b hb)
    simp only [AllHold, BodyAtom.Holds, anyHolds_iff, mem_bodyPaths_or]
    constructor
    · rintro ⟨⟨b, hb, hall⟩, hrest⟩
      obtain ⟨path, hpath, h⟩ := (hbranch b hb).1 ⟨hall, hrest⟩
      exact ⟨path, ⟨b, hb, hpath⟩, h⟩
    · rintro ⟨path, ⟨b, hb, hpath⟩, h⟩
      obtain ⟨hall, hrest⟩ := (hbranch b hb).2 ⟨path, hpath, h⟩
      exact ⟨⟨b, hb, hall⟩, hrest⟩
  | and conjuncts rest ih =>
    simp only [AllHold, BodyAtom.Holds, mem_bodyPaths_and]
    rw [← ih, allHold_append]
  | flat a rest ha ih =>
    rw [AllHold, ih]
    constructor
    · rintro ⟨h, path, hpath, hall⟩
      exact ⟨a :: path, (mem_bodyPaths_flat ha).2 ⟨path, hpath, rfl⟩, List.forall_mem_cons.2 ⟨h, hall⟩⟩
    · rintro ⟨path, hpath, hall⟩
      obtain ⟨q, hq, rfl⟩ := (mem_bodyPaths_flat ha).1 hpath
      rw [List.forall_mem_cons] at hall
      exact ⟨hall.1, q, hq, hall.2⟩

/-! ## What each literal does -/

/-- A literal turns the dictionary `d` into `d'`. -/
def Passes (P : Pmatcher) (facts : List Fact) (d d' : P.Dict) : BodyAtom → Prop
  | .pred t fn => d' = d ∧ ∃ val, P.match_dict_substitute d t = .str val ∧ fn val = true
  | .or _ => False
  | .and _ => False
  | .neg_fact template => d' = d ∧ ∃ probe, groundAtom (template.map (P.match_dict_substitute d)) = some probe ∧ probe ∉ facts
  | .atom a =>
    if is_eq a then
      P.unify_internal (P.match_dict_substitute d (a.at 1)) (P.match_dict_substitute d (a.at 2)) d = .dict d'
    else if is_neq a then
      d' = d ∧ ∃ s s', P.match_dict_substitute d (a.at 1) = .str s ∧ P.match_dict_substitute d (a.at 2) = .str s' ∧
        P.unify_internal (.str s) (.str s') P.empty_dict = .fail
    else ∃ fact ∈ facts, P.unify_internal_atoms a fact.terms d = .dict d'

section
variable {P : Pmatcher} {head : Atom} {facts : List Fact} {d : P.Dict} {f : Fact}

theorem mem_resolve_nil : f ∈ resolve_extended P head [] facts d ↔ ground_fact P head d = some f := by
  rw [resolve_extended, Option.mem_toList]

theorem mem_resolve_or {branches : List (List BodyAtom)} {rest : List BodyAtom} :
    f ∈ resolve_extended P head (.or branches :: rest) facts d ↔
      ∃ b ∈ branches, f ∈ resolve_extended P head (b ++ rest) facts d := by
  have hadd : ∀ (results fs : List Fact),
      f ∈ fs.foldl (fun results f => (add_if_new results f).2) results ↔ f ∈ results ∨ f ∈ fs := by
    intro results fs
    rw [mem_foldl_iff (fun acc g => by rw [add_if_new_eq, mem_addNew])]
    simp
  rw [resolve_extended,
    mem_foldl_iff fun acc (branch : {b // b ∈ branches}) => hadd acc (resolve_extended P head (branch.1 ++ rest) facts d)]
  simp

theorem mem_resolve_and {conjuncts rest : List BodyAtom} :
    f ∈ resolve_extended P head (.and conjuncts :: rest) facts d ↔
      f ∈ resolve_extended P head (conjuncts ++ rest) facts d := by
  rw [resolve_extended]

/-- A literal passes the dictionaries it can turn `d` into on to the rest. -/
theorem mem_resolve_flat {a : BodyAtom} (ha : a.Flat) {rest : List BodyAtom} :
    f ∈ resolve_extended P head (a :: rest) facts d ↔
      ∃ d', Passes P facts d d' a ∧ f ∈ resolve_extended P head rest facts d' := by
  cases a with
  | or branches => exact ha.elim
  | and conjuncts => exact ha.elim
  | pred t fn =>
    rw [resolve_extended]
    cases ht : P.match_dict_substitute d t with
    | V x => simp [Passes, ht]
    | str val => by_cases hfn : fn val = true <;> simp [Passes, ht, hfn]
  | neg_fact template =>
    rw [resolve_extended]
    cases hprobe : groundAtom (template.map (P.match_dict_substitute d)) with
    | none => simp [Passes, hprobe]
    | some probe =>
      simp only
      by_cases hmem : probe ∈ facts
      · rw [if_pos (any_fact_equal.2 hmem)]
        simp [Passes, hprobe, hmem]
      · rw [if_neg (mt any_fact_equal.1 hmem)]
        simp [Passes, hprobe, hmem]
  | atom a =>
    rw [resolve_extended]
    by_cases heq : is_eq a = true
    · rw [if_pos heq]
      simp only [Passes, if_pos heq]
      cases P.unify_internal (P.match_dict_substitute d (a.at 1)) (P.match_dict_substitute d (a.at 2)) d <;> simp
    · rw [if_neg heq]
      by_cases hneq : is_neq a = true
      · rw [if_pos hneq]
        simp only [Passes, if_neg heq, if_pos hneq]
        cases h1 : P.match_dict_substitute d (a.at 1) with
        | V x => simp [is_ground]
        | str s =>
          cases h2 : P.match_dict_substitute d (a.at 2) with
          | V y => simp [is_ground]
          | str s' => cases hu : P.unify_internal (.str s) (.str s') P.empty_dict <;> simp [is_ground, hu]
      · rw [if_neg hneq]
        simp only [Passes, if_neg heq, if_neg hneq, List.mem_flatMap]
        constructor
        · rintro ⟨fact, hfact, hf⟩
          cases hu : P.unify_internal_atoms a fact.terms d with
          | dict d' =>
            simp only [unify_premise, hu] at hf
            exact ⟨d', ⟨fact, hfact, hu⟩, hf⟩
          | fail => simp [unify_premise, hu] at hf
          | undefined => simp [unify_premise, hu] at hf
        · rintro ⟨d', ⟨fact, hfact, hu⟩, hf⟩
          refine ⟨fact, hfact, ?_⟩
          simp only [unify_premise, hu]
          exact hf

/-- The resolver runs the paths of a body. -/
theorem mem_resolve_paths {body : List BodyAtom} :
    f ∈ resolve_extended P head body facts d ↔ ∃ path ∈ bodyPaths body, f ∈ resolve_extended P head path facts d := by
  induction body using body_induction generalizing d with
  | nil => simp [bodyPaths]
  | or branches rest ih =>
    rw [mem_resolve_or]
    simp only [mem_bodyPaths_or]
    constructor
    · rintro ⟨b, hb, hf⟩
      obtain ⟨path, hpath, hf⟩ := (ih b hb).1 hf
      exact ⟨path, ⟨b, hb, hpath⟩, hf⟩
    · rintro ⟨path, ⟨b, hb, hpath⟩, hf⟩
      exact ⟨b, hb, (ih b hb).2 ⟨path, hpath, hf⟩⟩
  | and conjuncts rest ih => simp only [mem_resolve_and, mem_bodyPaths_and, ih]
  | flat a rest ha ih =>
    simp only [mem_resolve_flat ha, mem_bodyPaths_flat ha]
    constructor
    · rintro ⟨d', hpass, hf⟩
      obtain ⟨path, hpath, hf⟩ := ih.1 hf
      exact ⟨a :: path, ⟨path, hpath, rfl⟩, (mem_resolve_flat ha).2 ⟨d', hpass, hf⟩⟩
    · rintro ⟨_, ⟨path, hpath, rfl⟩, hf⟩
      obtain ⟨d', hpass, hf⟩ := (mem_resolve_flat ha).1 hf
      exact ⟨d', hpass, ih.2 ⟨path, hpath, hf⟩⟩

end

end LainLang.Datalog
