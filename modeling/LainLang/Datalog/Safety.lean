import LainLang.Datalog.Semantics
/-!
# Safe rules

A rule is safe if on every path of its body the variables of the head are bound,
and those of a guard are bound by the literals before it. Safe rules derive the
heads of exactly the assignments under which their body holds.
-/
open LainLang.Lib

namespace LainLang.Datalog

/-- The two sides of an equation, in either order. -/
def Sides (a : Atom) (t u : Term) : Prop := a.at 1 = t ∧ a.at 2 = u ∨ a.at 1 = u ∧ a.at 2 = t

/-- A variable is bound by a positive atom, or by an equation with a string or
with a bound variable. -/
inductive Bound (lits : List BodyAtom) : String → Prop where
  | atom {a : Atom} {x : String} : .atom a ∈ lits → is_eq a = false → is_neq a = false → .V x ∈ a → Bound lits x
  | eq {a : Atom} {x : String} {t : Term} : .atom a ∈ lits → is_eq a = true → Sides a (.V x) t →
      (∀ y, t = .V y → Bound lits y) → Bound lits x

/-- What a guard reads: the argument of `Pred`, the two sides of an inequation,
the template of `NegFact`. -/
def BodyAtom.guarded : BodyAtom → List Term
  | .atom a => if is_neq a then [a.at 1, a.at 2] else []
  | .pred t _ => [t]
  | .neg_fact template => template
  | .or _ => []
  | .and _ => []

/-- What `safePath` decides. -/
structure SafePath (head : Atom) (path : List BodyAtom) : Prop where
  head : ∀ x, .V x ∈ head → Bound path x
  guards : ∀ before a after, path = before ++ a :: after → ∀ x, .V x ∈ a.guarded → Bound before x

/-- What `ExtendedRule.safe` decides. -/
def ExtendedRule.Safe (r : ExtendedRule) : Prop := ∀ path ∈ bodyPaths r.body, SafePath r.head path

/-! ## Ground terms and atoms -/

theorem groundAtom_eq_some {a : Atom} {f : Fact} : groundAtom a = some f ↔ a = f.terms := by
  induction a generalizing f with
  | nil => cases f <;> simp [groundAtom, Fact.terms]
  | cons t a ih =>
    cases t with
    | V x => cases f <;> simp [groundAtom, Fact.terms]
    | str s => cases f <;> simp [groundAtom, ih, Fact.terms, and_comm]

theorem groundAtom_some {a : Atom} (h : ∀ t ∈ a, ∃ s, t = .str s) : ∃ f, groundAtom a = some f := by
  induction a with
  | nil => exact ⟨[], rfl⟩
  | cons t a ih =>
    rw [List.forall_mem_cons] at h
    obtain ⟨⟨s, rfl⟩, h⟩ := h
    obtain ⟨f, hf⟩ := ih h
    exact ⟨s :: f, by simp [groundAtom, hf]⟩

section
variable {P : Pmatcher} (hP : P.FirstOrder) {facts : List Fact} {d d' : P.Dict} {σ : Assignment}
include hP

theorem eval_of_ground {t : Term} {s : String} (h : P.match_dict_substitute d t = .str s) (hσ : P.Solves d σ) :
    t.eval σ = s := by
  rw [← hP.eval_substitute hσ, h]
  rfl

theorem eval_of_groundAtom {a : Atom} {f : Fact} (h : groundAtom (a.map (P.match_dict_substitute d)) = some f)
    (hσ : P.Solves d σ) : Atom.eval σ a = f := by
  rw [groundAtom_eq_some] at h
  have hmap : Atom.eval σ (a.map (P.match_dict_substitute d)) = Atom.eval σ a := by
    rw [Atom.eval, List.map_map]
    exact List.map_congr_left fun t _ => hP.eval_substitute hσ t
  rw [← hmap, h, Fact.eval_terms]

/-! ## One literal -/

/-- A literal lets through only assignments that it holds of. -/
theorem Passes.sound {a : BodyAtom} (h : Passes P facts d d' a) (hσ : P.Solves d' σ) :
    P.Solves d σ ∧ a.Holds {f | f ∈ facts} {f | f ∈ facts} σ := by
  cases a with
  | or branches => exact h.elim
  | and conjuncts => exact h.elim
  | pred t fn =>
    obtain ⟨rfl, val, hval, hfn⟩ := h
    refine ⟨hσ, ?_⟩
    rw [BodyAtom.Holds, eval_of_ground hP hval hσ]
    exact hfn
  | neg_fact template =>
    obtain ⟨rfl, probe, hprobe, hmem⟩ := h
    refine ⟨hσ, ?_⟩
    rw [BodyAtom.Holds, eval_of_groundAtom hP hprobe hσ]
    exact hmem
  | atom a =>
    rw [BodyAtom.Holds]
    by_cases heq : is_eq a = true
    · simp only [Passes, if_pos heq] at h
      have hanswer := hP.unify_internal (P.match_dict_substitute d (a.at 1)) (P.match_dict_substitute d (a.at 2)) d
      rw [h] at hanswer
      obtain ⟨hd, hsides⟩ := (hanswer σ).1 hσ
      rw [hP.eval_substitute hd, hP.eval_substitute hd] at hsides
      rw [if_pos heq]
      exact ⟨hd, hsides⟩
    · by_cases hneq : is_neq a = true
      · simp only [Passes, if_neg heq, if_pos hneq] at h
        obtain ⟨rfl, s, s', hs, hs', hfail⟩ := h
        have hanswer := hP.unify_internal (.str s) (.str s') P.empty_dict
        rw [hfail] at hanswer
        rw [if_neg heq, if_pos hneq, eval_of_ground hP hs hσ, eval_of_ground hP hs' hσ]
        exact ⟨hσ, hanswer σ (hP.solves_empty σ)⟩
      · simp only [Passes, if_neg heq, if_neg hneq] at h
        obtain ⟨fact, hfact, hdict⟩ := h
        have hanswer := hP.unify_internal_atoms a fact.terms d
        rw [hdict] at hanswer
        obtain ⟨hd, heval⟩ := (hanswer σ).1 hσ
        rw [Fact.eval_terms] at heval
        rw [if_neg heq, if_neg hneq, heval]
        exact ⟨hd, hfact⟩

/-- A literal whose guards are ground lets through every assignment that it
holds of. -/
theorem Passes.complete {a : BodyAtom} (ha : a.Flat) (hguard : ∀ t ∈ a.guarded, ∃ s, P.match_dict_substitute d t = .str s)
    (hσ : P.Solves d σ) (h : a.Holds {f | f ∈ facts} {f | f ∈ facts} σ) :
    ∃ d', Passes P facts d d' a ∧ P.Solves d' σ := by
  cases a with
  | or branches => exact ha.elim
  | and conjuncts => exact ha.elim
  | pred t fn =>
    obtain ⟨s, hs⟩ := hguard t (by simp [BodyAtom.guarded])
    rw [BodyAtom.Holds, eval_of_ground hP hs hσ] at h
    exact ⟨d, ⟨rfl, s, hs, h⟩, hσ⟩
  | neg_fact template =>
    obtain ⟨probe, hprobe⟩ := @groundAtom_some (template.map (P.match_dict_substitute d)) (by simpa [BodyAtom.guarded] using hguard)
    rw [BodyAtom.Holds, eval_of_groundAtom hP hprobe hσ] at h
    exact ⟨d, ⟨rfl, probe, hprobe, h⟩, hσ⟩
  | atom a =>
    rw [BodyAtom.Holds] at h
    by_cases heq : is_eq a = true
    · rw [if_pos heq] at h
      have hanswer := hP.unify_internal (P.match_dict_substitute d (a.at 1)) (P.match_dict_substitute d (a.at 2)) d
      have hsides : (P.match_dict_substitute d (a.at 1)).eval σ = (P.match_dict_substitute d (a.at 2)).eval σ := by
        rw [hP.eval_substitute hσ, hP.eval_substitute hσ, h]
      cases hu : P.unify_internal (P.match_dict_substitute d (a.at 1)) (P.match_dict_substitute d (a.at 2)) d with
      | undefined => rw [hu] at hanswer; exact hanswer.elim
      | fail => rw [hu] at hanswer; exact absurd hsides (hanswer σ hσ)
      | dict d' =>
        rw [hu] at hanswer
        refine ⟨d', ?_, (hanswer σ).2 ⟨hσ, hsides⟩⟩
        simp only [Passes, if_pos heq, hu]
    · by_cases hneq : is_neq a = true
      · rw [if_neg heq, if_pos hneq] at h
        obtain ⟨s, hs⟩ := hguard (a.at 1) (by simp [BodyAtom.guarded, hneq])
        obtain ⟨s', hs'⟩ := hguard (a.at 2) (by simp [BodyAtom.guarded, hneq])
        rw [eval_of_ground hP hs hσ, eval_of_ground hP hs' hσ] at h
        refine ⟨d, ?_, hσ⟩
        simp only [Passes, if_neg heq, if_pos hneq, true_and]
        refine ⟨s, s', hs, hs', ?_⟩
        have hanswer := hP.unify_internal (.str s) (.str s') P.empty_dict
        cases hu : P.unify_internal (.str s) (.str s') P.empty_dict with
        | undefined => rw [hu] at hanswer; exact hanswer.elim
        | fail => rfl
        | dict d' =>
          -- A unifier of two strings would allow an assignment that makes them equal.
          rw [hu] at hanswer
          exact absurd ((hanswer _).1 (hP.solves_eval d' σ)).2 h
      · rw [if_neg heq, if_neg hneq] at h
        have hanswer := hP.unify_internal_atoms a (Fact.terms (Atom.eval σ a)) d
        cases hu : P.unify_internal_atoms a (Fact.terms (Atom.eval σ a)) d with
        | undefined => rw [hu] at hanswer; exact hanswer.elim
        | fail => rw [hu] at hanswer; exact absurd (Fact.eval_terms σ _).symm (hanswer σ hσ)
        | dict d' =>
          rw [hu] at hanswer
          refine ⟨d', ?_, (hanswer σ).2 ⟨hσ, (Fact.eval_terms σ _).symm⟩⟩
          simp only [Passes, if_neg heq, if_neg hneq]
          exact ⟨_, h, hu⟩

end

/-! ## What a path binds -/

/-- What a literal has done once it was passed: an equation holds, an atom is a
fact. -/
def Settled (P : Pmatcher) (d : P.Dict) : BodyAtom → Prop
  | .atom a =>
    (is_eq a = true → ∀ σ, P.Solves d σ → (a.at 1).eval σ = (a.at 2).eval σ) ∧
      (is_eq a = false → is_neq a = false → ∃ fact : Fact, ∀ σ, P.Solves d σ → Atom.eval σ a = fact)
  | _ => True

theorem Settled.mono {P : Pmatcher} {d d' : P.Dict} (h : ∀ σ, P.Solves d' σ → P.Solves d σ) {a : BodyAtom}
    (ha : Settled P d a) : Settled P d' a := by
  cases a with
  | atom a =>
    refine ⟨fun heq σ hσ => ha.1 heq σ (h σ hσ), fun heq hneq => ?_⟩
    obtain ⟨fact, hfact⟩ := ha.2 heq hneq
    exact ⟨fact, fun σ hσ => hfact σ (h σ hσ)⟩
  | _ => trivial

section
variable {P : Pmatcher} (hP : P.FirstOrder) {facts : List Fact} {d d' : P.Dict}
include hP

theorem Passes.settled {a : BodyAtom} (h : Passes P facts d d' a) : Settled P d' a := by
  cases a with
  | atom a =>
    constructor
    · intro heq σ hσ
      have := (Passes.sound hP h hσ).2
      rwa [BodyAtom.Holds, if_pos heq] at this
    · intro heq hneq
      simp only [Passes, heq, hneq] at h
      obtain ⟨fact, -, hdict⟩ := h
      have hanswer := hP.unify_internal_atoms a fact.terms d
      rw [hdict] at hanswer
      exact ⟨fact, fun σ hσ => ((hanswer σ).1 hσ).2.trans (Fact.eval_terms σ fact)⟩
  | _ => trivial

/-- What settled literals bind has been replaced. -/
theorem ground_of_bound {before : List BodyAtom} (h : ∀ a ∈ before, Settled P d a) {x : String} (hx : Bound before x) :
    ∃ s, P.match_dict_substitute d (.V x) = .str s := by
  apply hP.ground_of_determined
  induction hx with
  | @atom a x hmem heq hneq hx =>
    obtain ⟨fact, hfact⟩ := (h _ hmem).2 heq hneq
    intro σ τ hσ hτ
    exact List.map_inj_left.1 ((hfact σ hσ).trans (hfact τ hτ).symm) (.V x) hx
  | @eq a x t hmem heq hsides _ ih =>
    have hxt : ∀ σ, P.Solves d σ → σ x = t.eval σ := by
      intro σ hσ
      have := (h _ hmem).1 heq σ hσ
      rcases hsides with ⟨h1, h2⟩ | ⟨h1, h2⟩
      · rwa [h1, h2] at this
      · rw [h1, h2] at this
        exact this.symm
    intro σ τ hσ hτ
    rw [hxt σ hσ, hxt τ hτ]
    cases t with
    | str s => rfl
    | V y => exact ih y rfl σ τ hσ hτ

theorem ground_of_bound_term {before : List BodyAtom} (h : ∀ a ∈ before, Settled P d a) {t : Term}
    (ht : ∀ x, t = .V x → Bound before x) : ∃ s, P.match_dict_substitute d t = .str s := by
  cases t with
  | V x => exact ground_of_bound hP h (ht x rfl)
  | str s => exact ⟨s, hP.substitute_str d s⟩

/-- A safe path finds the heads of the assignments under which it holds. -/
theorem mem_resolve_path {head : Atom} {before path : List BodyAtom} (hflat : ∀ a ∈ path, a.Flat)
    (hsafe : SafePath head (before ++ path)) (hbefore : ∀ a ∈ before, Settled P d a) {f : Fact} :
    f ∈ resolve_extended P head path facts d ↔
      ∃ σ, P.Solves d σ ∧ (∀ a ∈ path, a.Holds {f | f ∈ facts} {f | f ∈ facts} σ) ∧ Atom.eval σ head = f := by
  induction path generalizing before d with
  | nil =>
    rw [List.append_nil] at hsafe
    rw [mem_resolve_nil, ground_fact]
    constructor
    · intro h
      have hσ := hP.solves_eval d fun _ => ""
      exact ⟨_, hσ, by simp, eval_of_groundAtom hP h hσ⟩
    · rintro ⟨σ, hσ, -, rfl⟩
      have hground : ∀ t ∈ head.map (P.match_dict_substitute d), ∃ s, t = .str s := by
        intro t ht
        obtain ⟨u, hu, rfl⟩ := List.mem_map.1 ht
        exact ground_of_bound_term hP hbefore fun x hx => hsafe.head x (hx ▸ hu)
      obtain ⟨g, hg⟩ := groundAtom_some hground
      rw [hg, eval_of_groundAtom hP hg hσ]
  | cons a path ih =>
    rw [List.forall_mem_cons] at hflat
    have hnext : ∀ d', Passes P facts d d' a → ∀ b ∈ before ++ [a], Settled P d' b := by
      intro d' hpass b hb
      rcases List.mem_append.1 hb with hb | hb
      · exact (hbefore b hb).mono fun σ hσ => (Passes.sound hP hpass hσ).1
      · rw [List.mem_singleton.1 hb]
        exact Passes.settled hP hpass
    have hrest : SafePath head ((before ++ [a]) ++ path) := by simpa using hsafe
    rw [mem_resolve_flat hflat.1]
    constructor
    · rintro ⟨d', hpass, hf⟩
      obtain ⟨σ, hσ, hall, rfl⟩ := (ih hflat.2 hrest (hnext d' hpass)).1 hf
      obtain ⟨hd, ha⟩ := Passes.sound hP hpass hσ
      exact ⟨σ, hd, List.forall_mem_cons.2 ⟨ha, hall⟩, rfl⟩
    · rintro ⟨σ, hσ, hall, rfl⟩
      rw [List.forall_mem_cons] at hall
      have hguard : ∀ t ∈ a.guarded, ∃ s, P.match_dict_substitute d t = .str s := fun t ht =>
        ground_of_bound_term hP hbefore fun x hx => hsafe.guards before a path rfl x (hx ▸ ht)
      obtain ⟨d', hpass, hσ'⟩ := Passes.complete hP hflat.1 hguard hσ hall.1
      exact ⟨d', hpass, (ih hflat.2 hrest (hnext d' hpass)).2 ⟨σ, hσ', hall.2, rfl⟩⟩

/-- A safe rule derives the heads of the assignments under which its body holds. -/
theorem mem_derive_iff {r : ExtendedRule} (hsafe : r.Safe) {f : Fact} :
    f ∈ derive P r facts ↔ ∃ σ, AllHold {f | f ∈ facts} {f | f ∈ facts} σ r.body ∧ Atom.eval σ r.head = f := by
  have hpath : ∀ path ∈ bodyPaths r.body, (f ∈ resolve_extended P r.head path facts P.empty_dict ↔
      ∃ σ, (∀ a ∈ path, a.Holds {f | f ∈ facts} {f | f ∈ facts} σ) ∧ Atom.eval σ r.head = f) := by
    intro path hmem
    rw [mem_resolve_path hP (bodyPaths_flat hmem) (List.nil_append path ▸ hsafe path hmem) (by simp)]
    simp [hP.solves_empty]
  rw [derive, mem_resolve_paths]
  constructor
  · rintro ⟨path, hmem, hf⟩
    obtain ⟨σ, hall, rfl⟩ := (hpath path hmem).1 hf
    exact ⟨σ, allHold_iff_paths.2 ⟨path, hmem, hall⟩, rfl⟩
  · rintro ⟨σ, hall, rfl⟩
    obtain ⟨path, hmem, hall⟩ := allHold_iff_paths.1 hall
    exact ⟨path, hmem, (hpath path hmem).2 ⟨σ, hall, rfl⟩⟩

end

end LainLang.Datalog
