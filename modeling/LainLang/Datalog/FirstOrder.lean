import LainLang.Datalog.LogicProgram
/-!
# First-order unification

What the evaluator relies on in pmatcher, stated by the assignments a dictionary
allows: a unifier allows those of the dictionary before it that solve the
equation, and `false` says that there are none. `firstOrder` is a matcher of
this kind.
-/

namespace LainLang.Datalog

/-- A string for each variable. -/
abbrev Assignment := String → String

/-- A term under an assignment. -/
def Term.eval (σ : Assignment) : Term → String
  | .V x => σ x
  | .str s => s

@[simp] theorem Term.eval_V (σ : Assignment) (x : String) : (Term.V x).eval σ = σ x := rfl

@[simp] theorem Term.eval_str (σ : Assignment) (s : String) : (Term.str s).eval σ = s := rfl

/-- The fact an atom stands for. -/
def Atom.eval (σ : Assignment) (a : Atom) : Fact := a.map (Term.eval σ)

@[simp] theorem Fact.eval_terms (σ : Assignment) (fact : Fact) : Atom.eval σ fact.terms = fact := by
  rw [Atom.eval, Fact.terms, List.map_map]
  exact List.map_id fact

namespace Pmatcher

variable (P : Pmatcher)

/-- The assignments a dictionary allows. -/
def Solves (d : P.Dict) (σ : Assignment) : Prop := ∀ x, (P.match_dict_substitute d (.V x)).eval σ = σ x

/-- The answer of a unification under `d`, where `S` are the assignments that
make the two sides equal. -/
def Answers (d : P.Dict) (S : Assignment → Prop) : Unified P.Dict → Prop
  | .dict d' => ∀ σ, P.Solves d' σ ↔ P.Solves d σ ∧ S σ
  | .fail => ∀ σ, P.Solves d σ → ¬ S σ
  | .undefined => False

/-- Substitution replaces variables, once and for all, and unification answers
with a most general unifier if and only if there is one. -/
structure FirstOrder : Prop where
  substitute_str : ∀ d s, P.match_dict_substitute d (.str s) = .str s
  substitute_idem : ∀ d t, P.match_dict_substitute d (P.match_dict_substitute d t) = P.match_dict_substitute d t
  substitute_empty : ∀ t, P.match_dict_substitute P.empty_dict t = t
  unify_internal : ∀ t u d, P.Answers d (fun σ => t.eval σ = u.eval σ) (P.unify_internal t u d)
  unify_internal_atoms : ∀ a b d, P.Answers d (fun σ => a.eval σ = b.eval σ) (P.unify_internal_atoms a b d)

end Pmatcher

/-! ## Dictionaries and their assignments -/

namespace Pmatcher.FirstOrder

variable {P : Pmatcher} (hP : P.FirstOrder) {d : P.Dict} {σ : Assignment}
include hP

theorem solves_empty (σ : Assignment) : P.Solves P.empty_dict σ := fun x => by rw [hP.substitute_empty]; rfl

theorem eval_substitute (h : P.Solves d σ) (t : Term) : (P.match_dict_substitute d t).eval σ = t.eval σ := by
  cases t with
  | V x => exact h x
  | str s => rw [hP.substitute_str]

/-- What the dictionary leaves open can be chosen. -/
theorem solves_eval (d : P.Dict) (ρ : Assignment) : P.Solves d fun x => (P.match_dict_substitute d (.V x)).eval ρ := by
  intro x
  cases hx : P.match_dict_substitute d (.V x) with
  | str s => simp [hx]
  | V y =>
    have hy := hP.substitute_idem d (.V x)
    rw [hx] at hy
    simp [hx, hy]

/-- A variable with one value under every assignment has been replaced. -/
theorem ground_of_determined {x : String} (h : ∀ σ τ, P.Solves d σ → P.Solves d τ → σ x = τ x) :
    ∃ s, P.match_dict_substitute d (.V x) = .str s := by
  cases hx : P.match_dict_substitute d (.V x) with
  | str s => exact ⟨s, rfl⟩
  | V y =>
    have hab := h _ _ (hP.solves_eval d fun _ => "a") (hP.solves_eval d fun _ => "b")
    simp [hx] at hab

end Pmatcher.FirstOrder

/-! ## A first-order matcher -/

/-- The variables bound to each other share one of them, the others are bound to
strings. -/
structure Bindings where
  value : String → Term
  shared : ∀ x y, value x = .V y → value y = .V y

namespace Bindings

/-- A bound variable is its value; a string is itself. -/
def substitute (d : Bindings) : Term → Term
  | .V x => d.value x
  | .str s => .str s

theorem substitute_idem (d : Bindings) (t : Term) : d.substitute (d.substitute t) = d.substitute t := by
  cases t with
  | str s => rfl
  | V x =>
    cases hx : d.value x with
    | str s => simp [substitute, hx]
    | V y => simp [substitute, hx, d.shared x y hx]

/-- Binds `x`, and whatever shares its value, to `t`. -/
def bind (d : Bindings) (x : String) (t : Term) : Bindings where
  value z := if d.value z = d.value x then d.substitute t else d.value z
  shared := by
    intro z y h
    have hidem := d.substitute_idem t
    by_cases hz : d.value z = d.value x
    · rw [if_pos hz] at h
      rw [h] at hidem ⊢
      split
      · rfl
      · exact hidem
    · rw [if_neg hz] at h
      have hy := d.shared z y h
      rw [h, ← hy] at hz
      rw [if_neg hz, hy]

/-- Unification of two terms: a variable is bound to the other side, strings must be equal. -/
def unify_internal (t u : Term) (d : Bindings) : Unified Bindings :=
  match d.substitute t, d.substitute u with
  | .V x, u' => .dict (d.bind x u')
  | .str s, .V y => .dict (d.bind y (.str s))
  | .str s, .str s' => if s = s' then .dict d else .fail

/-- Two atoms position by position; atoms of different lengths do not unify. -/
def unify_internal_atoms : Atom → Atom → Bindings → Unified Bindings
  | [], [], d => .dict d
  | t :: a, u :: b, d =>
    match unify_internal t u d with
    | .dict d => unify_internal_atoms a b d
    | .fail => .fail
    | .undefined => .undefined
  | [], _ :: _, _ => .fail
  | _ :: _, [], _ => .fail

end Bindings

/-- First-order matching as a `Pmatcher`: the matcher the programs are written for. -/
def firstOrder : Pmatcher where
  Dict := Bindings
  empty_dict := { value := .V, shared := fun _ _ h => h ▸ rfl }
  unify_internal := Bindings.unify_internal
  unify_internal_atoms := Bindings.unify_internal_atoms
  match_dict_substitute := Bindings.substitute

namespace Bindings

variable {d : Bindings} {σ : Assignment}

theorem eval_substitute (h : firstOrder.Solves d σ) (t : Term) : (d.substitute t).eval σ = t.eval σ := by
  cases t with
  | V x => exact h x
  | str s => rfl

/-- Binding a variable that stands for itself adds one equation. -/
theorem solves_bind {x : String} (hx : d.value x = .V x) {t : Term} (ht : d.substitute t = t) :
    firstOrder.Solves (d.bind x t) σ ↔ firstOrder.Solves d σ ∧ σ x = t.eval σ := by
  have hvalue : ∀ z, (d.bind x t).value z = if d.value z = .V x then t else d.value z := fun z => by
    simp only [bind, hx, ht]
  constructor
  · intro h
    have hstep : ∀ z, (if d.value z = .V x then t else d.value z).eval σ = σ z := fun z => hvalue z ▸ h z
    have hxt : t.eval σ = σ x := by simpa [hx] using hstep x
    refine ⟨fun z => ?_, hxt.symm⟩
    by_cases hz : d.value z = .V x
    · have := hstep z
      rw [if_pos hz, hxt] at this
      exact (congrArg (Term.eval σ) hz).trans this
    · have := hstep z
      rwa [if_neg hz] at this
  · rintro ⟨h, hxt⟩ z
    refine (congrArg (Term.eval σ) (hvalue z)).trans ?_
    split
    · rename_i hz
      exact hxt.symm.trans ((congrArg (Term.eval σ) hz).symm.trans (h z))
    · exact h z

theorem answers_unify (t u : Term) (d : Bindings) :
    firstOrder.Answers d (fun σ => t.eval σ = u.eval σ) (unify_internal t u d) := by
  have hsides : ∀ σ, firstOrder.Solves d σ →
      ((t.eval σ = u.eval σ) ↔ (d.substitute t).eval σ = (d.substitute u).eval σ) := fun σ h => by
    rw [eval_substitute h, eval_substitute h]
  have hself : ∀ x w, d.substitute w = .V x → d.value x = .V x := fun x w h => by
    have := d.substitute_idem w
    rwa [h] at this
  unfold unify_internal
  cases ht : d.substitute t with
  | V x =>
    intro σ
    rw [solves_bind (hself x t ht) (d.substitute_idem u)]
    refine and_congr_right fun h => ?_
    exact Iff.trans (by rw [ht, Term.eval_V]) (hsides σ h).symm
  | str s =>
    cases hu : d.substitute u with
    | V y =>
      intro σ
      rw [solves_bind (hself y u hu) rfl]
      refine and_congr_right fun h => ?_
      exact Iff.trans (by rw [ht, hu, Term.eval_V, Term.eval_str, eq_comm]) (hsides σ h).symm
    | str s' =>
      by_cases hs : s = s'
      · simp only [if_pos hs]
        intro σ
        refine ⟨fun h => ⟨h, (hsides σ h).2 ?_⟩, And.left⟩
        rw [ht, hu, hs]
      · simp only [if_neg hs]
        intro σ h heq
        have := (hsides σ h).1 heq
        rw [ht, hu] at this
        exact hs this

theorem answers_unify_atoms (a b : Atom) (d : Bindings) :
    firstOrder.Answers d (fun σ => a.eval σ = b.eval σ) (unify_internal_atoms a b d) := by
  induction a generalizing b d with
  | nil =>
    cases b with
    | nil => exact fun σ => by simp
    | cons u b => exact fun σ _ h => by cases h
  | cons t a ih =>
    cases b with
    | nil => exact fun σ _ h => by cases h
    | cons u b =>
      have hhead := answers_unify t u d
      have hcons : ∀ σ, Atom.eval σ (t :: a) = Atom.eval σ (u :: b) ↔ t.eval σ = u.eval σ ∧ Atom.eval σ a = Atom.eval σ b :=
        fun σ => by simp [Atom.eval]
      rw [unify_internal_atoms]
      cases hunify : unify_internal t u d with
      | undefined => rw [hunify] at hhead; exact hhead.elim
      | fail =>
        rw [hunify] at hhead
        exact fun σ hσ h => hhead σ hσ ((hcons σ).1 h).1
      | dict d' =>
        rw [hunify] at hhead
        have htail := ih b d'
        simp only
        cases hrest : unify_internal_atoms a b d' with
        | undefined => rw [hrest] at htail; exact htail.elim
        | fail =>
          rw [hrest] at htail
          exact fun σ hσ h => htail σ ((hhead σ).2 ⟨hσ, ((hcons σ).1 h).1⟩) ((hcons σ).1 h).2
        | dict d'' =>
          rw [hrest] at htail
          intro σ
          rw [htail σ, hhead σ, and_assoc]
          exact and_congr_right fun _ => (hcons σ).symm

end Bindings

theorem firstOrder_firstOrder : firstOrder.FirstOrder where
  substitute_str _ _ := rfl
  substitute_idem := Bindings.substitute_idem
  substitute_empty t := by cases t <;> rfl
  unify_internal := Bindings.answers_unify
  unify_internal_atoms := Bindings.answers_unify_atoms

end LainLang.Datalog
