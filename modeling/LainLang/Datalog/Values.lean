import LainLang.Datalog.Safety
import Mathlib.Data.Set.Finite.List
import Mathlib.Data.List.GetD
import Mathlib.Algebra.Order.BigOperators.Group.List
import Mathlib.Algebra.Order.Ring.Nat
/-!
# The evaluation ends

A rule, safe or not, derives only values that stand in the facts or in the
rule: an assignment that a dictionary allows may rename all others. So the
facts derived stay in a finite set.
-/
open LainLang.Lib

namespace LainLang.Datalog

/-- The strings of an atom lie in `K`. -/
def Atom.Within (K : Set String) (a : Atom) : Prop := ∀ s, .str s ∈ a → s ∈ K

/-- Those of a literal that can bind a variable. -/
def BodyAtom.Within (K : Set String) : BodyAtom → Prop
  | .atom a => Atom.Within K a
  | _ => True

/-- A renaming that fixes `K`. -/
def Fixes (ρ : String → String) (K : Set String) : Prop := ∀ s ∈ K, ρ s = s

/-- A dictionary whose strings lie in `K` allows to rename all others. -/
def Renames (P : Pmatcher) (K : Set String) (d : P.Dict) : Prop :=
  ∀ ρ, Fixes ρ K → ∀ σ, P.Solves d σ → P.Solves d (ρ ∘ σ)

theorem eval_comp {K : Set String} {ρ : String → String} (hρ : Fixes ρ K) {t : Term} (ht : ∀ s, t = .str s → s ∈ K)
    (σ : Assignment) : t.eval (ρ ∘ σ) = ρ (t.eval σ) := by
  cases t with
  | V x => rfl
  | str s => exact (hρ s (ht s rfl)).symm

theorem Atom.eval_comp {K : Set String} {ρ : String → String} (hρ : Fixes ρ K) {a : Atom} (ha : Atom.Within K a)
    (σ : Assignment) : Atom.eval (ρ ∘ σ) a = (Atom.eval σ a).map ρ := by
  rw [Atom.eval, Atom.eval, List.map_map]
  exact List.map_congr_left fun t ht => LainLang.Datalog.eval_comp hρ (fun s hs => ha s (hs ▸ ht)) σ

theorem at_mem {a : Atom} {i : ℕ} (h : i < a.length) : a.at i ∈ a := by
  rw [Atom.at, List.getD_eq_getElem _ _ h]
  exact List.getElem_mem h

theorem is_eq_length {a : Atom} (h : is_eq a = true) : a.length = 3 := by
  simp only [is_eq, Bool.and_eq_true, beq_iff_eq] at h
  exact h.1

section
variable {P : Pmatcher} (hP : P.FirstOrder) {K : Set String} {facts : List Fact} {d d' : P.Dict}
include hP

theorem renames_empty : Renames P K P.empty_dict := fun _ _ _ _ => hP.solves_empty _

/-- A string a variable was replaced with lies in `K`: it could be renamed. -/
theorem mem_of_ground (hd : Renames P K d) {t : Term} (ht : ∀ s, t = .str s → s ∈ K) {s : String}
    (h : P.match_dict_substitute d t = .str s) : s ∈ K := by
  by_contra hs
  let ρ : String → String := fun s' => if s' = s then s ++ "'" else s'
  have hρ : Fixes ρ K := fun s' hs' => if_neg fun (heq : s' = s) => hs (heq ▸ hs')
  have hσ := hP.solves_eval d fun _ => ""
  have hrenamed := eval_of_ground hP h (hd ρ hρ _ hσ)
  rw [eval_comp hρ ht, eval_of_ground hP h hσ] at hrenamed
  have hlength := congrArg String.length hrenamed
  simp [ρ, String.length_append] at hlength

theorem Passes.renames {a : BodyAtom} (h : Passes P facts d d' a) (ha : a.Within K)
    (hfacts : ∀ fact ∈ facts, ∀ s ∈ fact, s ∈ K) (hd : Renames P K d) : Renames P K d' := by
  cases a with
  | or branches => exact h.elim
  | and conjuncts => exact h.elim
  | pred t fn =>
    obtain ⟨rfl, -⟩ := h
    exact hd
  | neg_fact template =>
    obtain ⟨rfl, -⟩ := h
    exact hd
  | atom a =>
    intro ρ hρ σ hσ
    by_cases heq : is_eq a = true
    · simp only [Passes, if_pos heq] at h
      have hanswer := hP.unify_internal (P.match_dict_substitute d (a.at 1)) (P.match_dict_substitute d (a.at 2)) d
      rw [h] at hanswer
      have hside : ∀ i, i < 3 → ∀ s, a.at i = .str s → s ∈ K := fun i hi s hs =>
        ha s (hs ▸ at_mem (by rw [is_eq_length heq]; exact hi))
      obtain ⟨hold, hsides⟩ := (hanswer σ).1 hσ
      refine (hanswer _).2 ⟨hd ρ hρ σ hold, ?_⟩
      beta_reduce
      rw [hP.eval_substitute hold, hP.eval_substitute hold] at hsides
      rw [hP.eval_substitute (hd ρ hρ σ hold), hP.eval_substitute (hd ρ hρ σ hold), eval_comp hρ (hside 1 (by omega)),
        eval_comp hρ (hside 2 (by omega)), hsides]
    · by_cases hneq : is_neq a = true
      · simp only [Passes, if_neg heq, if_pos hneq] at h
        obtain ⟨rfl, -⟩ := h
        exact hd ρ hρ σ hσ
      · simp only [Passes, if_neg heq, if_neg hneq] at h
        obtain ⟨fact, hfact, hdict⟩ := h
        have hanswer := hP.unify_internal_atoms a fact.terms d
        rw [hdict] at hanswer
        obtain ⟨hold, heval⟩ := (hanswer σ).1 hσ
        refine (hanswer _).2 ⟨hd ρ hρ σ hold, ?_⟩
        beta_reduce at heval ⊢
        rw [Fact.eval_terms] at heval ⊢
        rw [Atom.eval_comp hρ ha, heval]
        calc fact.map ρ = fact.map id := List.map_congr_left fun s hs => hρ s (hfacts fact hfact s hs)
          _ = fact := List.map_id fact

theorem resolve_within {head : Atom} (hhead : Atom.Within K head) (hfacts : ∀ fact ∈ facts, ∀ s ∈ fact, s ∈ K)
    {path : List BodyAtom} (hflat : ∀ a ∈ path, a.Flat) (hpath : ∀ a ∈ path, a.Within K) (hd : Renames P K d) {f : Fact}
    (h : f ∈ resolve_extended P head path facts d) : f.length = head.length ∧ ∀ s ∈ f, s ∈ K := by
  induction path generalizing d with
  | nil =>
    rw [mem_resolve_nil, ground_fact, groundAtom_eq_some] at h
    refine ⟨by simpa [Fact.terms] using (congrArg List.length h).symm, fun s hs => ?_⟩
    have hmem : Term.str s ∈ head.map (P.match_dict_substitute d) := h ▸ List.mem_map_of_mem hs
    obtain ⟨t, ht, hts⟩ := List.mem_map.1 hmem
    exact mem_of_ground hP hd (fun s' hs' => hhead s' (hs' ▸ ht)) hts
  | cons a path ih =>
    rw [List.forall_mem_cons] at hflat hpath
    obtain ⟨d', hpass, hf⟩ := (mem_resolve_flat hflat.1).1 h
    exact ih hflat.2 hpath.2 (Passes.renames hP hpass hpath.1 hfacts hd) hf

end

/-! ## The finite universe -/

/-- The strings in an atom. -/
def Atom.strings (a : Atom) : List String := a.filterMap fun t => if is_ground t then some (t.eval fun _ => "") else none

theorem Atom.mem_strings {a : Atom} {s : String} (h : .str s ∈ a) : s ∈ Atom.strings a :=
  List.mem_filterMap.2 ⟨.str s, h, rfl⟩

/-- The strings a body atom can bind. -/
def BodyAtom.strings : BodyAtom → List String
  | .atom a => Atom.strings a
  | _ => []

/-- The strings in a rule. -/
def ExtendedRule.strings (r : ExtendedRule) : List String :=
  Atom.strings r.head ++ (bodyPaths r.body).flatten.flatMap BodyAtom.strings

/-- The facts with strings in `K` and at most `n` of them. -/
theorem finite_facts {K : Set String} (hK : K.Finite) (n : ℕ) : {f : Fact | f.length ≤ n ∧ ∀ s ∈ f, s ∈ K}.Finite := by
  have := hK.to_subtype
  refine ((List.finite_length_le K n).image (List.map Subtype.val)).subset fun f hf => ?_
  refine ⟨f.attach.map fun s => ⟨s.1, hf.2 s.1 s.2⟩, by simpa using hf.1, ?_⟩
  rw [List.map_map]
  exact f.attach_map_subtype_val

/-- The evaluation ends, whatever the rules. -/
theorem evaluate_ends {P : Pmatcher} (hP : P.FirstOrder) (rules : List ExtendedRule) (edb : List Fact) :
    ∃ fuel facts, evaluate_extended_naive P rules fuel edb = some facts := by
  let strings := edb.flatten ++ rules.flatMap ExtendedRule.strings
  let longest := (edb.map List.length).sum + (rules.map fun r => r.head.length).sum
  have hfinite := finite_facts (List.finite_toSet strings) longest
  simp only [evaluate_extended_naive_eq]
  refine saturate_ends hfinite.toFinset (fun r hr facts _ hfacts f hf => ?_) fun f hf => ?_
  · rw [derive, mem_resolve_paths] at hf
    obtain ⟨path, hpath, hf⟩ := hf
    have hrule : ∀ s ∈ r.strings, s ∈ strings := fun s hs => List.mem_append_right _ (List.mem_flatMap_of_mem hr hs)
    have hhead : Atom.Within {s | s ∈ strings} r.head := fun s hs =>
      hrule s (List.mem_append_left _ (Atom.mem_strings hs))
    have hlits : ∀ a ∈ path, a.Within {s | s ∈ strings} := by
      intro a ha
      cases a with
      | atom a =>
        intro s hs
        exact hrule s (List.mem_append_right _ (List.mem_flatMap.2 ⟨_, List.mem_flatten.2 ⟨path, hpath, ha⟩, Atom.mem_strings hs⟩))
      | _ => trivial
    obtain ⟨hlength, hmem⟩ := resolve_within hP hhead (fun fact hfact => ((Set.Finite.mem_toFinset _).1 (hfacts fact hfact)).2)
      (bodyPaths_flat hpath) hlits (renames_empty hP) hf
    have hle := List.le_sum_of_mem (List.mem_map_of_mem (f := fun r : ExtendedRule => r.head.length) hr)
    exact (Set.Finite.mem_toFinset _).2 ⟨by rw [hlength]; exact Nat.le_add_left_of_le hle, hmem⟩
  · have hle := List.le_sum_of_mem (List.mem_map_of_mem (f := List.length) hf)
    exact (Set.Finite.mem_toFinset _).2 ⟨Nat.le_add_right_of_le hle,
      fun s hs => List.mem_append_left _ (List.mem_flatten.2 ⟨f, hf, hs⟩)⟩

end LainLang.Datalog
