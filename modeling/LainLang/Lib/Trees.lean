import Mathlib.Data.Option.Basic
import Mathlib.Data.Sum.Basic
/-!
# Trees by their paths

A tree, possibly infinite, as what stands at the end of each path. A graph of
nodes, each with a shape and children, unfolds into trees, and two unfoldings are
equal when their nodes can be matched step by step.
-/

namespace LainLang.Lib

/-- The shape at the end of each path of labels, if the path is there. -/
abbrev PathTree (L S : Type) := List L → Option S

/-- Nodes whose shape says which children they have. -/
structure Nodes (L S N : Type) where
  shape : N → S
  child : N → L → Option N
  domain : ∀ {m m'}, shape m = shape m' → ∀ l, (child m l).isSome = (child m' l).isSome

namespace Nodes

variable {L S N : Type} (G : Nodes L S N)

/-- The tree with a node at its root and the trees `f` of its children. -/
def grow (f : N → PathTree L S) (m : N) : PathTree L S
  | [] => some (G.shape m)
  | l :: path => (G.child m l).bind fun c => f c path

/-- The tree of a node, where `head` gives it at once or the node to go on from. -/
def unfold (head : N → PathTree L S ⊕ N) : N → PathTree L S
  | n, [] => match head n with
    | .inl T => T []
    | .inr m => some (G.shape m)
  | n, l :: path => match head n with
    | .inl T => T (l :: path)
    | .inr m => (G.child m l).bind fun c => unfold head c path

variable {G} {head head' : N → PathTree L S ⊕ N}

theorem unfold_inl {n : N} {T : PathTree L S} (h : head n = .inl T) : G.unfold head n = T := by
  funext path
  cases path <;> simp only [unfold, h]

theorem unfold_inr {n m : N} (h : head n = .inr m) : G.unfold head n = G.grow (G.unfold head) m := by
  funext path
  cases path <;> simp only [unfold, grow, h]

/-- The tree of a node rests on its head alone. -/
theorem unfold_head {n n' : N} (h : head n = head n') : G.unfold head n = G.unfold head n' := by
  cases hn : head n with
  | inl T => rw [unfold_inl hn, unfold_inl (h ▸ hn)]
  | inr m => rw [unfold_inr hn, unfold_inr (h ▸ hn)]

theorem grow_eq_iff {f f' : N → PathTree L S} {m m' : N} : G.grow f m = G.grow f' m' ↔
    G.shape m = G.shape m' ∧ ∀ l c c', G.child m l = some c → G.child m' l = some c' → f c = f' c' := by
  constructor
  · intro h
    refine ⟨Option.some.inj (congrFun h []), fun l c c' hc hc' => funext fun path => ?_⟩
    simpa [grow, hc, hc'] using congrFun h (l :: path)
  · rintro ⟨hshape, hchildren⟩
    funext path
    cases path with
    | nil => exact congrArg some hshape
    | cons l path =>
      have hdomain := G.domain hshape l
      cases hc : G.child m l with
      | none =>
        cases hc' : G.child m' l with
        | none => simp only [grow, hc, hc', Option.bind_none]
        | some c' => simp [hc, hc'] at hdomain
      | some c =>
        cases hc' : G.child m' l with
        | none => simp [hc, hc'] at hdomain
        | some c' => simp only [grow, hc, hc', Option.bind_some, hchildren l c c' hc hc']

/-- Nodes that are matched, here and below, have the same tree. -/
theorem unfold_bisim {R : N → N → Prop} (hR : ∀ n n', R n n' → G.unfold head n = G.unfold head' n' ∨
    ∃ m m', head n = .inr m ∧ head' n' = .inr m' ∧ G.shape m = G.shape m' ∧
      ∀ l c c', G.child m l = some c → G.child m' l = some c' → R c c') {n n' : N} (h : R n n') :
    G.unfold head n = G.unfold head' n' := by
  funext path
  induction path generalizing n n' with
  | nil =>
    obtain heq | ⟨m, m', hm, hm', hshape, -⟩ := hR n n' h
    · rw [heq]
    · rw [unfold_inr hm, unfold_inr hm', grow, grow, hshape]
  | cons l path ih =>
    obtain heq | ⟨m, m', hm, hm', hshape, hchildren⟩ := hR n n' h
    · rw [heq]
    · rw [unfold_inr hm, unfold_inr hm', grow, grow]
      have hdomain := G.domain hshape l
      cases hc : G.child m l with
      | none =>
        cases hc' : G.child m' l with
        | none => rfl
        | some c' => simp [hc, hc'] at hdomain
      | some c =>
        cases hc' : G.child m' l with
        | none => simp [hc, hc'] at hdomain
        | some c' => exact ih (hchildren l c c' hc hc')

end Nodes

end LainLang.Lib
