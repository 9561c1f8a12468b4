import Mathlib.Order.Bounds.Basic
/-!
# Merging in any order

A merge tree says in which order and grouping some values are merged, a value
any number of times. An operation that is the join of what its values stand for
merges every tree to the least upper bound of the leaves.
-/

namespace LainLang.Lib

/-- A way to merge values: in which order, grouped how, and how often each. -/
inductive MergeTree (A : Type) where
  | leaf (a : A)
  | merge (left right : MergeTree A)

namespace MergeTree
variable {A L : Type}

/-- The values that are merged. -/
def leaves : MergeTree A → Set A
  | leaf a => {a}
  | merge left right => left.leaves ∪ right.leaves

/-- The merge done with an operation. -/
def eval (op : A → A → A) : MergeTree A → A
  | leaf a => a
  | merge left right => op (left.eval op) (right.eval op)

/-- What `op` keeps, holds of every merge of values it holds of. -/
theorem eval_invariant {op : A → A → A} {p : A → Prop} (hop : ∀ a b, p a → p b → p (op a b)) (t : MergeTree A)
    (h : ∀ a ∈ t.leaves, p a) : p (t.eval op) := by
  induction t with
  | leaf a => exact h a rfl
  | merge left right ihl ihr => exact hop _ _ (ihl fun a ha => h a (.inl ha)) (ihr fun a ha => h a (.inr ha))

variable [SemilatticeSup L] {op : A → A → A} {content : A → L}

/-- A merge is worth the least upper bound of its leaves. -/
theorem isLUB_eval (hop : ∀ a b, content (op a b) = content a ⊔ content b) (t : MergeTree A) :
    IsLUB (content '' t.leaves) (content (t.eval op)) := by
  induction t with
  | leaf a => simp [leaves, eval]
  | merge left right ihl ihr =>
    rw [leaves, eval, hop, Set.image_union]
    exact ihl.union ihr

end MergeTree

end LainLang.Lib
