import LainLang.Datalog.Propagator
import LainLang.Lib.Joins
import Mathlib.Data.List.Dedup
import Mathlib.Data.Set.Lattice
/-!
# Fact sets as sets

Merging fact sets is the union of what they hold, and keeps the left list as it
is. Their equality compares lengths and looks for each fact of the left one in
the right one, which is set equality as long as repeated facts do not make up
for facts that the left one lacks.
-/
open LainLang.Lib

namespace LainLang.Datalog

/-- `fact_sets_equal`: as long as each other, and every fact of the first in the second. -/
def fact_sets_equal (P : Pmatcher) (a b : FactSet) : Bool :=
  decide (a.facts.length = b.facts.length) && a.facts.all fun fa => facts_contains P b.facts fa

/-- The facts, whatever their order and number. -/
def FactSet.contents (a : FactSet) : Set Fact := { f | f ∈ a.facts }

/-! ## Merging -/

section
variable {P : Pmatcher}

theorem merge_prefix (a b : FactSet) : a.facts <+: (merge_fact_sets P a b).facts := List.prefix_append ..

variable (hP : P.UnifiesEqual)
include hP

theorem mem_new_facts {a b : FactSet} {f : Fact} :
    f ∈ b.facts.filter (fun f => !facts_contains P a.facts f) ↔ f ∈ b.facts ∧ f ∉ a.facts := by
  rw [List.mem_filter, Bool.not_eq_true', ← Bool.not_eq_true, facts_contains_of_unifies hP]

theorem merge_contents (a b : FactSet) : (merge_fact_sets P a b).contents = a.contents ∪ b.contents := by
  ext f
  change f ∈ a.facts ++ _ ↔ f ∈ a.facts ∨ f ∈ b.facts
  rw [List.mem_append, mem_new_facts hP]
  tauto

theorem merge_nodup {a b : FactSet} (ha : a.facts.Nodup) (hb : b.facts.Nodup) : (merge_fact_sets P a b).facts.Nodup := by
  refine List.nodup_append'.2 ⟨ha, hb.filter _, ?_⟩
  intro f hf hnew
  exact ((mem_new_facts hP).1 hnew).2 hf

/-- The merge of a tree of fact sets without repeated facts has none either. -/
theorem eval_nodup {t : MergeTree FactSet} (h : ∀ set ∈ t.leaves, set.facts.Nodup) :
    (t.eval (merge_fact_sets P)).facts.Nodup := by
  have hkeep : ∀ a b : FactSet, a.facts.Nodup → b.facts.Nodup → (merge_fact_sets P a b).facts.Nodup :=
    fun a b => merge_nodup hP
  exact t.eval_invariant (p := fun set => set.facts.Nodup) hkeep h

theorem mem_eval {t : MergeTree FactSet} {f : Fact} :
    f ∈ (t.eval (merge_fact_sets P)).facts ↔ ∃ set ∈ t.leaves, f ∈ set.facts := by
  have hsets : (t.eval (merge_fact_sets P)).contents = sSup (FactSet.contents '' t.leaves) :=
    (t.isLUB_eval (merge_contents hP)).unique (isLUB_sSup _)
  have hf := Set.ext_iff.1 hsets f
  rw [Set.sSup_eq_sUnion, Set.sUnion_image] at hf
  simpa [FactSet.contents] using hf

/-- However a list of fact sets without repeated facts is merged, the result has
no repeated facts and is their union, and a merge goes on from its left side. -/
theorem merge_any_order (sets : List FactSet) (hsets : ∀ set ∈ sets, set.facts.Nodup) (t : MergeTree FactSet)
    (ht : ∀ set, set ∈ t.leaves ↔ set ∈ sets) :
    (t.eval (merge_fact_sets P)).facts.Nodup ∧
      (∀ f, f ∈ (t.eval (merge_fact_sets P)).facts ↔ ∃ set ∈ sets, f ∈ set.facts) ∧
      ∀ a b : FactSet, a.facts <+: (merge_fact_sets P a b).facts := by
  refine ⟨eval_nodup hP fun set hset => hsets set ((ht set).1 hset), fun f => ?_, merge_prefix⟩
  rw [mem_eval hP]
  simp only [ht]

end

/-- Three fact sets merged from the right, the last of them twice. -/
theorem merge_any_order_three : (MergeTree.eval (merge_fact_sets firstOrder)
    (.merge (.leaf ⟨[["e", "a"]]⟩) (.merge (.merge (.leaf ⟨[["e", "b"], ["e", "a"]]⟩) (.leaf ⟨[["e", "c"]]⟩))
      (.leaf ⟨[["e", "c"]]⟩)))).facts.Nodup := by
  refine (merge_any_order firstOrder_firstOrder.unifiesEqual
    [⟨[["e", "a"]]⟩, ⟨[["e", "b"], ["e", "a"]]⟩, ⟨[["e", "c"]]⟩] ?_ _ fun set => ?_).1
  · intro set hset
    simp only [List.mem_cons, List.not_mem_nil, or_false] at hset
    rcases hset with rfl | rfl | rfl <;> decide
  · simp only [MergeTree.leaves, Set.mem_union, Set.mem_singleton_iff, List.mem_cons, List.not_mem_nil, or_false]
    tauto

/-! ## Equality -/

/-- What the comment of `fact_sets_equal` means by equal: the same facts. -/
def SameFacts (a b : FactSet) : Prop := ∀ f, f ∈ a.facts ↔ f ∈ b.facts

/-- How many entries repeat an earlier one. -/
def repeats (a : FactSet) : ℕ := a.facts.length - a.facts.dedup.length

/-- The facts of `b` that `a` lacks. -/
def missing (a b : FactSet) : List Fact := b.facts.dedup.filter fun f => f ∉ a.facts

/-- If `a` has no fact that `b` lacks, then what it repeats more than `b` makes up
in number for what it is missing only where there is nothing to make up for. -/
def RepeatsTell (a b : FactSet) : Prop :=
  a.facts ⊆ b.facts → (repeats a = repeats b + (missing a b).length ↔ missing a b = [])

instance (a b : FactSet) : Decidable (RepeatsTell a b) := inferInstanceAs (Decidable (_ → _))

theorem length_eq_dedup_add (a : FactSet) : a.facts.length = a.facts.dedup.length + repeats a := by
  have hle : a.facts.dedup.length ≤ a.facts.length := (List.dedup_sublist a.facts).length_le
  unfold repeats
  omega

theorem missing_eq_nil_iff {a b : FactSet} : missing a b = [] ↔ b.facts ⊆ a.facts := by
  unfold missing
  rw [List.filter_eq_nil_iff]
  simp [List.subset_def]

/-- The facts of `b` are those of `a` and those `a` is missing. -/
theorem dedup_length_missing {a b : FactSet} (h : a.facts ⊆ b.facts) :
    b.facts.dedup.length = a.facts.dedup.length + (missing a b).length := by
  have hhave : (b.facts.dedup.filter (· ∈ a.facts)).Perm a.facts.dedup := by
    refine (List.perm_ext_iff_of_nodup (b.facts.nodup_dedup.filter _) a.facts.nodup_dedup).2 fun f => ?_
    simp only [List.mem_filter, List.mem_dedup, decide_eq_true_eq]
    exact ⟨And.right, fun hf => ⟨h hf, hf⟩⟩
  rw [← hhave.length_eq, missing, ← List.length_append]
  simpa using (List.filter_append_perm (· ∈ a.facts) b.facts.dedup).length_eq.symm

theorem fact_sets_equal_iff {P : Pmatcher} (hP : P.UnifiesEqual) {a b : FactSet} :
    fact_sets_equal P a b = true ↔ a.facts.length = b.facts.length ∧ a.facts ⊆ b.facts := by
  unfold fact_sets_equal
  rw [Bool.and_eq_true, decide_eq_true_eq, List.all_eq_true]
  simp only [facts_contains_of_unifies hP]
  rfl

/-- Without repeats there is nothing to make up with. -/
theorem repeatsTell_of_nodup {a b : FactSet} (ha : a.facts.Nodup) (hb : b.facts.Nodup) : RepeatsTell a b := by
  have hrepeats : ∀ c : FactSet, c.facts.Nodup → repeats c = 0 := by
    intro c hc
    rw [repeats, hc.dedup, Nat.sub_self]
  intro _
  rw [hrepeats a ha, hrepeats b hb, Nat.zero_add, eq_comm, List.length_eq_zero_iff]

/-- Equality of fact sets is set equality on two fact sets exactly if their repeats
tell. -/
theorem equal_iff_same_iff {P : Pmatcher} (hP : P.UnifiesEqual) {a b : FactSet} :
    (fact_sets_equal P a b = true ↔ SameFacts a b) ↔ RepeatsTell a b := by
  have hsame : SameFacts a b ↔ a.facts ⊆ b.facts ∧ b.facts ⊆ a.facts := by
    constructor
    · exact fun h => ⟨fun f => (h f).1, fun f => (h f).2⟩
    · exact fun h f => ⟨fun hf => h.1 hf, fun hf => h.2 hf⟩
  rw [fact_sets_equal_iff hP, hsame]
  by_cases hsub : a.facts ⊆ b.facts
  · have ha := length_eq_dedup_add a
    have hb := length_eq_dedup_add b
    have hdedup := dedup_length_missing hsub
    have hlength : a.facts.length = b.facts.length ↔ repeats a = repeats b + (missing a b).length := by omega
    simp only [RepeatsTell, hsub, and_true, true_and, forall_const, hlength, missing_eq_nil_iff]
  · simp [RepeatsTell, hsub]

/-- `fact_sets_equal` says whether two fact sets hold the same facts exactly if
their repeats tell; it is symmetric between those for which they do, and always
transitive. -/
theorem fact_sets_equal_sound_iff {P : Pmatcher} (hP : P.UnifiesEqual) (a b c : FactSet) :
    ((fact_sets_equal P a b = true ↔ SameFacts a b) ↔ RepeatsTell a b) ∧
      (RepeatsTell a b → RepeatsTell b a → fact_sets_equal P a b = fact_sets_equal P b a) ∧
      (fact_sets_equal P a b = true → fact_sets_equal P b c = true → fact_sets_equal P a c = true) := by
  refine ⟨equal_iff_same_iff hP, fun hab hba => ?_, fun hab hbc => ?_⟩
  · rw [Bool.eq_iff_iff, (equal_iff_same_iff hP).2 hab, (equal_iff_same_iff hP).2 hba]
    exact forall_congr' fun f => iff_comm
  · rw [fact_sets_equal_iff hP] at hab hbc ⊢
    exact ⟨hab.1.trans hbc.1, List.Subset.trans hab.2 hbc.2⟩

theorem fact_sets_equal_sound_iff_edges : fact_sets_equal firstOrder ⟨[["e", "a"]]⟩ ⟨[["e", "b"]]⟩ = true ↔
    SameFacts ⟨[["e", "a"]]⟩ ⟨[["e", "b"]]⟩ :=
  (fact_sets_equal_sound_iff firstOrder_firstOrder.unifiesEqual ⟨[["e", "a"]]⟩ ⟨[["e", "b"]]⟩ ⟨[]⟩).1.2
    (repeatsTell_of_nodup (by decide) (by decide))

/-- A fact listed twice is taken for two facts. -/
theorem fact_sets_equal_not_same : ¬ ∀ P : Pmatcher, P.UnifiesEqual → ∀ a b : FactSet,
    fact_sets_equal P a b = true ↔ SameFacts a b := by
  intro h
  have hP := firstOrder_firstOrder.unifiesEqual
  have hequal : fact_sets_equal firstOrder ⟨[["e", "a"], ["e", "a"]]⟩ ⟨[["e", "a"], ["e", "b"]]⟩ = true :=
    (fact_sets_equal_iff hP).2 ⟨rfl, by simp⟩
  have hsame := (h firstOrder hP _ _).1 hequal ["e", "b"]
  exact absurd (hsame.2 (by simp)) (by decide)

end LainLang.Datalog
