import LainLang.Lib.Fuel
import Mathlib.Algebra.GroupWithZero.Nat
import Mathlib.Logic.Relation
/-!
# Worklists

A worklist takes items off the front of a queue until the queue is empty. An
item that was taken before is skipped; a new one is handed to `emit`, and the
items it leads to join the back of the queue.

Whatever the queue, `emit` sees each item that can be explored once and no other
(`worklist_spec`), and over a finite universe the loop ends (`worklist_ends`).
-/

namespace LainLang.Lib

variable {ε α β : Type}

/-- `stop` is the error of a run that is out of fuel. -/
def worklist [DecidableEq α] (stop : ε) (expand : α → List α) (emit : β → α → β) : ℕ → List α → List α → β → Except ε β
  | 0, _, _, _ => .error stop
  | _ + 1, [], _, acc => .ok acc
  | fuel + 1, current :: queue, visited, acc =>
    if current ∈ visited then worklist stop expand emit fuel queue visited acc
    else worklist stop expand emit fuel (queue ++ expand current) (current :: visited) (emit acc current)

/-- What a queue leads to without passing through a visited item. -/
inductive Explored (expand : α → List α) (queue visited : List α) : α → Prop where
  | start {x : α} (queued : x ∈ queue) (new : x ∉ visited) : Explored expand queue visited x
  | step {x y : α} (before : Explored expand queue visited x) (leads : y ∈ expand x) (new : y ∉ visited) :
      Explored expand queue visited y

section explored
variable {expand : α → List α} {queue visited : List α} {current x : α}

theorem Explored.new (h : Explored expand queue visited x) : x ∉ visited := by
  cases h with
  | start _ new => exact new
  | step _ _ new => exact new

theorem explored_nil : ¬ Explored expand [] visited x := by
  intro h
  induction h with
  | start queued _ => cases queued
  | step _ _ _ ih => exact ih

/-- A visited item at the front of the queue leads to nothing. -/
theorem explored_skip (hmem : current ∈ visited) :
    Explored expand (current :: queue) visited x ↔ Explored expand queue visited x := by
  constructor
  · intro h
    induction h with
    | start queued new =>
      rcases List.mem_cons.1 queued with rfl | queued
      · exact absurd hmem new
      · exact .start queued new
    | step _ leads new ih => exact ih.step leads new
  · intro h
    induction h with
    | start queued new => exact .start (List.mem_cons_of_mem _ queued) new
    | step _ leads new ih => exact ih.step leads new

/-- A new item at the front of the queue leads to itself and to what the rest of
the queue and its own successors lead to without it. -/
theorem explored_next (hnew : current ∉ visited) : Explored expand (current :: queue) visited x ↔
    x = current ∨ Explored expand (queue ++ expand current) (current :: visited) x := by
  have hfirst : Explored expand (current :: queue) visited current := .start List.mem_cons_self hnew
  constructor
  · intro h
    induction h with
    | @start x queued new =>
      by_cases hx : x = current
      · exact .inl hx
      · have hqueue : x ∈ queue := (List.mem_cons.1 queued).resolve_left hx
        exact .inr (.start (List.mem_append_left _ hqueue) (by simp [hx, new]))
    | @step x y _ leads new ih =>
      by_cases hy : y = current
      · exact .inl hy
      · have hy' : y ∉ current :: visited := by simp [hy, new]
        rcases ih with rfl | ih
        · exact .inr (.start (List.mem_append_right _ leads) hy')
        · exact .inr (ih.step leads hy')
  · rintro (rfl | h)
    · exact hfirst
    · induction h with
      | start queued new =>
        have new' := fun h => new (List.mem_cons_of_mem current h)
        rcases List.mem_append.1 queued with queued | leads
        · exact .start (List.mem_cons_of_mem _ queued) new'
        · exact hfirst.step leads new'
      | step _ leads new ih => exact ih.step leads fun h => new (List.mem_cons_of_mem current h)

/-- With nothing visited, the explored items are those at the end of a path. -/
theorem explored_iff_path :
    Explored expand queue [] x ↔ ∃ q ∈ queue, Relation.ReflTransGen (fun a b => b ∈ expand a) q x := by
  constructor
  · intro h
    induction h with
    | @start x queued _ => exact ⟨x, queued, .refl⟩
    | step _ leads _ ih =>
      obtain ⟨q, hq, hpath⟩ := ih
      exact ⟨q, hq, hpath.tail leads⟩
  · rintro ⟨q, hq, hpath⟩
    induction hpath with
    | refl => exact .start hq List.not_mem_nil
    | tail _ leads ih => exact ih.step leads List.not_mem_nil

end explored

/-! ## The loop -/

section worklist
variable [DecidableEq α] {stop : ε} {expand : α → List α} {emit : β → α → β}

theorem worklist_upto {bad : ε → Prop} (hbad : bad stop) {n m : ℕ} (hnm : n ≤ m) (queue visited : List α) (acc : β) :
    Upto bad (worklist stop expand emit n queue visited acc) (worklist stop expand emit m queue visited acc) := by
  induction n generalizing m queue visited acc with
  | zero => exact .of_bad hbad _
  | succ n ih =>
    obtain ⟨m, rfl⟩ := Nat.exists_eq_add_one.2 (by omega : 0 < m)
    cases queue with
    | nil => exact .refl _
    | cons current queue =>
      rw [worklist, worklist]
      split
      · exact ih (by omega) _ _ _
      · exact ih (by omega) _ _ _

/-- The items handed to `emit`, in order: each explored item once. -/
theorem worklist_spec {n : ℕ} {queue visited : List α} {acc result : β}
    (h : worklist stop expand emit n queue visited acc = .ok result) :
    ∃ order : List α, result = order.foldl emit acc ∧ order.Nodup ∧ ∀ x, x ∈ order ↔ Explored expand queue visited x := by
  induction n generalizing queue visited acc with
  | zero => cases h
  | succ n ih =>
    cases queue with
    | nil =>
      cases h
      exact ⟨[], rfl, List.nodup_nil, fun x => by simp [explored_nil]⟩
    | cons current queue =>
      rw [worklist] at h
      split at h
      · rename_i hmem
        obtain ⟨order, hresult, hnodup, hall⟩ := ih h
        exact ⟨order, hresult, hnodup, fun x => (hall x).trans (explored_skip hmem).symm⟩
      · rename_i hnew
        obtain ⟨order, hresult, hnodup, hall⟩ := ih h
        have hcurrent : current ∉ order := fun hmem => ((hall current).1 hmem).new List.mem_cons_self
        refine ⟨current :: order, hresult, List.nodup_cons.2 ⟨hcurrent, hnodup⟩, fun x => ?_⟩
        rw [List.mem_cons, hall, explored_next hnew]

/-- Each turn takes one more item of the universe or shortens the queue. -/
theorem worklist_ends {domain : List α} (hclosed : ∀ x ∈ domain, ∀ y ∈ expand x, y ∈ domain) {queue : List α}
    (hqueue : ∀ q ∈ queue, q ∈ domain) (visited : List α) (acc : β) :
    ∃ n result, worklist stop expand emit n queue visited acc = .ok result := by
  induction hk : (domain.filter (· ∉ visited)).length using Nat.strongRecOn generalizing queue visited acc with
  | ind k ihk =>
    induction queue generalizing acc with
    | nil => exact ⟨1, acc, rfl⟩
    | cons current queue ihq =>
      rw [List.forall_mem_cons] at hqueue
      by_cases hmem : current ∈ visited
      · obtain ⟨n, result, h⟩ := ihq hqueue.2 acc
        exact ⟨n + 1, result, by rw [worklist, if_pos hmem, h]⟩
      · have hfewer : (domain.filter (· ∉ current :: visited)).length < k := by
          have hfilter : domain.filter (· ∉ current :: visited) =
              (domain.filter (· ∉ visited)).filter (· ≠ current) := by
            rw [List.filter_filter]
            exact List.filter_congr fun x _ => by simp
          rw [← hk, hfilter, List.length_filter_lt_length_iff_exists]
          exact ⟨current, by simp [hqueue.1, hmem], by simp⟩
        have hnext : ∀ q ∈ queue ++ expand current, q ∈ domain := by
          intro q hq
          rcases List.mem_append.1 hq with hq | hq
          · exact hqueue.2 q hq
          · exact hclosed current hqueue.1 q hq
        obtain ⟨n, result, h⟩ := ihk _ hfewer hnext (current :: visited) (emit acc current) rfl
        exact ⟨n + 1, result, by rw [worklist, if_neg hmem, h]⟩

/-- A turn takes an item off the queue, and only the first turn of an item puts items
on it. -/
theorem worklist_within {domain : List α} (hnodup : domain.Nodup) (hclosed : ∀ x ∈ domain, ∀ y ∈ expand x, y ∈ domain)
    {n : ℕ} {queue visited : List α} (hqueue : ∀ q ∈ queue, q ∈ domain)
    (hn : queue.length + ((domain.filter (· ∉ visited)).map fun x => (expand x).length).sum < n) (acc : β) :
    ∃ result, worklist stop expand emit n queue visited acc = .ok result := by
  induction n generalizing queue visited acc with
  | zero => omega
  | succ n ih =>
    cases queue with
    | nil => exact ⟨acc, rfl⟩
    | cons current queue =>
      rw [List.forall_mem_cons] at hqueue
      rw [List.length_cons] at hn
      rw [worklist]
      split
      · exact ih hqueue.2 (by omega) acc
      · rename_i hnew
        have hmem : current ∈ domain.filter (· ∉ visited) := by simp [hqueue.1, hnew]
        have hfilter : domain.filter (· ∉ current :: visited) = (domain.filter (· ∉ visited)).erase current := by
          rw [List.Nodup.erase_eq_filter (hnodup.filter _), List.filter_filter]
          exact List.filter_congr fun x _ => by by_cases hx : x = current <;> simp [hx]
        have hsum := ((List.perm_cons_erase hmem).map fun x => (expand x).length).sum_nat
        rw [List.map_cons, List.sum_cons, ← hfilter] at hsum
        refine ih ?_ ?_ (emit acc current)
        · intro q hq
          exact (List.mem_append.1 hq).elim (hqueue.2 q) (hclosed current hqueue.1 q)
        · rw [List.length_append]
          omega

end worklist

end LainLang.Lib
