import Mathlib.Algebra.Order.Ring.Rat
import Mathlib.Data.Set.Finite.Lemmas
import Mathlib.Data.Set.Finite.List
import Mathlib.Order.Lattice.Nat
import Mathlib.Order.WithBot
import Mathlib.Order.CompletePartialOrder
/-!
# The strongest value of a latest-win cell

A cell of the specialized runtime holds a set of layered values, each with a
vector clock and a walltime. The `strongest_value` handler reduces the set, in
whatever order the set enumerates: a newer value wins, a tie is a contradiction,
and a contradiction is only superseded by a strictly newer value.

The base value and the walltime of the result are a function of the set: those
of its latest value (`strongest_picks_latest`). The vector clock is not: the branch that keeps a
contradiction returns it as it stands, without the clock of the value it drops
(`strongest_order_dependent`). `strongest_order_independent_iff` says exactly
for which sets the order does not matter.

A layered procedure applies the base function to the base values and each
layer's handler to that layer; `merge_vector_clocks` is the pointwise maximum.
-/

namespace LainLang.Runtime

/-- A vector clock: the counter of each source it has a channel for. -/
abbrev VectorClock : Type := String → WithBot ℕ

/-- The clock with these channels. -/
def construct_vector_clock (channels : List (String × ℕ)) : VectorClock :=
  fun source => channels.lookup source

/-- `merge_vector_clocks`: the pointwise maximum. -/
def merge_vector_clocks (a b : VectorClock) : VectorClock := a ⊔ b

/-- The base of a layered value: `the_contradiction` or a plain value. -/
inductive Base (β : Type) where
  | the_contradiction
  | value (v : β)
deriving DecidableEq, Repr

/-- `is_contradiction` of a base value. -/
def Base.is_contradiction {β : Type} : Base β → Bool
  | the_contradiction => true
  | value _ => false

/-- A layered value that carries a vector clock and a walltime. -/
@[ext] structure LayeredValue (β : Type) where
  base : Base β
  walltime : ℚ
  vector_clock : VectorClock

variable {β : Type}

/-- `merge_vector_clock_from`: the base of the first argument, and what the
handlers of the two layers make of both. -/
def merge_vector_clock_from (a b : LayeredValue β) : LayeredValue β :=
  { base := a.base
    walltime := max a.walltime b.walltime
    vector_clock := merge_vector_clocks a.vector_clock b.vector_clock }

/-- The reducer of the handler. -/
def supersede (acc value : LayeredValue β) : LayeredValue β :=
  if acc.base.is_contradiction then
    -- only a strictly newer value supersedes a layered contradiction
    if value.walltime > acc.walltime then merge_vector_clock_from value acc else acc
  else if value.walltime > acc.walltime then merge_vector_clock_from value acc
  else if value.walltime < acc.walltime then merge_vector_clock_from acc value
  else
    { base := .the_contradiction
      walltime := acc.walltime
      vector_clock := merge_vector_clocks acc.vector_clock value.vector_clock }

/-- The `strongest_value` handler on a set in the order it enumerates; `none`
is `the_nothing`. -/
def strongest_value : List (LayeredValue β) → Option (LayeredValue β)
  | [] => none
  | first :: rest => some (rest.foldl supersede first)

/-! ## One step of the reduce -/

theorem base_eq_of_is_contradiction {b : Base β} (h : b.is_contradiction = true) : b = .the_contradiction := by
  cases b with
  | the_contradiction => rfl
  | value v => cases h

/-- What a step does: the newer value wins, an older one is merged or dropped,
a tie is a contradiction. -/
theorem supersede_cases (acc value : LayeredValue β) :
    (acc.walltime < value.walltime ∧ supersede acc value = merge_vector_clock_from value acc) ∨
    (acc.base = .the_contradiction ∧ value.walltime ≤ acc.walltime ∧ supersede acc value = acc) ∨
    (acc.base.is_contradiction = false ∧ value.walltime < acc.walltime ∧
      supersede acc value = merge_vector_clock_from acc value) ∨
    (acc.base.is_contradiction = false ∧ value.walltime = acc.walltime ∧
      supersede acc value = ⟨.the_contradiction, acc.walltime, acc.vector_clock ⊔ value.vector_clock⟩) := by
  unfold supersede
  rcases lt_trichotomy acc.walltime value.walltime with newer | tie | older
  · left
    simp [newer]
  · right
    by_cases hc : acc.base.is_contradiction = true
    · left
      have hb := base_eq_of_is_contradiction hc
      simp [hb, tie, Base.is_contradiction]
    · right; right
      simp [hc, tie, merge_vector_clocks]
  · right
    have hn : ¬ value.walltime > acc.walltime := not_lt.2 older.le
    by_cases hc : acc.base.is_contradiction = true
    · left
      have hb := base_eq_of_is_contradiction hc
      simp [hb, hn, older.le, Base.is_contradiction]
    · right; left
      simp [hc, hn, older]

/-- A step keeps the later walltime. -/
theorem supersede_walltime (acc value : LayeredValue β) :
    (supersede acc value).walltime = max acc.walltime value.walltime := by
  obtain ⟨hw, h⟩ | ⟨-, hw, h⟩ | ⟨-, hw, h⟩ | ⟨-, hw, h⟩ := supersede_cases acc value
  · rw [h, merge_vector_clock_from, max_comm]
  · rw [h, max_eq_left hw]
  · rw [h, merge_vector_clock_from]
  · rw [h, hw, max_self]

/-- A step never forgets a channel of the accumulator. -/
theorem le_supersede (acc value : LayeredValue β) :
    acc.vector_clock ≤ (supersede acc value).vector_clock := by
  obtain ⟨-, h⟩ | ⟨-, -, h⟩ | ⟨-, -, h⟩ | ⟨-, -, h⟩ := supersede_cases acc value
  · rw [h]; exact le_sup_right
  · rw [h]
  · rw [h]; exact le_sup_left
  · rw [h]; exact le_sup_left

/-- A step adds no channel that neither has. -/
theorem supersede_le (acc value : LayeredValue β) :
    (supersede acc value).vector_clock ≤ acc.vector_clock ⊔ value.vector_clock := by
  obtain ⟨-, h⟩ | ⟨-, -, h⟩ | ⟨-, -, h⟩ | ⟨-, -, h⟩ := supersede_cases acc value
  · rw [h]; exact le_of_eq (sup_comm _ _)
  · rw [h]; exact le_sup_left
  · rw [h]; exact le_refl _
  · rw [h]

/-- The clock of the new value is merged, unless a contradiction that is as
recent as the value drops it. -/
theorem value_le_supersede {acc value : LayeredValue β}
    (h : acc.base = .the_contradiction → acc.walltime < value.walltime) :
    value.vector_clock ≤ (supersede acc value).vector_clock := by
  obtain ⟨-, hs⟩ | ⟨hb, hw, -⟩ | ⟨-, -, hs⟩ | ⟨-, -, hs⟩ := supersede_cases acc value
  · rw [hs]; exact le_sup_left
  · exact absurd (h hb) (not_lt.2 hw)
  · rw [hs]; exact le_sup_right
  · rw [hs]; exact le_sup_right

/-- A contradiction drops a value that is not newer. -/
theorem supersede_blocked {acc value : LayeredValue β} (hb : acc.base = .the_contradiction)
    (hw : value.walltime ≤ acc.walltime) : supersede acc value = acc := by
  simp [supersede, hb, Base.is_contradiction, not_lt.2 hw]

/-! ## What the base value and the walltime are -/

/-- The base value the most recent values agree on: the only one's, or a
contradiction. -/
def agreed : List (LayeredValue β) → Base β
  | [a] => a.base
  | _ => .the_contradiction

theorem agreed_perm {l l' : List (LayeredValue β)} (h : l.Perm l') : agreed l = agreed l' := by
  cases l with
  | nil => rw [h.nil_eq]
  | cons a l =>
    cases l with
    | nil => rw [List.singleton_perm.1 h]
    | cons b l =>
      have hlen := h.length_eq
      cases l' with
      | nil => simp at hlen
      | cons a' l' =>
        cases l' with
        | nil => simp at hlen
        | cons b' l' => rfl

/-- The values of a set that have the walltime `w`. -/
def at_walltime (w : ℚ) (l : List (LayeredValue β)) : List (LayeredValue β) :=
  l.filter (fun v => v.walltime = w)

/-- `acc` is a strongest value of the values `seen`, as to its base value and
its walltime. -/
structure Strongest (seen : List (LayeredValue β)) (acc : LayeredValue β) : Prop where
  newest : ∀ v ∈ seen, v.walltime ≤ acc.walltime
  attained : ∃ v ∈ seen, v.walltime = acc.walltime
  base : acc.base = agreed (at_walltime acc.walltime seen)

theorem strongest_first (first : LayeredValue β) : Strongest [first] first where
  newest := by simp
  attained := by simp
  base := by simp [at_walltime, agreed]

theorem at_walltime_snoc (w : ℚ) (seen : List (LayeredValue β)) (value : LayeredValue β) :
    at_walltime w (seen ++ [value]) = at_walltime w seen ++ (if value.walltime = w then [value] else []) := by
  by_cases h : value.walltime = w
  · simp [at_walltime, h]
  · simp [at_walltime, h]

/-- A tie leaves at least two values with the latest walltime. -/
theorem agreed_tie {l : List (LayeredValue β)} (value : LayeredValue β) (h : l ≠ []) :
    agreed (l ++ [value]) = .the_contradiction := by
  cases l with
  | nil => exact absurd rfl h
  | cons a l =>
    cases l with
    | nil => rfl
    | cons b l => rfl

theorem Strongest.at_walltime_ne_nil {seen : List (LayeredValue β)} {acc : LayeredValue β} (h : Strongest seen acc) :
    at_walltime acc.walltime seen ≠ [] := by
  obtain ⟨v, hv, hvw⟩ := h.attained
  exact List.ne_nil_of_mem (List.mem_filter.2 ⟨hv, by simpa using hvw⟩)

theorem Strongest.base_step {seen : List (LayeredValue β)} {acc : LayeredValue β} (h : Strongest seen acc)
    (value : LayeredValue β) :
    (supersede acc value).base = agreed (at_walltime (supersede acc value).walltime (seen ++ [value])) := by
  rw [at_walltime_snoc, supersede_walltime]
  rcases lt_trichotomy acc.walltime value.walltime with newer | tie | older
  · -- nothing seen so far is as recent as the value
    have hnone : at_walltime value.walltime seen = [] := by
      apply List.filter_eq_nil_iff.2
      intro v hv
      have hle := h.newest v hv
      simpa using (lt_of_le_of_lt hle newer).ne
    obtain ⟨-, hs⟩ | ⟨-, hw, -⟩ | ⟨-, hw, -⟩ | ⟨-, hw, -⟩ := supersede_cases acc value
    · rw [hs, max_eq_right newer.le, hnone]
      simp [merge_vector_clock_from, agreed]
    · exact absurd newer (not_lt.2 hw)
    · exact absurd newer (not_lt.2 hw.le)
    · exact absurd newer (not_lt.2 hw.le)
  · rw [← tie, max_self, if_pos rfl, agreed_tie value h.at_walltime_ne_nil]
    obtain ⟨hw, -⟩ | ⟨hb, -, hs⟩ | ⟨-, hw, -⟩ | ⟨-, -, hs⟩ := supersede_cases acc value
    · exact absurd tie hw.ne
    · rw [hs, hb]
    · exact absurd tie hw.ne'
    · rw [hs]
  · rw [max_eq_left older.le, if_neg older.ne, List.append_nil, ← h.base]
    obtain ⟨hw, -⟩ | ⟨-, -, hs⟩ | ⟨-, -, hs⟩ | ⟨-, hw, -⟩ := supersede_cases acc value
    · exact absurd hw (not_lt.2 older.le)
    · rw [hs]
    · rw [hs, merge_vector_clock_from]
    · exact absurd hw older.ne

theorem Strongest.step {seen : List (LayeredValue β)} {acc : LayeredValue β} (h : Strongest seen acc)
    (value : LayeredValue β) : Strongest (seen ++ [value]) (supersede acc value) where
  newest := by
    intro v hv
    rw [supersede_walltime]
    rcases List.mem_append.1 hv with hv | hv
    · exact le_max_of_le_left (h.newest v hv)
    · rw [List.mem_singleton.1 hv]
      exact le_max_right _ _
  attained := by
    rw [supersede_walltime]
    rcases le_total value.walltime acc.walltime with hw | hw
    · obtain ⟨v, hv, hvw⟩ := h.attained
      exact ⟨v, by simp [hv], by rw [max_eq_left hw, hvw]⟩
    · exact ⟨value, by simp, by rw [max_eq_right hw]⟩
  base := h.base_step value

theorem Strongest.run {seen : List (LayeredValue β)} {acc : LayeredValue β} (h : Strongest seen acc)
    (values : List (LayeredValue β)) : Strongest (seen ++ values) (values.foldl supersede acc) := by
  induction values generalizing seen acc with
  | nil => simpa using h
  | cons value values ih => simpa using ih (h.step value)

/-- A strongest value of the same values in another order has the same base
value and walltime. -/
theorem Strongest.unique {l l' : List (LayeredValue β)} {a a' : LayeredValue β} (hp : l.Perm l')
    (h : Strongest l a) (h' : Strongest l' a') : a.base = a'.base ∧ a.walltime = a'.walltime := by
  have hw : a.walltime = a'.walltime := by
    obtain ⟨v, hv, hvw⟩ := h.attained
    obtain ⟨v', hv', hvw'⟩ := h'.attained
    apply le_antisymm
    · rw [← hvw]
      exact h'.newest v (hp.subset hv)
    · rw [← hvw']
      exact h.newest v' (hp.symm.subset hv')
  refine ⟨?_, hw⟩
  rw [h.base, h'.base, hw]
  exact agreed_perm (hp.filter _)

/-- The base value and the walltime of the strongest value do not depend on the
order of the set. -/
theorem strongest_base_walltime {l l' : List (LayeredValue β)} (hp : l.Perm l') :
    (strongest_value l).map (fun v => (v.base, v.walltime)) =
      (strongest_value l').map (fun v => (v.base, v.walltime)) := by
  cases l with
  | nil => rw [hp.nil_eq]
  | cons a l =>
    cases l' with
    | nil => exact absurd hp.length_eq (by simp)
    | cons a' l' =>
      obtain ⟨hb, hw⟩ := Strongest.unique hp ((strongest_first a).run l) ((strongest_first a').run l')
      simp [strongest_value, hb, hw]

/-- The base value several values of one walltime agree on: that of the only
one, or a contradiction. -/
theorem agreed_cases {l : List (LayeredValue β)} (h : l ≠ []) :
    (∃ v, l = [v] ∧ agreed l = v.base) ∨ 2 ≤ l.length ∧ agreed l = .the_contradiction := by
  cases l with
  | nil => exact absurd rfl h
  | cons a l =>
    cases l with
    | nil => exact .inl ⟨a, rfl, rfl⟩
    | cons b l => exact .inr ⟨by simp, rfl⟩

/-- The strongest value of a set that is not empty, in whatever order the set
enumerates, has the greatest walltime of the set, and the base of the only value
with that walltime, or the contradiction if there are several. -/
theorem strongest_picks_latest (first : LayeredValue β) (rest : List (LayeredValue β)) :
    ∃ result, strongest_value (first :: rest) = some result ∧
      IsGreatest {w | ∃ v ∈ first :: rest, v.walltime = w} result.walltime ∧
      ((∃ v, at_walltime result.walltime (first :: rest) = [v] ∧ result.base = v.base) ∨
        2 ≤ (at_walltime result.walltime (first :: rest)).length ∧ result.base = .the_contradiction) := by
  have h : Strongest (first :: rest) (rest.foldl supersede first) := (strongest_first first).run rest
  refine ⟨_, rfl, ⟨h.attained, ?_⟩, ?_⟩
  · rintro w ⟨v, hv, rfl⟩
    exact h.newest v hv
  · rw [h.base]
    exact agreed_cases h.at_walltime_ne_nil

/-! ## Which clocks a contradiction drops -/

/-- Everything the vector clocks of a list of values know. -/
def joined (l : List (LayeredValue β)) : VectorClock :=
  l.foldr (fun v clock => v.vector_clock ⊔ clock) ⊥

theorem joined_le {l : List (LayeredValue β)} {c : VectorClock} :
    joined l ≤ c ↔ ∀ v ∈ l, v.vector_clock ≤ c := by
  induction l with
  | nil => simp [joined]
  | cons v l ih =>
    have h : joined (v :: l) = v.vector_clock ⊔ joined l := rfl
    rw [h, sup_le_iff, ih]
    simp

theorem le_joined {l : List (LayeredValue β)} {v : LayeredValue β} (h : v ∈ l) :
    v.vector_clock ≤ joined l :=
  joined_le.1 (le_refl _) v h

/-- Values whose reduce is a contradiction of walltime `w`: one that already is
one, or two of the same walltime. -/
inductive Blocks (w : ℚ) : List (LayeredValue β) → Prop where
  | given (a : LayeredValue β) (hb : a.base = .the_contradiction) (ha : a.walltime = w) : Blocks w [a]
  | tie (a b : LayeredValue β) (ha : a.walltime = w) (hb : b.walltime = w) : Blocks w [a, b]

/-- Whenever some values of the set make a contradiction, every other value that
is not newer than it has a vector clock that these values and the values newer
than the contradiction cover. -/
def Covered (set : List (LayeredValue β)) : Prop :=
  ∀ w block rest, Blocks w block → set.Perm (block ++ rest) →
    ∀ v ∈ rest, v.walltime ≤ w →
      v.vector_clock ≤ joined block ⊔ joined (set.filter (fun u => w < u.walltime))

theorem Covered.perm {l l' : List (LayeredValue β)} (h : Covered l) (hp : l'.Perm l) : Covered l' := by
  intro w block rest hblock hset v hv hw
  have hle := h w block rest hblock (hp.symm.trans hset) v hv hw
  have hnewer : joined (l.filter (fun u => w < u.walltime)) ≤ joined (l'.filter (fun u => w < u.walltime)) := by
    apply joined_le.2
    intro u hu
    exact le_joined ((hp.symm.filter _).subset hu)
  exact hle.trans (sup_le_sup_left hnewer _)

theorem le_foldl (values : List (LayeredValue β)) (acc : LayeredValue β) :
    acc.vector_clock ≤ (values.foldl supersede acc).vector_clock := by
  induction values generalizing acc with
  | nil => exact le_refl _
  | cons value values ih => exact (le_supersede acc value).trans (ih _)

theorem foldl_le (values : List (LayeredValue β)) (acc : LayeredValue β) :
    (values.foldl supersede acc).vector_clock ≤ acc.vector_clock ⊔ joined values := by
  induction values generalizing acc with
  | nil => exact le_sup_left
  | cons value values ih =>
    calc (values.foldl supersede (supersede acc value)).vector_clock
        ≤ (supersede acc value).vector_clock ⊔ joined values := ih _
      _ ≤ (acc.vector_clock ⊔ value.vector_clock) ⊔ joined values := sup_le_sup_right (supersede_le acc value) _
      _ = acc.vector_clock ⊔ (value.vector_clock ⊔ joined values) := sup_assoc _ _ _

/-- A contradiction drops every value that is not newer. -/
theorem foldl_blocked {acc : LayeredValue β} (hb : acc.base = .the_contradiction) :
    ∀ {values : List (LayeredValue β)}, (∀ v ∈ values, v.walltime ≤ acc.walltime) →
      values.foldl supersede acc = acc := by
  intro values
  induction values with
  | nil => intro _; rfl
  | cons value values ih =>
    intro h
    rw [List.foldl_cons, supersede_blocked hb (h value (by simp))]
    exact ih (fun v hv => h v (by simp [hv]))

/-- A block reduces to a contradiction of its walltime, with the clocks of the
block. -/
theorem Blocks.reduces {w : ℚ} {block : List (LayeredValue β)} (h : Blocks w block) :
    ∃ first rest, block = first :: rest ∧ (rest.foldl supersede first).base = .the_contradiction ∧
      (rest.foldl supersede first).walltime = w ∧
      (rest.foldl supersede first).vector_clock ≤ joined block := by
  cases h with
  | given a hb ha => exact ⟨a, [], rfl, hb, ha, le_sup_left⟩
  | tie a b ha hb =>
    refine ⟨a, [b], rfl, ?_, ?_, ?_⟩
    · obtain ⟨hlt, -⟩ | ⟨hc, -, hs⟩ | ⟨-, hlt, -⟩ | ⟨-, -, hs⟩ := supersede_cases a b
      · exact absurd (ha.trans hb.symm) hlt.ne
      · simp [hs, hc]
      · exact absurd (ha.trans hb.symm) hlt.ne'
      · simp [hs]
    · simp [supersede_walltime, ha, hb]
    · exact (foldl_le [b] a).trans (le_of_eq rfl)

/-! ## What the accumulator stands for -/

/-- Some value of the latest walltime has its clock in the accumulator. -/
def Leads (seen : List (LayeredValue β)) (acc : LayeredValue β) : Prop :=
  ∃ a rest, seen.Perm (a :: rest) ∧ a.walltime = acc.walltime ∧ a.vector_clock ≤ acc.vector_clock

theorem Leads.step {seen : List (LayeredValue β)} {acc : LayeredValue β} (h : Leads seen acc)
    (value : LayeredValue β) : Leads (seen ++ [value]) (supersede acc value) := by
  unfold Leads
  rw [supersede_walltime]
  rcases lt_or_ge acc.walltime value.walltime with newer | older
  · refine ⟨value, seen, List.perm_append_singleton _ _, (max_eq_right newer.le).symm, ?_⟩
    exact value_le_supersede (fun _ => newer)
  · obtain ⟨a, rest, hp, hw, hc⟩ := h
    refine ⟨a, rest ++ [value], ?_, ?_, hc.trans (le_supersede acc value)⟩
    · exact hp.append_right [value]
    · rw [max_eq_left older, hw]

/-- If the accumulator is a contradiction, some of the values seen make it one,
and it has their clocks. -/
def Explained (seen : List (LayeredValue β)) (acc : LayeredValue β) : Prop :=
  acc.base = .the_contradiction → ∃ block rest, seen.Perm (block ++ rest) ∧
    Blocks acc.walltime block ∧ joined block ≤ acc.vector_clock

theorem Explained.step {seen : List (LayeredValue β)} {acc : LayeredValue β} (h : Explained seen acc)
    (hlead : Leads seen acc) (value : LayeredValue β) :
    Explained (seen ++ [value]) (supersede acc value) := by
  intro hbase
  obtain ⟨newer, hs⟩ | ⟨hb, -, hs⟩ | ⟨hb, -, hs⟩ | ⟨-, tie, hs⟩ := supersede_cases acc value
  · -- the value itself is a contradiction
    refine ⟨[value], seen, List.perm_append_singleton _ _, ?_, ?_⟩
    · apply Blocks.given
      · rw [hs] at hbase
        exact hbase
      · rw [supersede_walltime, max_eq_right newer.le]
    · apply joined_le.2
      intro v hv
      rw [List.mem_singleton.1 hv]
      exact value_le_supersede (fun _ => newer)
  · obtain ⟨block, rest, hp, hblock, hclock⟩ := h hb
    rw [hs]
    refine ⟨block, rest ++ [value], ?_, hblock, hclock⟩
    simpa using hp.append_right [value]
  · -- an older value leaves a base that is no contradiction
    rw [hs] at hbase
    change acc.base = .the_contradiction at hbase
    rw [hbase] at hb
    cases hb
  · obtain ⟨a, rest, hp, hw, hclock⟩ := hlead
    refine ⟨[a, value], rest, ?_, ?_, ?_⟩
    · have hfront : (seen ++ [value]).Perm (value :: seen) := List.perm_append_singleton _ _
      exact (hfront.trans (hp.cons value)).trans (List.Perm.swap a value rest)
    · rw [hs]
      exact Blocks.tie a value hw tie
    · rw [hs]
      apply joined_le.2
      intro v hv
      rcases List.mem_pair.1 hv with rfl | rfl
      · exact hclock.trans le_sup_left
      · exact le_sup_right

theorem explained_run (values : List (LayeredValue β)) {seen : List (LayeredValue β)} {acc : LayeredValue β}
    (hlead : Leads seen acc) (h : Explained seen acc) :
    Explained (seen ++ values) (values.foldl supersede acc) := by
  induction values generalizing seen acc with
  | nil => simpa using h
  | cons value values ih => simpa using ih (hlead.step value) (h.step hlead value)

theorem leads_first (first : LayeredValue β) : Leads [first] first :=
  ⟨first, [], List.Perm.refl _, rfl, le_refl _⟩

theorem explained_first (first : LayeredValue β) : Explained [first] first :=
  fun hb => ⟨[first], [], List.Perm.refl _, .given first hb rfl, joined_le.2 (by simp)⟩

/-! ## When the order does not matter -/

/-- In a covered set, the clock of every value reaches the result. -/
theorem covered_le {first : LayeredValue β} {rest : List (LayeredValue β)} (h : Covered (first :: rest)) :
    ∀ v ∈ first :: rest, v.vector_clock ≤ (rest.foldl supersede first).vector_clock := by
  by_contra hlost
  -- the newest value whose clock is lost: every newer one is in the result
  obtain ⟨v, ⟨hv, hnot⟩, hmax⟩ := Set.exists_max_image
    {v | v ∈ first :: rest ∧ ¬ v.vector_clock ≤ (rest.foldl supersede first).vector_clock}
    LayeredValue.walltime ((List.finite_toSet (first :: rest)).subset (fun v hv => hv.1))
    (by push Not at hlost; exact hlost)
  rcases List.mem_cons.1 hv with rfl | hmem
  · exact hnot (le_foldl rest v)
  obtain ⟨before, after, rfl⟩ := List.append_of_mem hmem
  rw [List.foldl_append, List.foldl_cons] at hnot hmax
  have hafter := le_foldl after (supersede (before.foldl supersede first) v)
  have hbase : (before.foldl supersede first).base = .the_contradiction ∧
      v.walltime ≤ (before.foldl supersede first).walltime := by
    by_contra hkept
    apply hnot
    refine (value_le_supersede ?_).trans hafter
    intro hb
    exact not_le.1 (fun hw => hkept ⟨hb, hw⟩)
  obtain ⟨block, others, hp, hblock, hclock⟩ :=
    explained_run before (leads_first first) (explained_first first) hbase.1
  have hset : (first :: (before ++ v :: after)).Perm (block ++ (others ++ v :: after)) := by
    simpa using hp.append_right (v :: after)
  apply hnot
  refine (h _ block _ hblock hset v (by simp) hbase.2).trans (sup_le ?_ ?_)
  · exact hclock.trans ((le_supersede _ v).trans hafter)
  · apply joined_le.2
    intro u hu
    obtain ⟨hu, hnewer⟩ := List.mem_filter.1 hu
    have hlt : v.walltime < u.walltime := lt_of_le_of_lt hbase.2 (by simpa using hnewer)
    by_contra hu'
    exact absurd (hmax u ⟨hu, hu'⟩) (not_le.2 hlt)

/-- The clock of a covered set's strongest value: everything the set knows. -/
theorem covered_clock {first : LayeredValue β} {rest : List (LayeredValue β)} (h : Covered (first :: rest)) :
    (rest.foldl supersede first).vector_clock = joined (first :: rest) := by
  apply le_antisymm
  · exact foldl_le rest first
  · exact joined_le.2 (covered_le h)

theorem joined_perm {l l' : List (LayeredValue β)} (h : l.Perm l') : joined l = joined l' := by
  apply le_antisymm
  · exact joined_le.2 (fun v hv => le_joined (h.subset hv))
  · exact joined_le.2 (fun v hv => le_joined (h.symm.subset hv))

theorem strongest_of_covered {set order : List (LayeredValue β)} (h : Covered set) (hp : order.Perm set) :
    strongest_value order = strongest_value set := by
  cases set with
  | nil => rw [hp.eq_nil]
  | cons a l =>
    cases order with
    | nil => exact absurd hp.length_eq (by simp)
    | cons a' l' =>
      obtain ⟨hb, hw⟩ := Strongest.unique hp ((strongest_first a').run l') ((strongest_first a).run l)
      have hc : (l'.foldl supersede a').vector_clock = (l.foldl supersede a).vector_clock := by
        rw [covered_clock h, covered_clock (h.perm hp), joined_perm hp]
      simp only [strongest_value, Option.some.injEq]
      exact LayeredValue.ext hb hw hc

/-- The order that reduces the block first, then what it drops: the result
knows the clocks of the block and of the newer values only. -/
theorem strongest_block_first {w : ℚ} {block rest : List (LayeredValue β)} (h : Blocks w block) :
    ∃ order result, order.Perm (block ++ rest) ∧ strongest_value order = some result ∧
      result.vector_clock ≤ joined block ⊔ joined ((block ++ rest).filter (fun u => w < u.walltime)) := by
  obtain ⟨first, others, rfl, hb, hw, hclock⟩ := h.reduces
  -- the values that are not newer than the contradiction, then the newer ones
  refine ⟨first :: others ++ (rest.filter (fun u => !decide (w < u.walltime)) ++ rest.filter (fun u => w < u.walltime)),
    _, ?_, rfl, ?_⟩
  · apply List.Perm.append_left
    refine List.perm_append_comm.trans ?_
    exact List.filter_append_perm (fun u => decide (w < u.walltime)) rest
  · change ((others ++ _).foldl supersede first).vector_clock ≤ _
    rw [List.foldl_append, List.foldl_append, foldl_blocked hb (by simp [hw])]
    refine (foldl_le _ _).trans (sup_le_sup hclock ?_)
    apply joined_le.2
    intro u hu
    apply le_joined
    rw [List.filter_append]
    exact List.mem_append_right _ hu

/-- The strongest value of a set is the same in every order in which the set
enumerates, if and only if no contradiction in it can drop a clock. Its base value and its
walltime are the same in every order of every set. -/
theorem strongest_order_independent_iff (set : List (LayeredValue β)) :
    ((∀ order, order.Perm set → strongest_value order = strongest_value set) ↔ Covered set) ∧
      ∀ order, order.Perm set → (strongest_value order).map (fun v => (v.base, v.walltime)) =
        (strongest_value set).map fun v => (v.base, v.walltime) := by
  refine ⟨?_, fun order hp => strongest_base_walltime hp⟩
  constructor
  · intro hsame w block rest hblock hset v hv hw
    obtain ⟨order, result, horder, hres, hle⟩ := @strongest_block_first β w block rest hblock
    obtain ⟨before, after, hrest⟩ := List.append_of_mem (List.mem_append_right block hv)
    have hfirst : strongest_value (v :: (before ++ after)) = some result := by
      have hmid : (v :: (before ++ after)).Perm (block ++ rest) := by
        rw [hrest]
        exact List.perm_middle.symm
      rw [hsame _ (hmid.trans hset.symm), ← hres, hsame _ (horder.trans hset.symm)]
    have hv' : v.vector_clock ≤ result.vector_clock := by
      rw [← Option.some.inj hfirst]
      exact le_foldl _ v
    refine hv'.trans (hle.trans (sup_le_sup_left ?_ _))
    apply joined_le.2
    intro u hu
    exact le_joined ((hset.symm.filter _).subset hu)
  · intro h order hp
    exact strongest_of_covered h hp

/-- Two values written at the same time and an older one, each from its own
source: the older one's channel is kept when it comes between them, and lost
when it comes after. -/
theorem strongest_order_dependent :
    let alpha : LayeredValue ℕ := ⟨.value 1, 1, construct_vector_clock [("alpha", 0)]⟩
    let beta : LayeredValue ℕ := ⟨.value 2, 1, construct_vector_clock [("beta", 0)]⟩
    let gamma : LayeredValue ℕ := ⟨.value 3, 0, construct_vector_clock [("gamma", 0)]⟩
    [alpha, gamma, beta].Perm [alpha, beta, gamma] ∧
      (strongest_value [alpha, gamma, beta]).map (·.vector_clock "gamma") = some (WithBot.some 0) ∧
      (strongest_value [alpha, beta, gamma]).map (·.vector_clock "gamma") = some ⊥ ∧
      strongest_value [alpha, gamma, beta] ≠ strongest_value [alpha, beta, gamma] := by
  intro alpha beta gamma
  have hkept : (strongest_value [alpha, gamma, beta]).map (·.vector_clock "gamma") = some (WithBot.some 0) := by
    decide +kernel
  have hlost : (strongest_value [alpha, beta, gamma]).map (·.vector_clock "gamma") = some ⊥ := by
    decide +kernel
  refine ⟨(List.Perm.swap beta gamma []).cons alpha, hkept, hlost, ?_⟩
  intro h
  rw [h, hlost] at hkept
  cases hkept

end LainLang.Runtime
