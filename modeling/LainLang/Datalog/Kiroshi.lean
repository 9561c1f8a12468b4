import LainLang.Datalog.FactSets
import LainLang.Lib.Run
import Mathlib.Data.List.Nodup
/-!
# The bridge into the incremental engine

The bridge remembers of each EDB cell only how many facts it has handed to the
engine. Since a merge goes on from the list it is given, the facts behind that
count are the new ones, whatever updates came between two activations.
-/
open LainLang.Lib

namespace LainLang.Datalog

/-- A fact handed to the engine, with the place it was read from: the number of
the cell among the EDB cells and the position in its list. -/
structure Assertion where
  cell : ℕ
  position : ℕ
  fact : Fact
  deriving DecidableEq

/-- The cells by their ids, the counts of the bridge, and what was asserted, in order. -/
structure KiroshiBridge where
  cells : ℕ → Option FactSet
  seen_counts : List ℕ
  asserted : List Assertion

/-- A bridge that has not looked at any of its cells. -/
def construct_kiroshi_propagator (cells : ℕ → Option FactSet) (edb_cells : List ℕ) : KiroshiBridge where
  cells := cells
  seen_counts := edb_cells.map fun _ => 0
  asserted := []

/-- The facts from the position on, to be asserted one after the other. -/
def assertionsFrom (i start : ℕ) (facts : List Fact) : List Assertion :=
  facts.mapIdx fun k fact => ⟨i, start + k, fact⟩

/-- One turn of the bridge's loop, for the `i`-th cell. -/
def bridge_cell (s : KiroshiBridge) (cell i : ℕ) : KiroshiBridge :=
  match s.cells cell with
  | none => s
  | some val =>
    let seen := s.seen_counts.getD i 0
    let new_facts := val.facts.drop seen
    { s with
      seen_counts := s.seen_counts.set i val.facts.length
      asserted := s.asserted ++ assertionsFrom i seen new_facts }

/-- One activation: every cell in the order of the list. -/
def bridge (edb_cells : List ℕ) (s : KiroshiBridge) : KiroshiBridge :=
  edb_cells.zipIdx.foldl (fun s e => bridge_cell s e.1 e.2) s

/-- What happens to the bridge: a cell gets an increment, or the scheduler activates it. -/
inductive BridgeEvent where
  | update (cell : ℕ) (increment : FactSet)
  | activate

/-- One event. -/
def bridge_step (P : Pmatcher) (edb_cells : List ℕ) (s : KiroshiBridge) : BridgeEvent → KiroshiBridge
  | .update cell increment =>
    { s with cells := fun c => if c = cell then update_cell P (s.cells c) increment else s.cells c }
  | .activate => bridge edb_cells s

/-! ## What has been asserted of one cell -/

/-- What was asserted for one cell. -/
def KiroshiBridge.assertedOf (s : KiroshiBridge) (i : ℕ) : List Assertion := s.asserted.filter (·.cell = i)

/-- How many facts of the cell have been asserted. -/
def KiroshiBridge.seen (s : KiroshiBridge) (i : ℕ) : ℕ := s.seen_counts.getD i 0

/-- Of the `i`-th cell the facts before the count have been asserted, once and in
order, and nothing else. -/
structure InStep (s : KiroshiBridge) (cell i : ℕ) : Prop where
  seen_le : s.seen i ≤ (contentFacts (s.cells cell)).length
  asserted_eq : s.assertedOf i = assertionsFrom i 0 ((contentFacts (s.cells cell)).take (s.seen i))

theorem assertionsFrom_append (i start : ℕ) (facts more : List Fact) :
    assertionsFrom i start (facts ++ more) = assertionsFrom i start facts ++ assertionsFrom i (start + facts.length) more := by
  unfold assertionsFrom
  rw [List.mapIdx_append]
  congr 2
  funext k fact
  congr 1
  omega

theorem mem_assertionsFrom {i start : ℕ} {facts : List Fact} {a : Assertion} :
    a ∈ assertionsFrom i start facts ↔ ∃ k, facts[k]? = some a.fact ∧ a.cell = i ∧ a.position = start + k := by
  unfold assertionsFrom
  rw [List.mem_mapIdx]
  constructor
  · rintro ⟨k, hk, rfl⟩
    exact ⟨k, List.getElem?_eq_getElem hk, rfl, rfl⟩
  · rintro ⟨k, hk, rfl, hposition⟩
    obtain ⟨hlt, hfact⟩ := List.getElem?_eq_some_iff.1 hk
    refine ⟨k, hlt, ?_⟩
    rw [hfact, ← hposition]

theorem filter_assertionsFrom (i j start : ℕ) (facts : List Fact) :
    (assertionsFrom i start facts).filter (·.cell = j) = if i = j then assertionsFrom i start facts else [] := by
  split
  · rename_i hij
    refine List.filter_eq_self.2 fun a ha => ?_
    obtain ⟨k, -, hcell, -⟩ := mem_assertionsFrom.1 ha
    simp [hcell, hij]
  · rename_i hij
    refine List.filter_eq_nil_iff.2 fun a ha => ?_
    obtain ⟨k, -, hcell, -⟩ := mem_assertionsFrom.1 ha
    simp [hcell, hij]

/-! ## One turn of the loop -/

@[simp] theorem bridge_cell_cells (s : KiroshiBridge) (cell i : ℕ) : (bridge_cell s cell i).cells = s.cells := by
  unfold bridge_cell
  cases s.cells cell <;> rfl

theorem bridge_cell_length (s : KiroshiBridge) (cell i : ℕ) :
    (bridge_cell s cell i).seen_counts.length = s.seen_counts.length := by
  unfold bridge_cell
  cases s.cells cell <;> simp

/-- The other cells' counts and assertions are left alone. -/
theorem bridge_cell_other (s : KiroshiBridge) (cell : ℕ) {i j : ℕ} (h : i ≠ j) :
    (bridge_cell s cell i).seen j = s.seen j ∧ (bridge_cell s cell i).assertedOf j = s.assertedOf j := by
  unfold bridge_cell KiroshiBridge.seen KiroshiBridge.assertedOf
  cases s.cells cell with
  | none => exact ⟨rfl, rfl⟩
  | some val =>
    constructor
    · simp [List.getD_eq_getElem?_getD, List.getElem?_set_ne h]
    · simp [filter_assertionsFrom, h]

theorem InStep.other {s : KiroshiBridge} {cell i cell' j : ℕ} (hs : InStep s cell' j) (h : i ≠ j) :
    InStep (bridge_cell s cell i) cell' j := by
  obtain ⟨hseen, hasserted⟩ := bridge_cell_other s cell h
  constructor
  · rw [hseen, bridge_cell_cells]
    exact hs.seen_le
  · rw [hseen, hasserted, bridge_cell_cells]
    exact hs.asserted_eq

/-- After its turn the cell's facts have all been asserted. -/
theorem bridge_cell_inStep {s : KiroshiBridge} {cell i : ℕ} (hs : InStep s cell i) (hi : i < s.seen_counts.length) :
    InStep (bridge_cell s cell i) cell i ∧
      (bridge_cell s cell i).seen i = (contentFacts ((bridge_cell s cell i).cells cell)).length := by
  have hseen : (bridge_cell s cell i).seen i = (contentFacts (s.cells cell)).length := by
    have hle := hs.seen_le
    unfold bridge_cell KiroshiBridge.seen at *
    cases hcell : s.cells cell with
    | none =>
      rw [hcell] at hle
      simpa [contentFacts] using hle
    | some val => simp [contentFacts, List.getD_eq_getElem?_getD, List.getElem?_set_self hi]
  have hasserted : (bridge_cell s cell i).assertedOf i = assertionsFrom i 0 (contentFacts (s.cells cell)) := by
    have hle := hs.seen_le
    have heq := hs.asserted_eq
    unfold bridge_cell KiroshiBridge.assertedOf at *
    cases hcell : s.cells cell with
    | none =>
      rw [hcell] at heq
      simpa [contentFacts] using heq
    | some val =>
      rw [hcell] at hle heq
      simp only [contentFacts] at hle heq ⊢
      -- What was asserted before and what is asserted now are the two parts of the list.
      rw [List.filter_append, heq, filter_assertionsFrom, if_pos rfl]
      have hsplit := assertionsFrom_append i 0 (val.facts.take (s.seen i)) (val.facts.drop (s.seen i))
      rw [List.take_append_drop, List.length_take, Nat.min_eq_left hle, Nat.zero_add] at hsplit
      exact hsplit.symm
  refine ⟨⟨?_, ?_⟩, ?_⟩
  · rw [hseen, bridge_cell_cells]
  · rw [hseen, hasserted, bridge_cell_cells, List.take_length]
  · rw [hseen, bridge_cell_cells]

/-! ## An activation -/

/-- What the bridge knows of its cells, by their numbers. -/
structure Bridged (edb_cells : List ℕ) (s : KiroshiBridge) : Prop where
  counts : s.seen_counts.length = edb_cells.length
  inStep : ∀ {i c}, edb_cells[i]? = some c → InStep s c i
  known : ∀ a ∈ s.asserted, a.cell < edb_cells.length

/-- Everything the cell holds has been asserted. -/
def CaughtUp (s : KiroshiBridge) (cell i : ℕ) : Prop := s.seen i = (contentFacts (s.cells cell)).length

theorem bridge_cell_asserted (s : KiroshiBridge) (cell i : ℕ) :
    ∀ a ∈ (bridge_cell s cell i).asserted, a ∈ s.asserted ∨ a.cell = i := by
  unfold bridge_cell
  cases s.cells cell with
  | none => exact fun a ha => .inl ha
  | some val =>
    intro a ha
    rcases List.mem_append.1 ha with ha | ha
    · exact .inl ha
    · obtain ⟨k, -, hcell, -⟩ := mem_assertionsFrom.1 ha
      exact .inr hcell

theorem Bridged.turn {edb_cells : List ℕ} {s : KiroshiBridge} (hs : Bridged edb_cells s) {cell i : ℕ}
    (hi : edb_cells[i]? = some cell) :
    Bridged edb_cells (bridge_cell s cell i) ∧ CaughtUp (bridge_cell s cell i) cell i ∧
      ∀ {j c}, edb_cells[j]? = some c → CaughtUp s c j → CaughtUp (bridge_cell s cell i) c j := by
  obtain ⟨hlt, -⟩ := List.getElem?_eq_some_iff.1 hi
  obtain ⟨hstep, hcaught⟩ := bridge_cell_inStep (hs.inStep hi) (hs.counts ▸ hlt)
  refine ⟨⟨?_, ?_, ?_⟩, hcaught, ?_⟩
  · rw [bridge_cell_length]
    exact hs.counts
  · intro j c hj
    by_cases hij : i = j
    · subst hij
      obtain rfl := Option.some.inj (hi.symm.trans hj)
      exact hstep
    · exact (hs.inStep hj).other hij
  · intro a ha
    rcases bridge_cell_asserted s cell i a ha with ha | ha
    · exact hs.known a ha
    · exact ha ▸ hlt
  · intro j c hj hbefore
    by_cases hij : i = j
    · subst hij
      obtain rfl := Option.some.inj (hi.symm.trans hj)
      exact hcaught
    · unfold CaughtUp
      rw [(bridge_cell_other s cell hij).1, bridge_cell_cells]
      exact hbefore

/-- The loop of an activation, over some of the cells. -/
theorem Bridged.loop {edb_cells : List ℕ} {entries : List (ℕ × ℕ)} (hentries : ∀ e ∈ entries, edb_cells[e.2]? = some e.1)
    {s : KiroshiBridge} (hs : Bridged edb_cells s) :
    let s' := entries.foldl (fun s e => bridge_cell s e.1 e.2) s
    Bridged edb_cells s' ∧ s'.cells = s.cells ∧ (∀ e ∈ entries, CaughtUp s' e.1 e.2) ∧
      ∀ {j c}, edb_cells[j]? = some c → CaughtUp s c j → CaughtUp s' c j := by
  induction entries generalizing s with
  | nil => exact ⟨hs, rfl, fun e he => absurd he List.not_mem_nil, fun _ h => h⟩
  | cons e entries ih =>
    have he := hentries e List.mem_cons_self
    obtain ⟨hturn, hcaught, hkept⟩ := hs.turn he
    obtain ⟨hrest, hcells, hall, hkept'⟩ := ih (fun e' he' => hentries e' (List.mem_cons_of_mem _ he')) hturn
    refine ⟨hrest, hcells.trans (bridge_cell_cells s e.1 e.2), fun e' he' => ?_, fun hj h => hkept' hj (hkept hj h)⟩
    rcases List.mem_cons.1 he' with rfl | he'
    · exact hkept' he hcaught
    · exact hall e' he'

/-- An activation finds every cell caught up, whichever of them had changed. -/
theorem Bridged.activate {edb_cells : List ℕ} {s : KiroshiBridge} (hs : Bridged edb_cells s) :
    Bridged edb_cells (bridge edb_cells s) ∧ ∀ {i c}, edb_cells[i]? = some c → CaughtUp (bridge edb_cells s) c i := by
  have hentries : ∀ e ∈ edb_cells.zipIdx, edb_cells[e.2]? = some e.1 := fun e he => List.mk_mem_zipIdx_iff_getElem?.1 he
  obtain ⟨hbridged, -, hall, -⟩ := hs.loop hentries
  exact ⟨hbridged, fun {i c} hi => hall (c, i) (List.mk_mem_zipIdx_iff_getElem?.2 hi)⟩

/-! ## A run -/

theorem update_cell_prefix (P : Pmatcher) (content : Option FactSet) (increment : FactSet) :
    contentFacts content <+: contentFacts (update_cell P content increment) := by
  cases content with
  | none => exact List.nil_prefix
  | some old => exact merge_prefix old increment

theorem take_of_isPrefix {A : Type} {l l' : List A} {k : ℕ} (h : l <+: l') (hk : k ≤ l.length) : l'.take k = l.take k := by
  obtain ⟨more, rfl⟩ := h
  rw [List.take_append_of_le_length hk]

/-- An update does not touch the facts that were asserted. -/
theorem Bridged.update {edb_cells : List ℕ} {s : KiroshiBridge} (hs : Bridged edb_cells s) (P : Pmatcher) (cell : ℕ)
    (increment : FactSet) : Bridged edb_cells (bridge_step P edb_cells s (.update cell increment)) := by
  refine ⟨hs.counts, fun {i c} hi => ?_, hs.known⟩
  obtain ⟨hle, heq⟩ := hs.inStep hi
  have hgrows : contentFacts (s.cells c) <+: contentFacts ((bridge_step P edb_cells s (.update cell increment)).cells c) := by
    unfold bridge_step
    by_cases hc : c = cell
    · simpa [hc] using update_cell_prefix P (s.cells cell) increment
    · simp [hc]
  constructor
  · exact hle.trans hgrows.length_le
  · exact heq.trans (congrArg (assertionsFrom i 0) (take_of_isPrefix hgrows hle).symm)

theorem Bridged.step {edb_cells : List ℕ} {s : KiroshiBridge} (hs : Bridged edb_cells s) (P : Pmatcher) (e : BridgeEvent) :
    Bridged edb_cells (bridge_step P edb_cells s e) := by
  cases e with
  | update cell increment => exact hs.update P cell increment
  | activate => exact hs.activate.1

theorem Bridged.init (cells : ℕ → Option FactSet) (edb_cells : List ℕ) :
    Bridged edb_cells (construct_kiroshi_propagator cells edb_cells) where
  counts := by simp [construct_kiroshi_propagator]
  inStep := by
    intro i c hi
    have hseen : (construct_kiroshi_propagator cells edb_cells).seen i = 0 := by
      simp [construct_kiroshi_propagator, KiroshiBridge.seen, List.getD_eq_getElem?_getD]
    constructor
    · rw [hseen]
      exact Nat.zero_le _
    · rw [hseen]
      rfl
  known := fun a ha => absurd ha List.not_mem_nil

theorem Bridged.after {edb_cells : List ℕ} {s : KiroshiBridge} (hs : Bridged edb_cells s) (P : Pmatcher)
    (events : List BridgeEvent) : Bridged edb_cells (run (bridge_step P edb_cells) s events) :=
  (Throughout.of_invariant hs fun _ e h => h.step P e).last

/-! ## What has been asserted -/

theorem bridge_cell_extends (s : KiroshiBridge) (cell i : ℕ) : s.asserted <+: (bridge_cell s cell i).asserted := by
  unfold bridge_cell
  cases s.cells cell with
  | none => exact List.prefix_rfl
  | some val => exact List.prefix_append ..

theorem bridge_extends (edb_cells : List ℕ) (s : KiroshiBridge) : s.asserted <+: (bridge edb_cells s).asserted := by
  unfold bridge
  induction edb_cells.zipIdx generalizing s with
  | nil => exact List.prefix_rfl
  | cons e entries ih => exact (bridge_cell_extends s e.1 e.2).trans (ih _)

/-- Nothing is taken back. -/
theorem run_extends (P : Pmatcher) (edb_cells : List ℕ) (s : KiroshiBridge) (events : List BridgeEvent) :
    s.asserted <+: (run (bridge_step P edb_cells) s events).asserted := by
  have hextends : Throughout (bridge_step P edb_cells) s events fun t => s.asserted <+: t.asserted := by
    refine .of_invariant (I := fun t : KiroshiBridge => s.asserted <+: t.asserted) List.prefix_rfl fun t e ht => ?_
    cases e with
    | update cell increment => exact ht
    | activate => exact ht.trans (bridge_extends edb_cells t)
  exact hextends.last

theorem Bridged.mem_asserted {edb_cells : List ℕ} {s : KiroshiBridge} (hs : Bridged edb_cells s) {a : Assertion} :
    a ∈ s.asserted ↔ ∃ c, edb_cells[a.cell]? = some c ∧ a.position < s.seen a.cell ∧
      (contentFacts (s.cells c))[a.position]? = some a.fact := by
  have hof : a ∈ s.asserted ↔ a ∈ s.assertedOf a.cell := by simp [KiroshiBridge.assertedOf]
  constructor
  · intro ha
    have hc := List.getElem?_eq_getElem (hs.known a ha)
    obtain ⟨-, heq⟩ := hs.inStep hc
    rw [hof, heq, mem_assertionsFrom] at ha
    obtain ⟨k, hk, -, hposition⟩ := ha
    rw [Nat.zero_add] at hposition
    subst hposition
    obtain ⟨hlt, -⟩ := List.getElem?_eq_some_iff.1 hk
    have hseen : a.position < s.seen a.cell := (List.length_take .. ▸ hlt).trans_le (Nat.min_le_left ..)
    rw [List.getElem?_take_of_lt hseen] at hk
    exact ⟨_, hc, hseen, hk⟩
  · rintro ⟨c, hc, hseen, hfact⟩
    obtain ⟨-, heq⟩ := hs.inStep hc
    rw [hof, heq, mem_assertionsFrom]
    exact ⟨a.position, by rwa [List.getElem?_take_of_lt hseen], rfl, (Nat.zero_add _).symm⟩

theorem assertionsFrom_cons (i start : ℕ) (fact : Fact) (facts : List Fact) :
    assertionsFrom i start (fact :: facts) = ⟨i, start, fact⟩ :: assertionsFrom i (start + 1) facts :=
  assertionsFrom_append i start [fact] facts

/-- A list of facts has each position once. -/
theorem filter_position (i start : ℕ) {p : ℕ} {facts : List Fact} {f : Fact} (h : facts[p]? = some f) :
    (assertionsFrom i start facts).filter (·.position = start + p) = [⟨i, start + p, f⟩] := by
  induction facts generalizing start p with
  | nil => simp at h
  | cons fact facts ih =>
    rw [assertionsFrom_cons]
    cases p with
    | zero =>
      obtain rfl : fact = f := by simpa using h
      have hlater : (assertionsFrom i (start + 1) facts).filter (·.position = start) = [] := by
        refine List.filter_eq_nil_iff.2 fun a ha => ?_
        obtain ⟨k, -, -, hposition⟩ := mem_assertionsFrom.1 ha
        simp only [decide_eq_true_eq]
        omega
      simp [hlater]
    | succ p =>
      have hfact : facts[p]? = some f := by simpa using h
      have hrest := ih (start + 1) hfact
      have hplace : start + 1 + p = start + (p + 1) := by omega
      rw [hplace] at hrest
      rw [List.filter_cons_of_neg (by simp), hrest]

/-- The assertions of one position of one cell. -/
def KiroshiBridge.assertedAt (s : KiroshiBridge) (i p : ℕ) : List Assertion := (s.assertedOf i).filter (·.position = p)

theorem Bridged.assertedAt {edb_cells : List ℕ} {s : KiroshiBridge} (hs : Bridged edb_cells s) {a : Assertion}
    (ha : a ∈ s.asserted) : s.assertedAt a.cell a.position = [a] := by
  obtain ⟨c, hc, hseen, hfact⟩ := hs.mem_asserted.1 ha
  rw [← List.getElem?_take_of_lt hseen] at hfact
  have honce := filter_position a.cell 0 hfact
  rw [Nat.zero_add] at honce
  rw [KiroshiBridge.assertedAt, (hs.inStep hc).asserted_eq, honce]

/-- After any run that ends in an activation the asserted facts are those of the
EDB cells, and each position of each cell has been asserted; whatever comes
later, it is the only time. -/
theorem bridge_asserts_once (P : Pmatcher) (cells : ℕ → Option FactSet) (edb_cells : List ℕ)
    (before after : List BridgeEvent) :
    let s := run (bridge_step P edb_cells) (construct_kiroshi_propagator cells edb_cells) (before ++ [.activate])
    let s' := run (bridge_step P edb_cells) s after
    (∀ f, f ∈ s.asserted.map Assertion.fact ↔ ∃ c ∈ edb_cells, f ∈ contentFacts (s.cells c)) ∧
      (∀ i c p f, edb_cells[i]? = some c → (contentFacts (s.cells c))[p]? = some f → s'.assertedAt i p = [⟨i, p, f⟩]) ∧
      ∀ a ∈ s'.asserted, s'.assertedAt a.cell a.position = [a] ∧
        ∃ c, edb_cells[a.cell]? = some c ∧ (contentFacts (s'.cells c))[a.position]? = some a.fact := by
  intro s s'
  have hs : Bridged edb_cells s := (Bridged.init cells edb_cells).after P _
  have hs' : Bridged edb_cells s' := hs.after P after
  have hcaught : ∀ {i c}, edb_cells[i]? = some c → CaughtUp s c i := by
    intro i c hi
    have hs_eq : s = bridge edb_cells (run (bridge_step P edb_cells) (construct_kiroshi_propagator cells edb_cells) before) :=
      run_append ..
    rw [hs_eq]
    exact ((Bridged.init cells edb_cells).after P before).activate.2 hi
  have hmem : ∀ {i c p f}, edb_cells[i]? = some c → (contentFacts (s.cells c))[p]? = some f →
      (⟨i, p, f⟩ : Assertion) ∈ s.asserted := by
    intro i c p f hi hf
    obtain ⟨hlt, -⟩ := List.getElem?_eq_some_iff.1 hf
    exact hs.mem_asserted.2 ⟨c, hi, (hcaught hi).symm ▸ hlt, hf⟩
  refine ⟨fun f => ⟨fun hf => ?_, ?_⟩, fun i c p f hi hf => ?_, fun a ha => ⟨hs'.assertedAt ha, ?_⟩⟩
  · obtain ⟨a, ha, rfl⟩ := List.mem_map.1 hf
    obtain ⟨c, hc, -, hfact⟩ := hs.mem_asserted.1 ha
    exact ⟨c, List.mem_of_getElem? hc, List.mem_of_getElem? hfact⟩
  · rintro ⟨c, hc, hf⟩
    obtain ⟨i, hi⟩ := List.getElem?_of_mem hc
    obtain ⟨p, hp⟩ := List.getElem?_of_mem hf
    exact List.mem_map.2 ⟨_, hmem hi hp, rfl⟩
  · exact hs'.assertedAt ((run_extends P edb_cells s after).subset (hmem hi hf))
  · obtain ⟨c, hc, -, hfact⟩ := hs'.mem_asserted.1 ha
    exact ⟨c, hc, hfact⟩

end LainLang.Datalog
