import LainLang.Lib.Worklist
import LainLang.Tracer.Unify
/-!
# Graphs and their reachable pairs

A simple directed graph with attributes on its nodes, as far as the queries read
it, and the search that lists its reachable pairs. The graph is graphology's, whose
code is elsewhere: it is assumed to do what it documents, that is to keep its nodes
in the order in which they were added and at most one edge from a node to another. The search ends and lists a
pair once if a path joins it, unless an earlier source has a pair with the same
key (`enumerate_spec`). If no node id has an arrow in it, no two pairs have one
key, and the pairs listed are exactly those that a path joins.
-/
open LainLang.Lib LainLang.Js

namespace LainLang.Tracer

/-- The attributes of a node, in the order they were set. -/
abbrev Attributes := List (String × Term)

/-- Source and target. -/
abbrev EdgeTuple := String × String

/-- The part of `DirectedGraph` the tracer reads and writes. -/
structure DirectedGraph where
  nodes : OrdMap String Attributes
  edges : List EdgeTuple
  nodup : edges.Nodup
  ends : ∀ e ∈ edges, nodes.has e.1 = true ∧ nodes.has e.2 = true

namespace DirectedGraph

/-- The targets of the edges that start in the node. -/
def outNeighbors (graph : DirectedGraph) (id : String) : List String :=
  (graph.edges.filter fun e => e.1 = id).map Prod.snd

theorem mem_outNeighbors {graph : DirectedGraph} {id target : String} :
    target ∈ graph.outNeighbors id ↔ (id, target) ∈ graph.edges := by
  simp [outNeighbors]

theorem outNeighbors_has {graph : DirectedGraph} {id target : String} (h : target ∈ graph.outNeighbors id) :
    graph.nodes.has target = true := (graph.ends _ (mem_outNeighbors.1 h)).2

/-- A path of one edge or more. -/
def Path (graph : DirectedGraph) : String → String → Prop := Relation.TransGen fun a b => (a, b) ∈ graph.edges

end DirectedGraph

/-- The graph whose nodes and edges `reverse_graph` merges into an empty one. -/
def reverse_graph (graph : DirectedGraph) : DirectedGraph where
  nodes := graph.nodes
  edges := graph.edges.map Prod.swap
  nodup := graph.nodup.map Prod.swap_injective
  ends := by
    intro e he
    obtain ⟨e', he', rfl⟩ := List.mem_map.1 he
    exact (graph.ends e' he').symm

theorem path_reverse {graph : DirectedGraph} {a b : String} : (reverse_graph graph).Path a b ↔ graph.Path b a := by
  have hswap : (fun a b => (a, b) ∈ (reverse_graph graph).edges) = Function.swap fun a b => (a, b) ∈ graph.edges := by
    funext a b
    simp [reverse_graph, Function.swap]
  rw [DirectedGraph.Path, hswap, Relation.transGen_swap]
  rfl

/-! ## The search -/

/-- The pairs found so far, with their keys. -/
structure Found where
  pairs : List EdgeTuple
  seen : List String

/-- The key of a pair. -/
def pairKey (pair : EdgeTuple) : String := pair.1 ++ "->" ++ pair.2

/-- A pair is added unless its key was seen. -/
def Found.add (found : Found) (pair : EdgeTuple) : Found :=
  if pairKey pair ∈ found.seen then found
  else { pairs := found.pairs ++ [pair], seen := found.seen ++ [pairKey pair] }

/-- The `while` loop of one source. -/
def visit (graph : DirectedGraph) (source : String) : ℕ → List String → List String → Found → Run Found
  | 0, _, _, _ => .error .outOfFuel
  | _ + 1, [], _, found => .ok found
  | fuel + 1, current :: queue, visited, found =>
    if current ∈ visited then visit graph source fuel queue visited found
    else
      visit graph source fuel (queue ++ graph.outNeighbors current) (current :: visited) (found.add (source, current))

/-- Every node as a source. -/
def visitAll (graph : DirectedGraph) (fuel : ℕ) : List String → Found → Run Found
  | [], found => .ok found
  | source :: sources, found => do
    let found ← visit graph source fuel (graph.outNeighbors source) [] found
    visitAll graph fuel sources found

/-- Each pair with a path, once by its key. -/
def enumerate_reachable_pairs (fuel : ℕ) (graph : DirectedGraph) : Run (List EdgeTuple) := do
  let found ← visitAll graph fuel graph.nodes.keys { pairs := [], seen := [] }
  return found.pairs

/-! ## The search ends -/

/-- The `while` loop is a worklist that adds a pair for each node it takes. -/
theorem visit_eq (graph : DirectedGraph) (source : String) (n : ℕ) (queue visited : List String) (found : Found) :
    visit graph source n queue visited found =
      worklist .outOfFuel graph.outNeighbors (fun found current => found.add (source, current)) n queue visited found := by
  induction n generalizing queue visited found with
  | zero => rfl
  | succ n ih =>
    cases queue with
    | nil => rfl
    | cons current queue => rw [visit, worklist, ih, ih]

section ends
variable {bad : Stop → Prop} {n m : ℕ} (hbad : bad .outOfFuel) (hnm : n ≤ m) (graph : DirectedGraph)
include hbad hnm

theorem visit_upto (source : String) (queue visited : List String) (found : Found) :
    Upto bad (visit graph source n queue visited found) (visit graph source m queue visited found) := by
  rw [visit_eq, visit_eq]
  exact worklist_upto hbad hnm queue visited found

theorem visitAll_upto (sources : List String) (found : Found) :
    Upto bad (visitAll graph n sources found) (visitAll graph m sources found) := by
  induction sources generalizing found with
  | nil => exact .refl _
  | cons source sources ih => exact (visit_upto hbad hnm graph source _ _ found).bind ih

theorem enumerate_upto : Upto bad (enumerate_reachable_pairs n graph) (enumerate_reachable_pairs m graph) :=
  (visitAll_upto hbad hnm graph _ _).bind fun _ => .refl _

end ends

theorem outNeighbors_mem_keys {graph : DirectedGraph} {id target : String} (h : target ∈ graph.outNeighbors id) :
    target ∈ graph.nodes.keys := (graph.nodes.has_iff_mem_keys target).1 (DirectedGraph.outNeighbors_has h)

theorem visitAll_ends (graph : DirectedGraph) (sources : List String) (found : Found) :
    ∃ n found', visitAll graph n sources found = .ok found' := by
  induction sources generalizing found with
  | nil => exact ⟨0, found, rfl⟩
  | cons source sources ih =>
    have hneighbors : ∀ id target, target ∈ graph.outNeighbors id → target ∈ graph.nodes.keys := fun _ _ =>
      outNeighbors_mem_keys
    obtain ⟨n, next, hn⟩ := @worklist_ends _ _ _ _ Stop.outOfFuel graph.outNeighbors
      (fun found current => found.add (source, current)) _ (fun id _ => hneighbors id) _ (hneighbors source) [] found
    obtain ⟨m, found', hm⟩ := ih next
    have hn' := (@visit_upto (· = .outOfFuel) n (max n m) rfl (Nat.le_max_left n m) graph source _ _ found).ok
      ((visit_eq ..).trans hn)
    have hm' := (@visitAll_upto (· = .outOfFuel) m (max n m) rfl (Nat.le_max_right n m) graph sources next).ok hm
    exact ⟨max n m, found', by rw [visitAll, hn', except_bind_ok, hm']⟩

theorem enumerate_returns (graph : DirectedGraph) : ∃ n pairs, enumerate_reachable_pairs n graph = .ok pairs := by
  obtain ⟨n, found, h⟩ := visitAll_ends graph graph.nodes.keys { pairs := [], seen := [] }
  exact ⟨n, found.pairs, by rw [enumerate_reachable_pairs, h]; rfl⟩

theorem enumerate_ends (graph : DirectedGraph) : Ends .outOfFuel (fun n => enumerate_reachable_pairs n graph) := by
  obtain ⟨n, pairs, h⟩ := enumerate_returns graph
  exact .of_ok h

/-! ## What it finds -/

theorem path_iff_explored {graph : DirectedGraph} {source x : String} :
    Explored graph.outNeighbors (graph.outNeighbors source) [] x ↔ graph.Path source x := by
  have hstep : (fun a b => b ∈ graph.outNeighbors a) = fun a b => (a, b) ∈ graph.edges := by
    funext a b
    exact propext DirectedGraph.mem_outNeighbors
  rw [explored_iff_path, hstep, DirectedGraph.Path, Relation.TransGen.head'_iff]
  simp only [DirectedGraph.mem_outNeighbors]

theorem pairKey_right_inj {source a b : String} (h : pairKey (source, a) = pairKey (source, b)) : a = b := by
  simp only [pairKey, String.append_assoc] at h
  exact append_left_cancel (append_left_cancel h)

/-- The keys are those of the pairs, each once. -/
structure Found.Keyed (found : Found) : Prop where
  seen : found.seen = found.pairs.map pairKey
  nodup : found.seen.Nodup

theorem Found.Keyed.add {found : Found} (h : found.Keyed) (pair : EdgeTuple) : (found.add pair).Keyed := by
  unfold Found.add
  split
  · exact h
  · rename_i hnew
    refine ⟨by simp [h.seen], ?_⟩
    exact (List.nodup_append.2 ⟨h.nodup, by simp, fun k hk k' hk' => by
      obtain rfl := List.mem_singleton.1 hk'
      rintro rfl
      exact hnew hk⟩)

/-- Adding the pairs of one source adds those whose key is new. -/
theorem add_source (source : String) {order : List String} (horder : order.Nodup) {found : Found} (hkeyed : found.Keyed) :
    let found' := order.foldl (fun found current => found.add (source, current)) found
    found'.Keyed ∧ (∀ k, k ∈ found'.seen ↔ k ∈ found.seen ∨ ∃ t ∈ order, k = pairKey (source, t)) ∧
      ∀ p, p ∈ found'.pairs ↔ p ∈ found.pairs ∨ p.1 = source ∧ p.2 ∈ order ∧ pairKey p ∉ found.seen := by
  induction order generalizing found with
  | nil => simp [hkeyed]
  | cons x order ih =>
    obtain ⟨hx, horder⟩ := List.nodup_cons.1 horder
    obtain ⟨hkeyed', hseen, hpairs⟩ := ih horder (hkeyed.add (source, x))
    refine ⟨hkeyed', fun k => ?_, fun p => ?_⟩
    · rw [List.foldl_cons, hseen]
      unfold Found.add
      split
      · rename_i hmem
        simp only [List.mem_cons, exists_eq_or_imp]
        constructor
        · rintro (hk | hk)
          · exact .inl hk
          · exact .inr (.inr hk)
        · rintro (hk | rfl | hk)
          · exact .inl hk
          · exact .inl hmem
          · exact .inr hk
      · simp [or_assoc]
    · rw [List.foldl_cons, hpairs]
      -- Another node of the same source has another key.
      have hother : p.1 = source → p.2 ∈ order → pairKey p ≠ pairKey (source, x) := by
        rintro rfl hmem heq
        exact hx (pairKey_right_inj heq ▸ hmem)
      unfold Found.add
      split
      · rename_i hmem
        have hfirst : p.1 = source → p.2 = x → pairKey p ∈ found.seen := by
          rintro rfl rfl
          exact hmem
        grind
      · rename_i hnew
        have hfirst : p.1 = source → p.2 = x → p = (source, x) := fun h1 h2 => Prod.ext h1 h2
        grind

/-- The pair is joined by a path, and no source that comes before its own has a
pair with its key. -/
def FirstFrom (graph : DirectedGraph) : List String → EdgeTuple → Prop
  | [], _ => False
  | source :: sources, p =>
    p.1 = source ∧ graph.Path p.1 p.2 ∨
      (∀ t, graph.Path source t → pairKey (source, t) ≠ pairKey p) ∧ FirstFrom graph sources p

theorem firstFrom_iff {graph : DirectedGraph} {sources : List String} {p : EdgeTuple} : FirstFrom graph sources p ↔
    graph.Path p.1 p.2 ∧ ∃ before after, sources = before ++ p.1 :: after ∧
      ∀ s ∈ before, ∀ t, graph.Path s t → pairKey (s, t) ≠ pairKey p := by
  induction sources with
  | nil => simp [FirstFrom]
  | cons source sources ih =>
    rw [FirstFrom, ih]
    constructor
    · rintro (⟨rfl, hpath⟩ | ⟨hfirst, hpath, before, after, rfl, hbefore⟩)
      · exact ⟨hpath, [], sources, rfl, by simp⟩
      · exact ⟨hpath, source :: before, after, rfl, List.forall_mem_cons.2 ⟨hfirst, hbefore⟩⟩
    · rintro ⟨hpath, before, after, heq, hbefore⟩
      cases before with
      | nil => exact .inl ⟨(List.cons.inj heq).1.symm, hpath⟩
      | cons s before =>
        obtain ⟨rfl, rfl⟩ := List.cons.inj heq
        rw [List.forall_mem_cons] at hbefore
        exact .inr ⟨hbefore.1, hpath, before, after, rfl, hbefore.2⟩

theorem visitAll_finds {graph : DirectedGraph} {n : ℕ} {sources : List String} {found found' : Found}
    (hkeyed : found.Keyed) (h : visitAll graph n sources found = .ok found') :
    found'.Keyed ∧ ∀ p, p ∈ found'.pairs ↔ p ∈ found.pairs ∨ FirstFrom graph sources p ∧ pairKey p ∉ found.seen := by
  induction sources generalizing found with
  | nil => cases h; exact ⟨hkeyed, fun p => by simp [FirstFrom]⟩
  | cons source sources ih =>
    obtain ⟨next, hnext, h⟩ := except_bind_eq_ok h
    rw [visit_eq] at hnext
    obtain ⟨order, rfl, hnodup, horder⟩ := worklist_spec hnext
    simp only [path_iff_explored] at horder
    obtain ⟨hkeyed1, hseen, hpairs⟩ := add_source source hnodup hkeyed
    obtain ⟨hkeyed2, hall⟩ := ih hkeyed1 h
    refine ⟨hkeyed2, fun p => ?_⟩
    rw [hall, hpairs, hseen, FirstFrom]
    simp only [horder, not_or, not_exists, not_and]
    have hsource : p.1 = source → (graph.Path source p.2 ↔ graph.Path p.1 p.2) := by
      rintro rfl
      exact Iff.rfl
    grind

/-- A path joins the pair, and no node that comes before its source has a pair
with the same key. -/
def Listed (graph : DirectedGraph) (p : EdgeTuple) : Prop :=
  graph.Path p.1 p.2 ∧ ∃ before after, graph.nodes.keys = before ++ p.1 :: after ∧
    ∀ s ∈ before, ∀ t, graph.Path s t → pairKey (s, t) ≠ pairKey p

/-- What the search lists, each pair once. -/
theorem enumerate_spec {graph : DirectedGraph} {n : ℕ} {pairs : List EdgeTuple}
    (h : enumerate_reachable_pairs n graph = .ok pairs) : pairs.Nodup ∧ ∀ p, p ∈ pairs ↔ Listed graph p := by
  obtain ⟨found, hf, h⟩ := except_bind_eq_ok h
  cases h
  obtain ⟨hkeyed, hall⟩ := visitAll_finds ⟨rfl, List.nodup_nil⟩ hf
  refine ⟨List.Nodup.of_map pairKey (hkeyed.seen ▸ hkeyed.nodup), fun p => ?_⟩
  rw [hall, firstFrom_iff, Listed]
  simp

theorem path_source {graph : DirectedGraph} {a b : String} (h : graph.Path a b) : graph.nodes.has a = true := by
  obtain ⟨c, hc, -⟩ := Relation.TransGen.head'_iff.1 h
  exact (graph.ends _ hc).1

/-- No two pairs joined by a path have the same key. -/
def KeysDistinct (graph : DirectedGraph) : Prop :=
  ∀ p q : EdgeTuple, graph.Path p.1 p.2 → graph.Path q.1 q.2 → pairKey p = pairKey q → p = q

theorem listed_iff_path {graph : DirectedGraph} (h : KeysDistinct graph) (p : EdgeTuple) :
    Listed graph p ↔ graph.Path p.1 p.2 := by
  refine ⟨And.left, fun hpath => ⟨hpath, ?_⟩⟩
  obtain ⟨before, after, hkeys⟩ := List.append_of_mem ((graph.nodes.has_iff_mem_keys p.1).1 (path_source hpath))
  refine ⟨before, after, hkeys, fun s hs t ht heq => ?_⟩
  obtain rfl := h _ _ ht hpath heq
  have hnodup : graph.nodes.keys.Nodup := graph.nodes.nodup
  rw [hkeys] at hnodup
  exact (List.nodup_append.1 hnodup).2.2 s hs s List.mem_cons_self rfl

/-- Of two pairs with one key, at most one is listed. -/
theorem keysDistinct_of_listed {graph : DirectedGraph} (h : ∀ p : EdgeTuple, graph.Path p.1 p.2 → Listed graph p) :
    KeysDistinct graph := by
  intro p q hp hq heq
  obtain ⟨-, before, after, hkeys, hbefore⟩ := h p hp
  obtain ⟨-, before', after', hkeys', hbefore'⟩ := h q hq
  -- Neither source comes before the other.
  have hp' : p.1 ∉ before' := fun hmem => hbefore' p.1 hmem p.2 hp heq
  have hq' : q.1 ∉ before := fun hmem => hbefore q.1 hmem q.2 hq heq.symm
  have hsource : p.1 = q.1 := by
    rw [hkeys] at hkeys'
    rcases List.append_eq_append_iff.1 hkeys' with ⟨mid, rfl, hmid⟩ | ⟨mid, rfl, hmid⟩
    · cases mid with
      | nil => exact (List.cons.inj hmid).1
      | cons m mid =>
        obtain ⟨rfl, -⟩ := List.cons.inj hmid
        exact absurd (by simp) hp'
    · cases mid with
      | nil => exact (List.cons.inj hmid).1.symm
      | cons m mid =>
        obtain ⟨rfl, -⟩ := List.cons.inj hmid
        exact absurd (by simp) hq'
  obtain ⟨s, t⟩ := p
  obtain ⟨s', t'⟩ := q
  obtain rfl : s = s' := hsource
  rw [pairKey_right_inj heq]

/-- No arrow in the node ids. -/
def ArrowFree (graph : DirectedGraph) : Prop := ∀ id, graph.nodes.has id = true → includes id "->" = false

theorem arrow_append_inj {l l' r r' : List Char} (h : l ++ '-' :: '>' :: r = l' ++ '-' :: '>' :: r')
    (hl : indexOfList ['-', '>'] l = none) (hl' : indexOfList ['-', '>'] l' = none) : l = l' ∧ r = r' := by
  -- Where one side ends the other goes on with an arrow of its own.
  have hshort : ∀ {c : Char} {cs r r' : List Char}, '-' :: '>' :: r = c :: cs ++ '-' :: '>' :: r' →
      indexOfList ['-', '>'] (c :: cs) ≠ none := by
    intro c cs r r' h
    cases cs with
    | nil => simp at h
    | cons d cs =>
      simp only [List.cons_append, List.cons.injEq] at h
      obtain ⟨rfl, rfl, -⟩ := h
      simp [indexOfList]
  induction l generalizing l' with
  | nil =>
    cases l' with
    | nil => simpa using h
    | cons c l' => exact absurd hl' (hshort h)
  | cons c l ih =>
    cases l' with
    | nil => exact absurd hl (hshort h.symm)
    | cons c' l' =>
      simp only [List.cons_append, List.cons.injEq] at h
      obtain ⟨rfl, h⟩ := h
      have htail : ∀ cs : List Char, indexOfList ['-', '>'] (c :: cs) = none → indexOfList ['-', '>'] cs = none := by
        intro cs hcs
        rw [indexOfList] at hcs
        split at hcs
        · cases hcs
        · simpa using hcs
      obtain ⟨rfl, rfl⟩ := ih h (htail l hl) (htail l' hl')
      exact ⟨rfl, rfl⟩

theorem pairKey_inj {p q : EdgeTuple} (hp : includes p.1 "->" = false) (hq : includes q.1 "->" = false)
    (h : pairKey p = pairKey q) : p = q := by
  have hlist := congrArg String.toList h
  simp only [pairKey, String.toList_append, List.append_assoc] at hlist
  simp only [includes, indexOf, Option.isSome_eq_false_iff, Option.isNone_iff_eq_none] at hp hq
  obtain ⟨h1, h2⟩ := arrow_append_inj hlist hp hq
  exact Prod.ext (String.toList_inj.1 h1) (String.toList_inj.1 h2)

theorem keysDistinct_of_arrowFree {graph : DirectedGraph} (hids : ArrowFree graph) : KeysDistinct graph :=
  fun _ _ hp hq heq => pairKey_inj (hids _ (path_source hp)) (hids _ (path_source hq)) heq

/-- Where no id has an arrow, the search lists exactly the pairs joined by a path. -/
theorem mem_enumerate {graph : DirectedGraph} (hids : ArrowFree graph) {n : ℕ} {pairs : List EdgeTuple}
    (h : enumerate_reachable_pairs n graph = .ok pairs) (a b : String) : (a, b) ∈ pairs ↔ graph.Path a b :=
  ((enumerate_spec h).2 (a, b)).trans (listed_iff_path (keysDistinct_of_arrowFree hids) (a, b))

end LainLang.Tracer
