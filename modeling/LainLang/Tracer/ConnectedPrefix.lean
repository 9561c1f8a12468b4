import LainLang.Tracer.CardNetwork
import LainLang.Tracer.Combinators
import Mathlib.Data.List.Nodup
/-!
# The connected subgraph of a label prefix

`get_connected_subgraph_by_label_prefix` keeps the nodes whose label begins with a
prefix, and the nodes of a shortest path from each of them to each later one. The
paths follow the edges, so nodes that are only connected against them may come apart.
`bidirectional` of graphology-shortest-path and `subgraph` of graphology-operators
are parameters.
-/
open LainLang.Lib LainLang.Js

namespace LainLang.Tracer

/-! ## Routes -/

/-- A walk along the edges, as the list of its nodes. -/
inductive IsRoute (graph : DirectedGraph) : String → String → List String → Prop where
  | stay (a : String) : IsRoute graph a a [a]
  | step {a c b : String} {route : List String} (edge : (a, c) ∈ graph.edges) (rest : IsRoute graph c b route) :
      IsRoute graph a b (a :: route)

/-- A path from one node to another, or null. -/
abbrev PathFinder := DirectedGraph → String → String → Option (List String)

/-- The paths found in the graph are the shortest, and none is missed. -/
structure ShortestPaths (bidirectional : PathFinder) (graph : DirectedGraph) : Prop where
  shortest : ∀ a b path, bidirectional graph a b = some path →
    IsRoute graph a b path ∧ ∀ route, IsRoute graph a b route → path.length ≤ route.length
  null : ∀ a b, graph.hasNode a = true → graph.hasNode b = true → bidirectional graph a b = none →
    ∀ route, ¬ IsRoute graph a b route

/-- Along the edges, in any number of steps. -/
def Reaches (graph : DirectedGraph) : String → String → Prop := Relation.ReflTransGen fun a b => (a, b) ∈ graph.edges

section
variable {graph : DirectedGraph} {a b : String} {route : List String}

theorem IsRoute.start_mem (h : IsRoute graph a b route) : a ∈ route := by
  cases h with
  | stay => exact List.mem_cons_self
  | step => exact List.mem_cons_self

/-- A route passes through each of its nodes. -/
theorem IsRoute.through {R : String → String → Prop} (h : IsRoute graph a b route)
    (hR : ∀ x ∈ route, ∀ y ∈ route, (x, y) ∈ graph.edges → R x y) {k : String} (hk : k ∈ route) :
    Relation.ReflTransGen R a k ∧ Relation.ReflTransGen R k b := by
  induction h generalizing k with
  | stay a =>
    rw [List.mem_singleton.1 hk]
    exact ⟨.refl, .refl⟩
  | @step a c b route hedge hrest ih =>
    have htail : ∀ k ∈ route, Relation.ReflTransGen R c k ∧ Relation.ReflTransGen R k b :=
      fun k hk => ih (fun x hx y hy => hR x (List.mem_cons_of_mem _ hx) y (List.mem_cons_of_mem _ hy)) hk
    have hfirst : R a c := hR a List.mem_cons_self c (List.mem_cons_of_mem _ hrest.start_mem) hedge
    rcases List.mem_cons.1 hk with rfl | hk
    · exact ⟨.refl, (htail c hrest.start_mem).2.head hfirst⟩
    · exact ⟨(htail k hk).1.head hfirst, (htail k hk).2⟩

theorem reaches_iff_route : Reaches graph a b ↔ ∃ route, IsRoute graph a b route := by
  constructor
  · intro h
    induction h using Relation.ReflTransGen.head_induction_on with
    | refl => exact ⟨[b], .stay b⟩
    | head hedge _ ih =>
      obtain ⟨route, hroute⟩ := ih
      exact ⟨_ :: route, .step hedge hroute⟩
  · rintro ⟨route, hroute⟩
    exact (hroute.through (fun _ _ _ _ hedge => hedge) hroute.start_mem).2

theorem connected_equivalence (graph : DirectedGraph) : Equivalence (Connected graph) where
  refl _ := .refl
  symm h := Relation.ReflTransGen.mono (fun _ _ => Or.symm) _ _ h.swap
  trans h h' := h.trans h'

end

/-! ## The subgraph -/

/-- The label starts with the text. -/
def isMatch (attr : Attributes) (start : String) : Bool := isStringFrom start (get_attr attr "label")

/-- The nodes whose label begins with the prefix, in the order of the graph. -/
def matched (graph : DirectedGraph) (start : String) : List String :=
  (graph.nodes.entries.filter fun node => isMatch node.2 start).map Prod.fst

variable (bidirectional : PathFinder)

/-- The path between a pair. -/
def keep_path (graph : DirectedGraph) (a : String) (keep : List String) (b : String) : List String :=
  (bidirectional graph a b).elim keep fun path => path.foldl (fun keep node => keep.insert node) keep

/-- The loop over the pairs. -/
def keep_paths (graph : DirectedGraph) : List String → List String → List String
  | [], keep => keep
  | a :: later, keep => keep_paths graph later (later.foldl (keep_path bidirectional graph a) keep)

/-- The matches, with what lies on the paths between them. -/
def get_connected_subgraph_by_label_prefix
    (subgraph : DirectedGraph → (String → Attributes → Bool) → DirectedGraph) (graph : DirectedGraph) (start : String) :
    DirectedGraph :=
  let matched := matched graph start
  if matched.length ≤ 1 then subgraph graph fun _ attr => isMatch attr start
  else
    let keep := keep_paths bidirectional graph matched matched
    subgraph graph fun key _ => decide (key ∈ keep)

/-! ## What is kept -/

section
variable {graph : DirectedGraph} {start : String}

theorem isMatch_iff {attr : Attributes} :
    isMatch attr start = true ↔ ∃ label, get_attr attr "label" = .str label ∧ startsWith label start = true := by
  unfold isMatch isStringFrom
  split
  · rename_i text htext
    simp [htext, Term.str]
  · rename_i hother
    refine iff_of_false Bool.false_ne_true ?_
    rintro ⟨label, hlabel, -⟩
    exact hother label hlabel

theorem mem_matched {id : String} : id ∈ matched graph start ↔ LabelBegins graph start id := by
  simp only [matched, List.mem_map, List.mem_filter, Prod.exists, isMatch_iff, OrdMap.mem_entries_iff]
  constructor
  · rintro ⟨_, attr, ⟨hattr, label, hlabel, htest⟩, rfl⟩
    exact ⟨attr, label, hattr, hlabel, htest⟩
  · rintro ⟨attr, label, hattr, hlabel, htest⟩
    exact ⟨id, attr, ⟨hattr, label, hlabel, htest⟩, rfl⟩

theorem nodup_matched : (matched graph start).Nodup := graph.nodes.nodup.sublist (List.filter_sublist.map Prod.fst)

theorem LabelBegins.hasNode {id : String} (h : LabelBegins graph start id) : graph.hasNode id = true := by
  obtain ⟨attrs, -, hattrs, -⟩ := h
  exact (OrdMap.has_iff ..).2 ⟨attrs, hattrs⟩

end

/-- `a` stands before `b` in the list. -/
def EarlierIn (xs : List String) (a b : String) : Prop := a ∈ xs ∧ b ∈ xs ∧ xs.idxOf a < xs.idxOf b

theorem earlierIn_cons {x : String} {xs : List String} (hx : x ∉ xs) {a b : String} :
    EarlierIn (x :: xs) a b ↔ a = x ∧ b ∈ xs ∨ EarlierIn xs a b := by
  have hne : ∀ y ∈ xs, (x :: xs).idxOf y = xs.idxOf y + 1 := by
    intro y hy
    refine List.idxOf_cons_ne xs fun heq => ?_
    exact hx (heq ▸ hy)
  constructor
  · rintro ⟨ha, hb, hlt⟩
    have hb' : b ∈ xs := by
      rcases List.mem_cons.1 hb with rfl | hb
      · rw [List.idxOf_cons_self] at hlt
        omega
      · exact hb
    rcases List.mem_cons.1 ha with rfl | ha
    · exact .inl ⟨rfl, hb'⟩
    · rw [hne a ha, hne b hb'] at hlt
      exact .inr ⟨ha, hb', by omega⟩
  · rintro (⟨rfl, hb⟩ | ⟨ha, hb, hlt⟩)
    · refine ⟨List.mem_cons_self, List.mem_cons_of_mem _ hb, ?_⟩
      rw [List.idxOf_cons_self, hne b hb]
      omega
    · refine ⟨List.mem_cons_of_mem _ ha, List.mem_cons_of_mem _ hb, ?_⟩
      rw [hne a ha, hne b hb]
      omega

variable {bidirectional}

theorem mem_keep_path {graph : DirectedGraph} {a b k : String} {keep : List String} :
    k ∈ keep_path bidirectional graph a keep b ↔ k ∈ keep ∨ ∃ path, bidirectional graph a b = some path ∧ k ∈ path := by
  have hadd : ∀ path keep : List String, k ∈ path.foldl (fun keep node => keep.insert node) keep ↔ k ∈ keep ∨ k ∈ path := by
    intro path
    induction path with
    | nil => simp
    | cons node path ih =>
      intro keep
      rw [List.foldl_cons, ih, List.mem_insert_iff, List.mem_cons]
      tauto
  unfold keep_path
  cases bidirectional graph a b with
  | none => simp
  | some path => simp [hadd]

theorem mem_keep_later {graph : DirectedGraph} {a k : String} {later keep : List String} :
    k ∈ later.foldl (keep_path bidirectional graph a) keep ↔
      k ∈ keep ∨ ∃ b ∈ later, ∃ path, bidirectional graph a b = some path ∧ k ∈ path := by
  induction later generalizing keep with
  | nil => simp
  | cons b later ih =>
    rw [List.foldl_cons, ih, mem_keep_path]
    simp only [List.mem_cons, exists_eq_or_imp, or_assoc]

theorem mem_keep_paths {graph : DirectedGraph} {xs : List String} (hxs : xs.Nodup) {k : String} {keep : List String} :
    k ∈ keep_paths bidirectional graph xs keep ↔
      k ∈ keep ∨ ∃ a b, EarlierIn xs a b ∧ ∃ path, bidirectional graph a b = some path ∧ k ∈ path := by
  induction xs generalizing keep with
  | nil => simp [keep_paths, EarlierIn]
  | cons x xs ih =>
    rw [List.nodup_cons] at hxs
    rw [keep_paths, ih hxs.2, mem_keep_later]
    simp only [earlierIn_cons hxs.1]
    constructor
    · rintro ((hk | ⟨b, hb, hpath⟩) | ⟨a, b, hab, hpath⟩)
      · exact .inl hk
      · exact .inr ⟨x, b, .inl ⟨rfl, hb⟩, hpath⟩
      · exact .inr ⟨a, b, .inr hab, hpath⟩
    · rintro (hk | ⟨a, b, ⟨rfl, hb⟩ | hab, hpath⟩)
      · exact .inl (.inl hk)
      · exact .inl (.inr ⟨b, hb, hpath⟩)
      · exact .inr ⟨a, b, hab, hpath⟩

/-- The code keeps `k` with the pair: as a node of the path from `a` to the later
`b`, or as `a` and `b` themselves. -/
def KeptFor (bidirectional : PathFinder) (graph : DirectedGraph) (start k a b : String) : Prop :=
  a = b ∧ k = a ∧ a ∈ matched graph start ∨
    EarlierIn (matched graph start) a b ∧ ∃ path, bidirectional graph a b = some path ∧ k ∈ path

theorem mem_kept {graph : DirectedGraph} {start k : String} :
    k ∈ keep_paths bidirectional graph (matched graph start) (matched graph start) ↔
      ∃ a b, KeptFor bidirectional graph start k a b := by
  rw [mem_keep_paths nodup_matched]
  constructor
  · rintro (hk | ⟨a, b, hab, hpath⟩)
    · exact ⟨k, k, .inl ⟨rfl, rfl, hk⟩⟩
    · exact ⟨a, b, .inr ⟨hab, hpath⟩⟩
  · rintro ⟨a, b, ⟨-, rfl, hk⟩ | ⟨hab, hpath⟩⟩
    · exact .inl hk
    · exact .inr ⟨a, b, hab, hpath⟩

/-- What graphology-operators promises of a subgraph of this graph. -/
def Subgraphs (subgraph : DirectedGraph → (String → Attributes → Bool) → DirectedGraph) (graph : DirectedGraph) : Prop :=
  ∀ keep, Induced graph (subgraph graph keep) fun id => ∃ attrs, graph.nodes.get? id = some attrs ∧ keep id attrs = true

theorem connected_subgraph_induced {subgraph : DirectedGraph → (String → Attributes → Bool) → DirectedGraph}
    {graph sub : DirectedGraph} (hsub : Subgraphs subgraph graph) {start : String}
    (h : sub = get_connected_subgraph_by_label_prefix bidirectional subgraph graph start) :
    Induced graph sub fun k => ∃ a b, KeptFor bidirectional graph start k a b := by
  subst h
  unfold get_connected_subgraph_by_label_prefix
  dsimp only
  split
  · rename_i hfew
    refine (hsub _).congr fun k _ => ?_
    have hmatch : (∃ attr, graph.nodes.get? k = some attr ∧ isMatch attr start = true) ↔ k ∈ matched graph start := by
      rw [mem_matched, LabelBegins]
      simp only [isMatch_iff]
      constructor
      · rintro ⟨attr, hattr, label, hlabel⟩
        exact ⟨attr, label, hattr, hlabel⟩
      · rintro ⟨attr, label, hattr, hlabel⟩
        exact ⟨attr, hattr, label, hlabel⟩
    rw [hmatch]
    constructor
    · exact fun hk => ⟨k, k, .inl ⟨rfl, rfl, hk⟩⟩
    · rintro ⟨a, b, ⟨-, rfl, hk⟩ | ⟨⟨-, hb, hlt⟩, -⟩⟩
      · exact hk
      · -- One node is not before another.
        have := List.idxOf_lt_length_of_mem hb
        omega
  · refine (hsub _).congr fun k hnode => ?_
    obtain ⟨attrs, hattrs⟩ := (OrdMap.has_iff ..).1 hnode
    simp only [hattrs, Option.some.injEq, exists_eq_left', decide_eq_true_eq]
    exact mem_kept

/-! ## What stays connected -/

/-- `x` stands before `y`, and reaches it along the edges; or an edge leads to a path
that was found to `x` from one that was found from `y`. -/
inductive Linked (bidirectional : PathFinder) (graph : DirectedGraph) (start x y : String) : Prop where
  | forth (before : EarlierIn (matched graph start) x y) (reaches : Reaches graph x y)
  | back {u v w z : String} (before : EarlierIn (matched graph start) x y)
      (leaves : KeptFor bidirectional graph start u y z) (edge : (u, v) ∈ graph.edges)
      (arrives : KeptFor bidirectional graph start v w x)

section
variable {graph : DirectedGraph} {start : String} (hpaths : ShortestPaths bidirectional graph)
include hpaths

/-- The path between a pair is a route, so what is on it is reached and reaches. -/
theorem KeptFor.spec {k a b : String} (h : KeptFor bidirectional graph start k a b) :
    (a ∈ matched graph start ∧ b ∈ matched graph start ∧ (a = b ∨ EarlierIn (matched graph start) a b)) ∧
      Reaches graph a k ∧ Reaches graph k b := by
  rcases h with ⟨rfl, rfl, ha⟩ | ⟨hab, path, hpath, hk⟩
  · exact ⟨⟨ha, ha, .inl rfl⟩, .refl, .refl⟩
  · have hroute := (hpaths.shortest a b path hpath).1
    exact ⟨⟨hab.1, hab.2.1, .inr hab⟩, hroute.through (fun _ _ _ _ hedge => hedge) hk⟩

theorem KeptFor.linked {k a b : String} (h : KeptFor bidirectional graph start k a b) :
    Relation.EqvGen (Linked bidirectional graph start) a b := by
  obtain ⟨⟨-, -, hab⟩, hak, hkb⟩ := h.spec hpaths
  rcases hab with rfl | hab
  · exact .refl a
  · exact .rel a b (.forth hab (hak.trans hkb))

/-- A node kept for two pairs links them: one of the pairs has its first node before
the last node of the other, and reaches it. -/
theorem KeptFor.linked_same {k a b c d : String} (h : KeptFor bidirectional graph start k a b)
    (h' : KeptFor bidirectional graph start k c d) : Relation.EqvGen (Linked bidirectional graph start) a c := by
  obtain ⟨⟨ha, hb, hab⟩, hak, hkb⟩ := h.spec hpaths
  obtain ⟨⟨hc, hd, hcd⟩, hck, hkd⟩ := h'.spec hpaths
  have hab_le : (matched graph start).idxOf a ≤ (matched graph start).idxOf b := by
    rcases hab with rfl | hab
    · exact Nat.le_refl _
    · exact hab.2.2.le
  have hcd_le : (matched graph start).idxOf c ≤ (matched graph start).idxOf d := by
    rcases hcd with rfl | hcd
    · exact Nat.le_refl _
    · exact hcd.2.2.le
  rcases Nat.lt_trichotomy ((matched graph start).idxOf a) ((matched graph start).idxOf d) with hlt | hsame | hlt
  · exact .trans a d c (.rel a d (.forth ⟨ha, hd, hlt⟩ (hak.trans hkd))) (.symm c d (h'.linked hpaths))
  · rw [(List.idxOf_inj ha).1 hsame]
    exact .symm c d (h'.linked hpaths)
  · -- The second pair stands before the first, so its first node is before `b`.
    have hcb : EarlierIn (matched graph start) c b := ⟨hc, hb, by omega⟩
    exact .trans a b c (h.linked hpaths) (.symm c b (.rel c b (.forth hcb (hck.trans hkb))))

/-- So does an edge between nodes that are kept. -/
theorem KeptFor.linked_edge {u v a b c d : String} (hu : KeptFor bidirectional graph start u a b)
    (hv : KeptFor bidirectional graph start v c d) (hedge : (u, v) ∈ graph.edges) :
    Relation.EqvGen (Linked bidirectional graph start) a c := by
  obtain ⟨⟨ha, -, -⟩, hau, -⟩ := hu.spec hpaths
  obtain ⟨⟨-, hd, -⟩, -, hvd⟩ := hv.spec hpaths
  have hreaches : Reaches graph a d := (hau.tail hedge).trans hvd
  refine .trans a d c ?_ (.symm c d (hv.linked hpaths))
  rcases Nat.lt_trichotomy ((matched graph start).idxOf a) ((matched graph start).idxOf d) with hlt | hsame | hlt
  · exact .rel a d (.forth ⟨ha, hd, hlt⟩ hreaches)
  · rw [(List.idxOf_inj ha).1 hsame]
    exact .refl d
  · exact .symm d a (.rel d a (.back ⟨hd, ha, hlt⟩ hu hedge hv))

variable {sub : DirectedGraph} (hsub : Induced graph sub fun k => ∃ a b, KeptFor bidirectional graph start k a b)
include hsub

/-- Connected nodes of the subgraph are kept for linked pairs. -/
theorem linked_of_connected {a k : String} (ha : a ∈ matched graph start) (h : Connected sub a k) {c d : String}
    (hk : KeptFor bidirectional graph start k c d) : Relation.EqvGen (Linked bidirectional graph start) a c := by
  induction h generalizing c d with
  | refl =>
    have hself : KeptFor bidirectional graph start a a a := .inl ⟨rfl, rfl, ha⟩
    exact hself.linked_same hpaths hk
  | tail _ hedge ih =>
    rcases hedge with hedge | hedge
    · obtain ⟨hmem, ⟨c', d', hkept⟩, -⟩ := (hsub.edges _).1 hedge
      exact .trans _ _ _ (ih hkept) (hkept.linked_edge hpaths hk hmem)
    · obtain ⟨hmem, -, c', d', hkept⟩ := (hsub.edges _).1 hedge
      exact .trans _ _ _ (ih hkept) (.symm _ _ (hk.linked_edge hpaths hkept hmem))

/-- A node kept for a pair is connected with both. -/
theorem KeptFor.connected {k a b : String} (h : KeptFor bidirectional graph start k a b) :
    Connected sub a k ∧ Connected sub k b := by
  rcases h with ⟨rfl, rfl, -⟩ | ⟨hab, path, hpath, hk⟩
  · exact ⟨.refl, .refl⟩
  · refine (hpaths.shortest a b path hpath).1.through (fun x hx y hy hedge => .inl ?_) hk
    exact (hsub.edges _).2 ⟨hedge, ⟨a, b, .inr ⟨hab, path, hpath, hx⟩⟩, a, b, .inr ⟨hab, path, hpath, hy⟩⟩

theorem Linked.connected {x y : String} (h : Linked bidirectional graph start x y) : Connected sub x y := by
  rcases h with ⟨hxy, hreaches⟩ | @⟨u, v, w, z, hxy, hleaves, hedge, harrives⟩
  · cases hpath : bidirectional graph x y with
    | none =>
      obtain ⟨route, hroute⟩ := reaches_iff_route.1 hreaches
      have hx := (mem_matched.1 hxy.1).hasNode
      have hy := (mem_matched.1 hxy.2.1).hasNode
      exact absurd hroute (hpaths.null x y hx hy hpath route)
    | some path =>
      have hstart : KeptFor bidirectional graph start x x y :=
        .inr ⟨hxy, path, hpath, (hpaths.shortest x y path hpath).1.start_mem⟩
      exact (hstart.connected hpaths hsub).2
  · have hkept : (u, v) ∈ sub.edges := (hsub.edges _).2 ⟨hedge, ⟨y, z, hleaves⟩, w, x, harrives⟩
    have hyv : Connected sub y v := (hleaves.connected hpaths hsub).1.tail (.inl hkept)
    exact (connected_equivalence sub).symm (hyv.trans (harrives.connected hpaths hsub).2)

/-- In the subgraph the matched nodes are connected that a chain of links joins. -/
theorem connected_iff_linked {a b : String} (ha : a ∈ matched graph start) (hb : b ∈ matched graph start) :
    Connected sub a b ↔ Relation.EqvGen (Linked bidirectional graph start) a b := by
  constructor
  · exact fun h => linked_of_connected hpaths hsub ha h (.inl ⟨rfl, rfl, hb⟩)
  · intro h
    rw [← (connected_equivalence sub).eqvGen_iff]
    exact h.mono fun x y hxy => hxy.connected hpaths hsub

end

/-- Matched nodes that are connected in the graph are nodes of the subgraph, and
connected in it. -/
def StaysConnected (bidirectional : PathFinder) (subgraph : DirectedGraph → (String → Attributes → Bool) → DirectedGraph)
    (graph : DirectedGraph) (start : String) : Prop :=
  let sub := get_connected_subgraph_by_label_prefix bidirectional subgraph graph start
  ∀ a b, LabelBegins graph start a → LabelBegins graph start b → Connected graph a b →
    (sub.hasNode a = true ∧ sub.hasNode b = true) ∧ Connected sub a b

/-- Matched nodes that are connected stay so if and only if a chain of links joins
them; the edges between them are not enough. -/
theorem stays_connected_iff {bidirectional : PathFinder}
    {subgraph : DirectedGraph → (String → Attributes → Bool) → DirectedGraph} {graph : DirectedGraph} {start : String}
    (hpaths : ShortestPaths bidirectional graph) (hsub : Subgraphs subgraph graph) :
    StaysConnected bidirectional subgraph graph start ↔
      ∀ a b, LabelBegins graph start a → LabelBegins graph start b → Connected graph a b →
        Relation.EqvGen (Linked bidirectional graph start) a b := by
  set sub := get_connected_subgraph_by_label_prefix bidirectional subgraph graph start with hdef
  have hinduced := connected_subgraph_induced hsub hdef
  have hnode : ∀ a, LabelBegins graph start a → sub.hasNode a = true := fun a ha =>
    (hinduced.hasNode_iff a).2 ⟨ha.hasNode, a, a, .inl ⟨rfl, rfl, mem_matched.2 ha⟩⟩
  refine forall_congr' fun a => forall_congr' fun b => ?_
  refine forall_congr' fun ha => forall_congr' fun hb => forall_congr' fun _ => ?_
  rw [← connected_iff_linked hpaths hinduced (mem_matched.2 ha) (mem_matched.2 hb)]
  exact and_iff_right ⟨hnode a ha, hnode b hb⟩

/-! ## A search for short routes -/

/-- The shortest route of at most the given number of edges. -/
def route_within (graph : DirectedGraph) : ℕ → String → String → Option (List String)
  | 0, a, b => if a = b then some [a] else none
  | n + 1, a, b =>
    (route_within graph n a b).or ((graph.outNeighbors a).findSome? fun c => (route_within graph n c b).map (a :: ·))

theorem IsRoute.length_pos {graph : DirectedGraph} {a b : String} {route : List String} (h : IsRoute graph a b route) :
    0 < route.length := List.length_pos_of_mem h.start_mem

/-- Where nothing is found every route is longer. -/
theorem route_within_none {graph : DirectedGraph} {n : ℕ} {a b : String} (h : route_within graph n a b = none)
    {route : List String} (hroute : IsRoute graph a b route) : n + 1 < route.length := by
  induction n generalizing a route with
  | zero =>
    cases hroute with
    | stay => simp [route_within] at h
    | step _ hrest =>
      have := hrest.length_pos
      simp only [List.length_cons]
      omega
  | succ n ih =>
    rw [route_within, Option.or_eq_none_iff] at h
    cases hroute with
    | stay =>
      have := ih h.1 (.stay b)
      simp at this
    | @step _ c _ rest hedge hrest =>
      have hmap := List.findSome?_eq_none_iff.1 h.2 c (DirectedGraph.mem_outNeighbors.2 hedge)
      have := ih (Option.map_eq_none_iff.1 hmap) hrest
      simp only [List.length_cons]
      omega

/-- What is found is a route, and as short as any. -/
theorem route_within_some {graph : DirectedGraph} {n : ℕ} {a b : String} {path : List String}
    (h : route_within graph n a b = some path) : IsRoute graph a b path ∧ path.length ≤ n + 1 ∧
      ∀ route, IsRoute graph a b route → path.length ≤ route.length := by
  induction n generalizing a path with
  | zero =>
    rw [route_within] at h
    split at h
    · rename_i hab
      subst hab
      obtain rfl := Option.some.inj h
      exact ⟨.stay a, Nat.le_refl _, fun route hroute => hroute.length_pos⟩
    · cases h
  | succ n ih =>
    rw [route_within] at h
    cases hshorter : route_within graph n a b with
    | some path' =>
      rw [hshorter, Option.some_or] at h
      obtain rfl := Option.some.inj h
      obtain ⟨hroute, hlength, hleast⟩ := ih hshorter
      exact ⟨hroute, by omega, hleast⟩
    | none =>
      rw [hshorter, Option.none_or] at h
      obtain ⟨c, hc, hmap⟩ := List.exists_of_findSome?_eq_some h
      obtain ⟨rest, hrest, rfl⟩ := Option.map_eq_some_iff.1 hmap
      obtain ⟨hroute, hlength, -⟩ := ih hrest
      refine ⟨.step (DirectedGraph.mem_outNeighbors.1 hc) hroute, by simpa using hlength, fun route hroute' => ?_⟩
      have := route_within_none hshorter hroute'
      simp only [List.length_cons]
      omega

theorem shortestPaths_within {graph : DirectedGraph} {n : ℕ}
    (hlength : ∀ a b route, IsRoute graph a b route → route.length ≤ n + 1) :
    ShortestPaths (fun graph => route_within graph n) graph where
  shortest a b path hpath := by
    obtain ⟨hroute, -, hleast⟩ := route_within_some hpath
    exact ⟨hroute, hleast⟩
  null a b _ _ hnone route hroute := by
    have hlong := route_within_none hnone hroute
    have hshort := hlength a b route hroute
    omega

/-! ## A cell and the cell it is computed from -/

/-- A relay between two matches. -/
def relayEdges : List EdgeTuple := [("p", "r"), ("i", "p")]

/-- As the upstream tracer draws it, the root `r` first. -/
def rootFirst : DirectedGraph where
  nodes := ((OrdMap.empty.set "r" [("label", .str "CELL|CARD|1|::this")]).set "p" [("label", .str "PROPAGATOR|add")]).set
    "i" [("label", .str "CELL|CARD|2|::this")]
  edges := relayEdges
  nodup := by decide
  ends := by decide

/-- The same graph, with the input first. -/
def inputFirst : DirectedGraph where
  nodes := ((OrdMap.empty.set "i" [("label", .str "CELL|CARD|2|::this")]).set "p" [("label", .str "PROPAGATOR|add")]).set
    "r" [("label", .str "CELL|CARD|1|::this")]
  edges := relayEdges
  nodup := by decide
  ends := by decide

theorem relay_routes {graph : DirectedGraph} (hedges : graph.edges = relayEdges) (a b : String) (route : List String)
    (h : IsRoute graph a b route) : route.length ≤ 2 + 1 := by
  have hrank : route.length ≤ if a = "r" then 1 else if a = "p" then 2 else 3 := by
    induction h with
    | stay a =>
      split
      · exact Nat.le_refl _
      · split <;> simp
    | step hedge _ ih =>
      rw [hedges] at hedge
      simp only [relayEdges, List.mem_cons, Prod.mk.injEq, List.not_mem_nil, or_false] at hedge
      rcases hedge with ⟨rfl, rfl⟩ | ⟨rfl, rfl⟩
      · rw [if_pos rfl] at ih
        rw [if_neg (by decide), if_pos rfl]
        exact Nat.succ_le_succ ih
      · rw [if_neg (by decide), if_pos rfl] at ih
        rw [if_neg (by decide), if_neg (by decide)]
        exact Nat.succ_le_succ ih
  split at hrank
  · omega
  · split at hrank <;> omega

theorem stays_connected_iff_inputFirst :
    StaysConnected (fun graph => route_within graph 2) induced_subgraph_by_node_predicate inputFirst "CELL|CARD|" := by
  refine (stays_connected_iff (shortestPaths_within (relay_routes rfl)) (induced_by_predicate inputFirst)).2 ?_
  intro a b ha hb _
  have hmatched : matched inputFirst "CELL|CARD|" = ["i", "r"] := by decide
  have hends : Relation.EqvGen (Linked (fun graph => route_within graph 2) inputFirst "CELL|CARD|") "i" "r" := by
    refine .rel "i" "r" (.forth ?_ ?_)
    · rw [hmatched]
      exact ⟨by decide, by decide, by decide⟩
    · exact .head (b := "p") (by decide) (.single (by decide))
  have ha' := mem_matched.2 ha
  have hb' := mem_matched.2 hb
  simp only [hmatched, List.mem_cons, List.not_mem_nil, or_false] at ha' hb'
  rcases ha' with rfl | rfl
  · rcases hb' with rfl | rfl
    · exact .refl _
    · exact hends
  · rcases hb' with rfl | rfl
    · exact .symm _ _ hends
    · exact .refl _

/-- No path leads from the root to the input, so the propagator between them is lost. -/
theorem upstream_comes_apart : ShortestPaths (fun graph => route_within graph 2) rootFirst ∧
    Subgraphs induced_subgraph_by_node_predicate rootFirst ∧
    ¬ StaysConnected (fun graph => route_within graph 2) induced_subgraph_by_node_predicate rootFirst "CELL|CARD|" := by
  refine ⟨shortestPaths_within (relay_routes rfl), induced_by_predicate rootFirst, fun h => ?_⟩
  have hr : LabelBegins rootFirst "CELL|CARD|" "r" := mem_matched.1 (by decide)
  have hi : LabelBegins rootFirst "CELL|CARD|" "i" := mem_matched.1 (by decide)
  have hconnected : Connected rootFirst "r" "i" := .head (b := "p") (by decide) (.single (by decide))
  obtain ⟨-, hsub⟩ := h "r" "i" hr hi hconnected
  have hedges : [] = (DirectedGraph.edges <| get_connected_subgraph_by_label_prefix (fun graph => route_within graph 2)
      induced_subgraph_by_node_predicate rootFirst "CELL|CARD|") := by decide
  rcases hsub.cases_head with hsame | ⟨c, hedge, -⟩
  · exact absurd hsame (by decide)
  · rw [← hedges] at hedge
    simp at hedge

end LainLang.Tracer
