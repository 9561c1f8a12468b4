import LainLang.Serialize.GunExpansion
import Mathlib.Logic.Relation
import Mathlib.Order.WellFounded
/-!
# Runs of `gun_resolve`

In every run, the promises stand for the expansion of the object and the nodes
that are read or still referred to are the references of the object (`Walks`). A
run comes to an end, and what it ends with is the expansion exactly if no
reference was met twice.
-/
open LainLang.Lib LainLang.Js

namespace LainLang.Serialize

variable {gun : GunStore} {env : String → Json} {below : String → List String}

/-! ## What a promise is settled with -/

theorem expecteds_keys (items : List (String × Pending)) : (expecteds env items).map Prod.fst = items.map Prod.fst := by
  induction items with
  | nil => simp [expecteds]
  | cons item items ih => simp [expecteds, ih]

theorem entries_ext {es es' : List (String × Json)} (hkeys : es.map Prod.fst = es'.map Prod.fst)
    (hvalues : es.map Prod.snd = es'.map Prod.snd) : es = es' := by
  rw [← List.zip_unzip es, ← List.zip_unzip es']
  simp [List.unzip_eq_map, hkeys, hvalues]

/-- An object is built of all of its entries if none of them sets the prototype. -/
theorem build_eq_iff {es es' : List (String × Json)} (hkeys : es.map Prod.fst = es'.map Prod.fst) :
    build false es = .obj es' ↔ es = es' ∧ "__proto__" ∉ es.map Prod.fst := by
  simp only [build, Bool.false_eq_true, if_false, Json.obj.injEq]
  constructor
  · intro h
    have hlen : es'.length = es.length := by simpa using (congrArg List.length hkeys).symm
    have hall : es.filter (fun e => e.1 ≠ "__proto__") = es := by
      apply List.filter_sublist.eq_of_length
      rw [h, hlen]
    refine ⟨hall.symm.trans h, ?_⟩
    intro hmem
    obtain ⟨e, he, hkey⟩ := List.mem_map.1 hmem
    exact absurd hkey (by simpa using List.filter_eq_self.1 hall e he)
  · rintro ⟨rfl, hproto⟩
    apply List.filter_eq_self.2
    intro e he
    simpa using fun hkey : e.1 = "__proto__" => hproto (hkey ▸ List.mem_map_of_mem he)

/-- The leaves of a promise that is settled with what is expected: no reference
was met again, and no property is lost. -/
def Lossless (ls : List Leaf) (keys : List String) : Prop := (∀ id, .circular id ∉ ls) ∧ "__proto__" ∉ keys

theorem lossless_append {ls ls' : List Leaf} {keys keys' : List String} :
    Lossless (ls ++ ls') (keys ++ keys') ↔ Lossless ls keys ∧ Lossless ls' keys' := by
  simp only [Lossless, List.mem_append, not_or, forall_and]
  grind

mutual

/-- A promise none of whose parts failed waits as long as a read is out. Then it
is fulfilled, with what is expected of it exactly if nothing was lost. -/
theorem settles : ∀ p : Pending, .failed ∉ p.leaves → (∀ id, .circular id ∈ p.leaves → env id ≠ .null) →
    (outcome p = none ∧ ∃ id, .reading id ∈ p.leaves) ∨
      ((∀ id, .reading id ∉ p.leaves) ∧
        ∃ v, outcome p = some (some v) ∧ (v = p.expected env ↔ Lossless p.leaves p.keys))
  | .leaf (.value v), _, _ => by simp [outcome, Pending.leaves, Pending.keys, Pending.expected, Lossless]
  | .leaf .failed, hf, _ => by simp [Pending.leaves] at hf
  | .leaf (.reading id), _, _ => by simp [outcome, Pending.leaves]
  | .leaf (.circular id), _, hnull => by
    have h : env id ≠ .null := hnull id (by simp [Pending.leaves])
    simp [outcome, Pending.leaves, Pending.keys, Pending.expected, Lossless, h.symm]
  | .caught p, hf, hnull => by
    rcases settles p hf hnull with ⟨hout, hread⟩ | ⟨hread, v, hout, hv⟩
    · exact .inl ⟨by simp [outcome, hout], hread⟩
    · exact .inr ⟨hread, v, by simp [outcome, hout], hv⟩
  | .all array items, hf, hnull => by
    rcases settles_items items hf hnull with ⟨hout, hread⟩ | ⟨hread, es, hout, hkeys, hes⟩
    · exact .inl ⟨by simp [outcome, hout], hread⟩
    · refine .inr ⟨hread, build array es, by simp [outcome, hout], ?_⟩
      have hkeys' : es.map Prod.fst = (expecteds env items).map Prod.fst := by rw [hkeys, expecteds_keys]
      cases array with
      | true =>
        have hvalues : build true es = .arr ((expecteds env items).map Prod.snd) ↔ es = expecteds env items := by
          simp only [build, if_true, Json.arr.injEq]
          constructor
          · exact entries_ext hkeys'
          · rintro rfl
            rfl
        simpa [Pending.expected, Pending.leaves, Pending.keys] using hvalues.trans hes
      | false =>
        simp only [Pending.expected, Pending.leaves, Pending.keys, Bool.false_eq_true, if_false]
        rw [build_eq_iff hkeys', hes, hkeys]
        simp only [Lossless, List.mem_append, not_or]
        grind

theorem settles_items : ∀ ps : List (String × Pending), .failed ∉ leaves_items ps →
    (∀ id, .circular id ∈ leaves_items ps → env id ≠ .null) →
    (outcomes ps = none ∧ ∃ id, .reading id ∈ leaves_items ps) ∨
      ((∀ id, .reading id ∉ leaves_items ps) ∧ ∃ es, outcomes ps = some (some es) ∧
        es.map Prod.fst = ps.map Prod.fst ∧ (es = expecteds env ps ↔ Lossless (leaves_items ps) (keys_items ps)))
  | [], _, _ => by simp [outcomes, leaves_items, keys_items, expecteds, Lossless]
  | (key, p) :: ps, hf, hnull => by
    simp only [leaves_items, List.mem_append, not_or] at hf
    have hp := settles p hf.1 (fun id h => hnull id (by simp [leaves_items, h]))
    have hps := settles_items ps hf.2 (fun id h => hnull id (by simp [leaves_items, h]))
    rcases hp with ⟨hout, id, hread⟩ | ⟨hread, v, hout, hv⟩
    · left
      refine ⟨?_, id, by simp [leaves_items, hread]⟩
      rcases hps with ⟨hout', -⟩ | ⟨-, es, hout', -⟩ <;> simp [outcomes, hout, hout', promise_all]
    · rcases hps with ⟨hout', id, hread'⟩ | ⟨hread', es, hout', hkeys, hes⟩
      · left
        refine ⟨by simp [outcomes, hout, hout', promise_all], id, by simp [leaves_items, hread']⟩
      · right
        refine ⟨?_, (key, v) :: es, by simp [outcomes, hout, hout', promise_all], by simp [hkeys], ?_⟩
        · intro id
          simp [leaves_items, hread id, hread' id]
        · rw [leaves_items, keys_items, lossless_append, ← hv, ← hes]
          simp [expecteds]

end

/-! ## One read -/

theorem leaves_items_append (ps ps' : List (String × Pending)) :
    leaves_items (ps ++ ps') = leaves_items ps ++ leaves_items ps' := by
  induction ps with
  | nil => simp [leaves_items]
  | cons p ps ih => simp [leaves_items, ih]

theorem keys_items_append (ps ps' : List (String × Pending)) :
    keys_items (ps ++ ps') = keys_items ps ++ keys_items ps' := by
  induction ps with
  | nil => simp [keys_items]
  | cons p ps ih => simp [keys_items, ih]

theorem expecteds_append (ps ps' : List (String × Pending)) :
    expecteds env (ps ++ ps') = expecteds env ps ++ expecteds env ps' := by
  induction ps with
  | nil => simp [expecteds]
  | cons p ps ih => simp [expecteds, ih]

/-- A read replaces its leaf by the leaves of the walk it continues with. -/
theorem step_leaves {visited visited' : List String} {p p' : Pending} {id : String}
    (h : Step gun visited p id visited' p') :
    ∃ before after, p.leaves = before ++ .reading id :: after ∧
      p'.leaves = before ++ (continue_reading gun visited id).1.leaves ++ after ∧
      visited' = (continue_reading gun visited id).2 := by
  induction h with
  | read id => exact ⟨[], [], by simp [Pending.leaves]⟩
  | caught _ ih => exact ih
  | all array xs ys key _ ih =>
    obtain ⟨before, after, hp, hp', hv⟩ := ih
    refine ⟨leaves_items xs ++ before, after ++ leaves_items ys, ?_, ?_, hv⟩
    · simp [Pending.leaves, leaves_items_append, leaves_items, hp]
    · simp [Pending.leaves, leaves_items_append, leaves_items, hp']

theorem step_expected {visited visited' : List String} {p p' : Pending} {id : String}
    (h : Step gun visited p id visited' p') (hnode : (continue_reading gun visited id).1.expected env = env id) :
    p'.expected env = p.expected env := by
  induction h with
  | read id => rw [hnode, Pending.expected]
  | caught _ ih =>
    rw [Pending.expected, Pending.expected]
    exact ih hnode
  | all array xs ys key _ ih =>
    have hitems := ih hnode
    cases array <;> simp [Pending.expected, expecteds_append, expecteds, hitems]

theorem step_keys {visited visited' : List String} {p p' : Pending} {id : String}
    (h : Step gun visited p id visited' p') (key : String) :
    key ∈ p'.keys ↔ key ∈ p.keys ∨ key ∈ (continue_reading gun visited id).1.keys := by
  induction h with
  | read id => simp [Pending.keys]
  | caught _ ih =>
    rw [Pending.keys, Pending.keys]
    exact ih
  | all array xs ys k _ ih =>
    cases array <;> simp only [Pending.keys, keys_items_append, keys_items, List.mem_append, ih, List.map_append,
      List.map_cons, Bool.false_eq_true, if_false, if_true, List.mem_cons] <;> grind

mutual

/-- Every read that is out can come back. -/
theorem step_exists (gun : GunStore) (visited : List String) (id : String) : ∀ p : Pending, .reading id ∈ p.leaves →
    ∃ visited' p', Step gun visited p id visited' p'
  | .leaf l, h => by
    simp only [Pending.leaves, List.mem_singleton] at h
    rw [← h]
    exact ⟨_, _, .read visited id⟩
  | .caught p, h => by
    obtain ⟨visited', p', hstep⟩ := step_exists gun visited id p h
    exact ⟨visited', .caught p', .caught hstep⟩
  | .all array items, h => by
    obtain ⟨before, key, p, after, visited', p', rfl, hstep⟩ := step_exists_items gun visited id items h
    exact ⟨visited', _, .all array before after key hstep⟩

theorem step_exists_items (gun : GunStore) (visited : List String) (id : String) :
    ∀ ps : List (String × Pending), .reading id ∈ leaves_items ps →
    ∃ before key p after visited' p', ps = before ++ (key, p) :: after ∧ Step gun visited p id visited' p'
  | [], h => by simp [leaves_items] at h
  | (key, p) :: ps, h => by
    simp only [leaves_items, List.mem_append] at h
    by_cases hp : .reading id ∈ p.leaves
    · obtain ⟨visited', p', hstep⟩ := step_exists gun visited id p hp
      exact ⟨[], key, p, ps, visited', p', rfl, hstep⟩
    · obtain ⟨before, k, q, after, visited', q', rfl, hstep⟩ :=
        step_exists_items gun visited id ps (h.resolve_left hp)
      exact ⟨(key, p) :: before, k, q, after, visited', q', rfl, hstep⟩

end

/-! ## Stores -/

/-- The nodes an object refers to itself. -/
def direct_references (v : Json) : List String := references (fun _ => []) v

/-- Node `a` refers to node `b`. -/
def Refers (gun : GunStore) (a b : String) : Prop :=
  ∃ node, read_gun_node gun a = some node ∧ b ∈ direct_references node

/-- The references of the store form an acyclic graph. -/
def Acyclic (gun : GunStore) : Prop := ∀ id, ¬ Relation.TransGen (Refers gun) id id

/-- A node that can be read. -/
def Present (gun : GunStore) (id : String) : Prop := ∃ node, read_gun_node gun id = some node

/-- Every node that is referred to is present, and the data of no node is deeper
than the limit. -/
structure Complete (gun : GunStore) : Prop where
  present : ∀ a b, Refers gun a b → Present gun b
  fits : ∀ id node, read_gun_node gun id = some node → fits 0 node

mutual

theorem mem_references (id : String) : ∀ v : Json, id ∈ references below v ↔
    ∃ r ∈ direct_references v, id = r ∨ id ∈ below r
  | .arr items => by simpa [references, direct_references] using mem_references_items id items
  | .obj fields => by
    cases href : gun_reference fields with
    | some r => simp [references, direct_references, href]
    | none => simpa [references, direct_references, href] using mem_references_fields id (is_gun_graph fields) fields
  | .null => by simp [references, direct_references]
  | .bool b => by simp [references, direct_references]
  | .num n => by simp [references, direct_references]
  | .str s => by simp [references, direct_references]

theorem mem_references_items (id : String) : ∀ vs : List Json, id ∈ references_items below vs ↔
    ∃ r ∈ references_items (fun _ => []) vs, id = r ∨ id ∈ below r
  | [] => by simp [references_items]
  | v :: vs => by
    rw [references_items, List.mem_append, mem_references id v, mem_references_items id vs]
    simp only [references_items, direct_references, List.mem_append, or_and_right, exists_or]

theorem mem_references_fields (id : String) (graph : Bool) : ∀ fs : List (String × Json),
    id ∈ references_fields below graph fs ↔ ∃ r ∈ references_fields (fun _ => []) graph fs, id = r ∨ id ∈ below r
  | [] => by simp [references_fields]
  | (key, v) :: fs => by
    by_cases hdata : is_data graph key = true
    · simp only [references_fields, hdata, if_true, List.mem_append]
      rw [mem_references id v, mem_references_fields id graph fs]
      simp only [direct_references, or_and_right, exists_or]
    · simpa [references_fields, hdata] using mem_references_fields id graph fs

end

mutual

/-- The nodes below a reference are some of the references of the object. -/
theorem below_sublist {r : String} : ∀ v : Json, r ∈ direct_references v → (r :: below r).Sublist (references below v)
  | .arr items, h => by
    simp only [direct_references, references] at h ⊢
    exact below_sublist_items items h
  | .obj fields, h => by
    cases href : gun_reference fields with
    | some r' =>
      simp only [direct_references, references, href, List.mem_singleton] at h ⊢
      rw [h]
    | none =>
      simp only [direct_references, references, href] at h ⊢
      exact below_sublist_fields (is_gun_graph fields) fields h
  | .null, h => by simp [direct_references, references] at h
  | .bool b, h => by simp [direct_references, references] at h
  | .num n, h => by simp [direct_references, references] at h
  | .str s, h => by simp [direct_references, references] at h

theorem below_sublist_items {r : String} : ∀ vs : List Json, r ∈ references_items (fun _ => []) vs →
    (r :: below r).Sublist (references_items below vs)
  | [], h => by simp [references_items] at h
  | v :: vs, h => by
    simp only [references_items, List.mem_append] at h ⊢
    rcases h with h | h
    · exact (below_sublist v h).trans (List.sublist_append_left _ _)
    · exact (below_sublist_items vs h).trans (List.sublist_append_right _ _)

theorem below_sublist_fields {r : String} (graph : Bool) : ∀ fs : List (String × Json),
    r ∈ references_fields (fun _ => []) graph fs → (r :: below r).Sublist (references_fields below graph fs)
  | [], h => by simp [references_fields] at h
  | (key, v) :: fs, h => by
    by_cases hdata : is_data graph key = true
    · simp only [references_fields, hdata, if_true, List.mem_append] at h ⊢
      rcases h with h | h
      · exact (below_sublist v h).trans (List.sublist_append_left _ _)
      · exact (below_sublist_fields graph fs h).trans (List.sublist_append_right _ _)
    · have hf : is_data graph key = false := by simpa using hdata
      simp only [references_fields, hf, Bool.false_eq_true, if_false] at h ⊢
      exact below_sublist_fields graph fs h

end

/-- A node has fewer nodes below it than one that refers to it. -/
theorem below_lt (x : Expansion gun) {a b : String} (h : Refers gun a b) :
    (x.below b).length < (x.below a).length := by
  obtain ⟨node, hread, hb⟩ := h
  have hlen := (@below_sublist x.below _ node hb).length_le
  rw [x.below_eq a node hread]
  rw [List.length_cons] at hlen
  omega

/-- Every node below a present one is present. -/
theorem present_below (x : Expansion gun) (hc : Complete gun) {a id : String} (ha : Present gun a)
    (h : id ∈ x.below a) : Present gun id := by
  induction hn : (x.below a).length using Nat.strong_induction_on generalizing a with
  | _ n ih =>
    obtain ⟨node, hread⟩ := ha
    rw [x.below_eq a node hread] at h
    obtain ⟨r, hr, h⟩ := (mem_references id node).1 h
    have hrefers : Refers gun a r := ⟨node, hread, hr⟩
    rcases h with rfl | h
    · exact hc.present a id hrefers
    · exact ih _ (hn ▸ below_lt x hrefers) (hc.present a r hrefers) h rfl

theorem present_references (x : Expansion gun) (hc : Complete gun) {obj : Json}
    (hobj : ∀ r ∈ direct_references obj, Present gun r) : ∀ id ∈ references x.below obj, Present gun id := by
  intro id h
  obtain ⟨r, hr, h⟩ := (mem_references id obj).1 h
  rcases h with rfl | h
  · exact hobj id hr
  · exact present_below x hc (hobj r hr) h

theorem read_gun_node_ne_null (gun : GunStore) (id : String) : read_gun_node gun id ≠ some .null := by
  unfold read_gun_node
  split <;> simp_all

/-- A present node does not stand for `null`. -/
theorem env_ne_null (x : Expansion gun) (hc : Complete gun) {id : String} (h : Present gun id) :
    x.env id ≠ .null := by
  induction hn : (x.below id).length using Nat.strong_induction_on generalizing id with
  | _ n ih =>
    obtain ⟨node, hread⟩ := h
    rw [x.env_eq id node hread]
    cases node with
    | null => exact absurd hread (read_gun_node_ne_null gun id)
    | obj fields =>
      cases href : gun_reference fields with
      | none => simp [expand, href]
      | some r =>
        have hrefers : Refers gun id r := ⟨_, hread, by simp [direct_references, references, href]⟩
        rw [expand, href]
        exact ih _ (hn ▸ below_lt x hrefers) (hc.present id r hrefers) rfl
    | _ => simp [expand]

/-! ## Runs -/

/-- What holds after the nodes `ids` came back, in a run on `obj`. -/
structure Walks (x : Expansion gun) (obj : Json) (ids visited : List String) (p : Pending) : Prop where
  expected : p.expected x.env = expand x.env obj
  references : (ids ++ p.leaves.flatMap (Leaf.stands x.below)).Perm (references x.below obj)
  marked : visited.Perm (ids ++ p.leaves.filterMap Leaf.waits)
  nodup : visited.Nodup
  unfailed : .failed ∉ p.leaves
  linear : (LainLang.Serialize.references x.below obj).Nodup → ∀ id, .circular id ∉ p.leaves
  keys : ∀ key, key ∈ p.keys ↔
    key ∈ data_keys obj ∨ ∃ id ∈ ids, ∃ node, read_gun_node gun id = some node ∧ key ∈ data_keys node

theorem Walks.start (x : Expansion gun) {obj : Json} (hfits : fits 0 obj) :
    Walks x obj [] (resolve_gun_object 0 [] obj).2 (resolve_gun_object 0 [] obj).1 := by
  have h := @walked x.below 0 [] obj hfits
  refine ⟨expected_walk 0 [] obj hfits, ?_, ?_, h.nodup List.nodup_nil, h.unfailed, ?_, ?_⟩
  · simp [h.stands]
  · simpa using h.marked
  · exact h.linear (by simp)
  · intro key
    simpa using keys_walk key 0 [] obj hfits

/-- What a read of a present node continues with. -/
theorem continue_present {visited : List String} {id : String} {node : Json} (h : read_gun_node gun id = some node) :
    continue_reading gun visited id =
      (.caught (resolve_gun_object 0 visited node).1, (resolve_gun_object 0 visited node).2) := by
  rw [continue_reading, h]

theorem waits_cons (id : String) (ls : List Leaf) :
    (Leaf.reading id :: ls).filterMap Leaf.waits = id :: ls.filterMap Leaf.waits := rfl

/-- A node that was read moves from what is waited for to what was read, and what its
walk waits for takes its place. -/
theorem marked_after_read {ids visited visited' : List String} {before new after : List Leaf} {id : String}
    (h : visited.Perm (ids ++ (before.filterMap Leaf.waits ++ id :: after.filterMap Leaf.waits)))
    (hnew : visited'.Perm (visited ++ new.filterMap Leaf.waits)) :
    visited'.Perm (ids ++ [id] ++ (before ++ new ++ after).filterMap Leaf.waits) := by
  rw [List.filterMap_append, List.filterMap_append]
  refine hnew.trans ((h.append_right _).trans ?_)
  simp only [List.append_assoc, List.cons_append, List.nil_append]
  apply List.Perm.append_left
  refine List.perm_middle.trans (List.Perm.cons _ ?_)
  apply List.Perm.append_left
  exact List.perm_append_comm

/-- Without repeated references no node below the one that is read was marked: what
was marked is read, waited for elsewhere, or that node itself. -/
theorem below_unmarked {below : String → List String} {ids visited : List String} {before after : List Leaf} {id : String}
    (hmarked : visited.Perm (ids ++ (before.filterMap Leaf.waits ++ id :: after.filterMap Leaf.waits)))
    (hn : (ids ++ (before.flatMap (Leaf.stands below) ++ (id :: below id ++ after.flatMap (Leaf.stands below)))).Nodup) :
    (∀ j ∈ below id, j ∉ visited) ∧ (below id).Nodup := by
  constructor
  · intro j hj hmem
    have hj' := hmarked.subset hmem
    simp only [List.mem_append, List.mem_cons] at hj'
    simp only [List.nodup_append, List.nodup_cons, List.mem_append, List.mem_cons, List.cons_append] at hn
    rcases hj' with hj' | hj' | hj' | hj'
    · exact hn.2.2 j hj' j (by simp [hj]) rfl
    · exact hn.2.1.2.2 j (waits_subset_stands hj') j (by simp [hj]) rfl
    · subst hj'
      exact hn.2.1.2.1.1 (by simp [hj])
    · exact hn.2.1.2.1.2.2.2 j hj j (waits_subset_stands hj') rfl
  · exact hn.sublist ((List.sublist_append_left _ _).trans
      ((List.sublist_cons_self _ _).trans ((List.sublist_append_right _ _).trans (List.sublist_append_right _ _))))

theorem Walks.step {x : Expansion gun} (hc : Complete gun) {obj : Json}
    (hpresent : ∀ id ∈ LainLang.Serialize.references x.below obj, Present gun id)
    {ids visited visited' : List String} {p p' : Pending} {id : String} (h : Walks x obj ids visited p)
    (hstep : Step gun visited p id visited' p') : Walks x obj (ids ++ [id]) visited' p' := by
  obtain ⟨before, after, hleaves, hleaves', hv⟩ := step_leaves hstep
  have hrefs := h.references
  have hmarked := h.marked
  rw [hleaves, List.flatMap_append, List.flatMap_cons, Leaf.stands] at hrefs
  rw [hleaves, List.filterMap_append, waits_cons] at hmarked
  obtain ⟨node, hread⟩ := hpresent id (hrefs.subset (by simp))
  have hwalk := @walked x.below 0 visited node (hc.fits id node hread)
  rw [← x.below_eq id node hread] at hwalk
  have hcont : (continue_reading gun visited id).1.leaves = (resolve_gun_object 0 visited node).1.leaves := by
    rw [continue_present hread]
    rfl
  rw [hcont] at hleaves'
  rw [continue_present hread] at hv
  subst hv
  refine ⟨?_, ?_, ?_, hwalk.nodup h.nodup, ?_, ?_, ?_⟩
  · rw [← h.expected]
    apply step_expected hstep
    rw [continue_present hread, x.env_eq id node hread]
    exact expected_walk 0 visited node (hc.fits id node hread)
  · -- the node is read, and the nodes below it are what it stood for
    rw [hleaves', List.flatMap_append, List.flatMap_append, hwalk.stands]
    refine List.Perm.trans ?_ hrefs
    rw [List.append_assoc]
    apply List.Perm.append_left
    simp only [List.append_assoc, List.cons_append, List.nil_append]
    exact List.perm_middle.symm
  · rw [hleaves']
    exact marked_after_read hmarked hwalk.marked
  · rw [hleaves']
    have hun := h.unfailed
    rw [hleaves] at hun
    simp only [List.mem_append, List.mem_cons, not_or] at hun ⊢
    exact ⟨⟨hun.1, hwalk.unfailed⟩, hun.2.2⟩
  · intro hn i hi
    have hlin := h.linear hn i
    rw [hleaves] at hlin
    rw [hleaves'] at hi
    simp only [List.mem_append, List.mem_cons, not_or] at hlin hi
    rcases hi with (hi | hi) | hi
    · exact hlin.1 hi
    · obtain ⟨hunmarked, hnodup⟩ := below_unmarked hmarked (hrefs.nodup_iff.2 hn)
      exact hwalk.linear hunmarked hnodup i hi
    · exact hlin.2.2 hi
  · intro key
    rw [step_keys hstep, h.keys, continue_present hread]
    have hnode : key ∈ (Pending.caught (resolve_gun_object 0 visited node).1).keys ↔ key ∈ data_keys node := by
      rw [Pending.keys]
      exact keys_walk key 0 visited node (hc.fits id node hread)
    rw [hnode]
    simp only [List.mem_append, List.mem_singleton, or_and_right, exists_or, exists_eq_left, hread, Option.some.injEq,
      or_assoc]
    simp

theorem walks_run {x : Expansion gun} (hc : Complete gun) {obj : Json} (hfits : fits 0 obj)
    (hpresent : ∀ id ∈ references x.below obj, Present gun id) {ids visited : List String} {p : Pending}
    (h : Reaches gun obj ids visited p) : Walks x obj ids visited p := by
  induction h with
  | start => exact .start x hfits
  | step _ hstep ih => exact ih.step hc hpresent hstep

/-! ## Acyclic stores have an expansion -/

mutual

theorem expand_congr {f g : String → Json} : ∀ v : Json, (∀ r ∈ direct_references v, f r = g r) →
    expand f v = expand g v
  | .arr items, h => by
    simp only [expand, expand_items_congr items h]
  | .obj fields, h => by
    cases href : gun_reference fields with
    | some r =>
      simp only [expand, href]
      exact h r (by simp [direct_references, references, href])
    | none =>
      simp only [direct_references, references, href] at h
      simp only [expand, href, expand_fields_congr (is_gun_graph fields) fields h]
  | .null, _ => by simp [expand]
  | .bool b, _ => by simp [expand]
  | .num n, _ => by simp [expand]
  | .str s, _ => by simp [expand]

theorem expand_items_congr {f g : String → Json} : ∀ vs : List Json,
    (∀ r ∈ references_items (fun _ => []) vs, f r = g r) → expand_items f vs = expand_items g vs
  | [], _ => by simp [expand_items]
  | v :: vs, h => by
    simp only [references_items, List.mem_append] at h
    rw [expand_items, expand_items, expand_congr v (fun r hr => h r (.inl hr)),
      expand_items_congr vs (fun r hr => h r (.inr hr))]

theorem expand_fields_congr {f g : String → Json} (graph : Bool) : ∀ fs : List (String × Json),
    (∀ r ∈ references_fields (fun _ => []) graph fs, f r = g r) → expand_fields f graph fs = expand_fields g graph fs
  | [], _ => by simp [expand_fields]
  | (key, v) :: fs, h => by
    by_cases hdata : is_data graph key = true
    · simp only [references_fields, hdata, if_true, List.mem_append] at h
      simp only [expand_fields, hdata, if_true, expand_congr v (fun r hr => h r (.inl hr)),
        expand_fields_congr graph fs (fun r hr => h r (.inr hr))]
    · have hf : is_data graph key = false := by simpa using hdata
      simp only [references_fields, hf, Bool.false_eq_true, if_false] at h
      simp only [expand_fields, hf, Bool.false_eq_true, if_false, expand_fields_congr graph fs h]

end

mutual

theorem references_congr {f g : String → List String} : ∀ v : Json, (∀ r ∈ direct_references v, f r = g r) →
    references f v = references g v
  | .arr items, h => by
    simp only [references, references_items_congr items h]
  | .obj fields, h => by
    cases href : gun_reference fields with
    | some r =>
      simp only [references, href]
      rw [h r (by simp [direct_references, references, href])]
    | none =>
      simp only [direct_references, references, href] at h
      simp only [references, href, references_fields_congr (is_gun_graph fields) fields h]
  | .null, _ => by simp [references]
  | .bool b, _ => by simp [references]
  | .num n, _ => by simp [references]
  | .str s, _ => by simp [references]

theorem references_items_congr {f g : String → List String} : ∀ vs : List Json,
    (∀ r ∈ references_items (fun _ => []) vs, f r = g r) → references_items f vs = references_items g vs
  | [], _ => by simp [references_items]
  | v :: vs, h => by
    simp only [references_items, List.mem_append] at h
    rw [references_items, references_items, references_congr v (fun r hr => h r (.inl hr)),
      references_items_congr vs (fun r hr => h r (.inr hr))]

theorem references_fields_congr {f g : String → List String} (graph : Bool) : ∀ fs : List (String × Json),
    (∀ r ∈ references_fields (fun _ => []) graph fs, f r = g r) →
    references_fields f graph fs = references_fields g graph fs
  | [], _ => by simp [references_fields]
  | (key, v) :: fs, h => by
    by_cases hdata : is_data graph key = true
    · simp only [references_fields, hdata, if_true, List.mem_append] at h
      simp only [references_fields, hdata, if_true, references_congr v (fun r hr => h r (.inl hr)),
        references_fields_congr graph fs (fun r hr => h r (.inr hr))]
    · have hf : is_data graph key = false := by simpa using hdata
      simp only [references_fields, hf, Bool.false_eq_true, if_false] at h
      simp only [references_fields, hf, Bool.false_eq_true, if_false, references_fields_congr graph fs h]

end

/-- A node that refers to another is in the store. -/
theorem mem_keys_of_refers {a b : String} (h : Refers gun a b) : a ∈ gun.keys := by
  obtain ⟨node, hread, -⟩ := h
  rw [OrdMap.mem_keys_iff]
  cases hget : gun.get? a with
  | none => simp [read_gun_node, hget] at hread
  | some data => exact ⟨data, rfl⟩

open Classical in
/-- The nodes of the store that node `a` leads to. -/
noncomputable def reachable (gun : GunStore) (a : String) : Finset String :=
  gun.keys.toFinset.filter (fun b => Relation.TransGen (Refers gun) a b)

/-- In an acyclic store, following references comes to an end. -/
theorem refers_wellFounded (h : Acyclic gun) : WellFounded (fun b a => Refers gun a b) := by
  classical
  -- a node leads to more nodes than one it refers to, itself among them
  have hlt : ∀ b a, Refers gun a b →
      ((reachable gun b).card + if b ∈ gun.keys then 1 else 0) < (reachable gun a).card + if a ∈ gun.keys then 1 else 0 := by
    intro b a hab
    rw [if_pos (mem_keys_of_refers hab)]
    by_cases hb : b ∈ gun.keys
    · rw [if_pos hb]
      have hsub : reachable gun b ⊂ reachable gun a := by
        rw [Finset.ssubset_iff_of_subset]
        · refine ⟨b, ?_, ?_⟩
          · simpa [reachable, hb] using Relation.TransGen.single hab
          · simpa [reachable] using fun _ => h b
        · intro c hc
          simp only [reachable, Finset.mem_filter] at hc ⊢
          exact ⟨hc.1, .head hab hc.2⟩
      have hcard := Finset.card_lt_card hsub
      omega
    · rw [if_neg hb]
      have hempty : reachable gun b = ∅ := by
        rw [Finset.eq_empty_iff_forall_notMem]
        intro c hc
        simp only [reachable, Finset.mem_filter] at hc
        obtain ⟨d, hbd, -⟩ := Relation.TransGen.head'_iff.1 hc.2
        exact hb (mem_keys_of_refers hbd)
      simp [hempty]
  exact Subrelation.wf (fun {b a} hab => hlt b a hab) (measure _).wf

/-- What the nodes stand for, solved from the nodes without references up. -/
theorem exists_solution {A : Type} (h : Acyclic gun) (default : A) (F : (String → A) → Json → A)
    (hF : ∀ f g v, (∀ r ∈ direct_references v, f r = g r) → F f v = F g v) :
    ∃ env : String → A, ∀ id node, read_gun_node gun id = some node → env id = F env node := by
  classical
  let step : (id : String) → ((b : String) → Refers gun id b → A) → A := fun id ih =>
    (read_gun_node gun id).elim default
      (F fun b => if hb : Refers gun id b then ih b hb else default)
  refine ⟨(refers_wellFounded h).fix step, ?_⟩
  intro id node hread
  rw [WellFounded.fix_eq]
  simp only [step, hread, Option.elim_some]
  apply hF
  intro r hr
  rw [dif_pos ⟨node, hread, hr⟩]

theorem exists_expansion (h : Acyclic gun) : Nonempty (Expansion gun) := by
  obtain ⟨env, henv⟩ := exists_solution h .null expand (fun f g v => expand_congr v)
  obtain ⟨below, hbelow⟩ := exists_solution h [] references (fun f g v => references_congr v)
  exact ⟨⟨env, below, henv, hbelow⟩⟩

/-! ## Resolving is expanding -/

/-- Every run of `gun_resolve` on the object comes to an end, with the value `e`. -/
def Resolves (gun : GunStore) (obj e : Json) : Prop :=
  (∃ n, ∀ ids visited p, Reaches gun obj ids visited p → ids.length ≤ n) ∧
    ∀ ids visited p, Reaches gun obj ids visited p →
      (outcome p = none → ∃ id visited' p', Step gun visited p id visited' p') ∧
        ∀ o, outcome p = some o → o = some e

/-- Some run comes to an end. -/
theorem Resolves.exists_end {obj e : Json} (h : Resolves gun obj e) :
    ∃ ids visited p, Reaches gun obj ids visited p ∧ outcome p = some (some e) := by
  by_contra hnone
  obtain ⟨⟨n, hn⟩, hrun⟩ := h
  have hlong : ∀ m, ∃ ids visited p, Reaches gun obj ids visited p ∧ ids.length = m := by
    intro m
    induction m with
    | zero => exact ⟨[], _, _, .start, rfl⟩
    | succ m ih =>
      obtain ⟨ids, visited, p, hreach, hlen⟩ := ih
      cases hout : outcome p with
      | none =>
        obtain ⟨id, visited', p', hstep⟩ := (hrun ids visited p hreach).1 hout
        exact ⟨ids ++ [id], visited', p', hreach.step hstep, by simp [hlen]⟩
      | some o =>
        rw [(hrun ids visited p hreach).2 o hout] at hout
        exact absurd ⟨ids, visited, p, hreach, hout⟩ hnone
  obtain ⟨ids, visited, p, hreach, hlen⟩ := hlong (n + 1)
  have hle := hn ids visited p hreach
  omega

theorem stands_eq_nil {ls : List Leaf} (hreading : ∀ id, .reading id ∉ ls) (hcircular : ∀ id, .circular id ∉ ls) :
    ls.flatMap (Leaf.stands below) = [] ∧ ls.filterMap Leaf.waits = [] := by
  constructor
  · rw [List.flatMap_eq_nil_iff]
    intro l hl
    cases l with
    | value v => rfl
    | failed => rfl
    | reading id => exact absurd hl (hreading id)
    | circular id => exact absurd hl (hcircular id)
  · rw [List.filterMap_eq_nil_iff]
    intro l hl
    cases l with
    | reading id => exact absurd hl (hreading id)
    | _ => rfl

/-- A reference that is met again stands for a present node, which is not `null`. -/
theorem Walks.circular_ne_null {x : Expansion gun} (hc : Complete gun) {obj : Json}
    (hpresent : ∀ id ∈ LainLang.Serialize.references x.below obj, Present gun id)
    {ids visited : List String} {p : Pending} (h : Walks x obj ids visited p) :
    ∀ id, .circular id ∈ p.leaves → x.env id ≠ .null := by
  intro id hid
  apply env_ne_null x hc
  apply hpresent
  apply h.references.subset
  apply List.mem_append_right
  exact List.mem_flatMap.2 ⟨_, hid, by simp [Leaf.stands]⟩

/-- No object that is walked has a property that assigning would not make. -/
def Assignable (x : Expansion gun) (obj : Json) : Prop :=
  "__proto__" ∉ data_keys obj ∧
    ∀ id ∈ references x.below obj, ∀ node, read_gun_node gun id = some node → "__proto__" ∉ data_keys node

/-- In an acyclic store with every node present, `gun_resolve` returns the full
expansion of the object if and only if no node is referenced twice in it (and no
property in it is named `__proto__`). -/
theorem resolve_full_iff (hacyclic : Acyclic gun) (hc : Complete gun) {obj : Json}
    (hobj : ∀ r ∈ direct_references obj, Present gun r) (hfits : fits 0 obj) :
    Nonempty (Expansion gun) ∧ ∀ x : Expansion gun,
      (Resolves gun obj (expand x.env obj) ↔ (references x.below obj).Nodup ∧ Assignable x obj) := by
  refine ⟨exists_expansion hacyclic, ?_⟩
  intro x
  have hpresent := present_references x hc hobj
  constructor
  · intro hres
    obtain ⟨ids, visited, p, hreach, hout⟩ := hres.exists_end
    have hw := walks_run hc hfits hpresent hreach
    rcases settles p hw.unfailed (hw.circular_ne_null hc hpresent) with ⟨hout', -⟩ | ⟨hread, v, hout', hv⟩
    · rw [hout'] at hout
      cases hout
    · rw [hout', Option.some.injEq, Option.some.injEq] at hout
      obtain ⟨hcircular, hproto⟩ := hv.1 (hout.trans hw.expected.symm)
      obtain ⟨hstands, hwaits⟩ := @stands_eq_nil x.below _ hread hcircular
      -- every reference was read, and a node is marked once
      have hrefs : ids.Perm (references x.below obj) := by simpa [hstands] using hw.references
      have hmarked : visited.Perm ids := by simpa [hwaits] using hw.marked
      refine ⟨hrefs.nodup_iff.1 (hmarked.nodup_iff.1 hw.nodup), ?_, ?_⟩
      · exact fun hmem => hproto ((hw.keys _).2 (.inl hmem))
      · intro id hid node hnode hmem
        exact hproto ((hw.keys _).2 (.inr ⟨id, hrefs.symm.subset hid, node, hnode, hmem⟩))
  · rintro ⟨hn, hproto, hproto'⟩
    refine ⟨⟨(references x.below obj).length, ?_⟩, ?_⟩
    · intro ids visited p hreach
      have hlen := (walks_run hc hfits hpresent hreach).references.length_eq
      simp only [List.length_append] at hlen
      omega
    · intro ids visited p hreach
      have hw := walks_run hc hfits hpresent hreach
      have hlossless : Lossless p.leaves p.keys := by
        refine ⟨hw.linear hn, ?_⟩
        intro hmem
        rcases (hw.keys _).1 hmem with hmem | ⟨id, hid, node, hnode, hmem⟩
        · exact hproto hmem
        · exact hproto' id (hw.references.subset (List.mem_append_left _ hid)) node hnode hmem
      rcases settles p hw.unfailed (hw.circular_ne_null hc hpresent) with ⟨hout, id, hid⟩ | ⟨-, v, hout, hv⟩
      · refine ⟨fun _ => ⟨id, step_exists gun visited id p hid⟩, ?_⟩
        intro o ho
        rw [hout] at ho
        cases ho
      · rw [hout]
        refine ⟨(fun h => by cases h), ?_⟩
        intro o ho
        rw [← Option.some.inj ho, hv.2 hlossless, hw.expected]

/-! ## A shared node -/

/-- A store of one node. -/
def one_node : GunStore := OrdMap.empty.set "n" (.obj [("_", .obj [("#", .str "n")]), ("name", .str "shared")])

theorem read_one_node {id : String} {node : Json} (h : read_gun_node one_node id = some node) :
    id = "n" ∧ node = .obj [("_", .obj [("#", .str "n")]), ("name", .str "shared")] := by
  by_cases hid : id = "n"
  · subst hid
    simp only [read_gun_node, one_node, OrdMap.get?_set, if_true, Option.some.injEq] at h
    exact ⟨rfl, h.symm⟩
  · simp [read_gun_node, one_node, hid] at h

theorem one_node_acyclic : Acyclic one_node := by
  intro id h
  obtain ⟨b, ⟨node, hread, hb⟩, -⟩ := Relation.TransGen.head'_iff.1 h
  obtain ⟨-, rfl⟩ := read_one_node hread
  simp [direct_references, references, gun_reference, Js.property, is_gun_graph, is_gun_node, references_fields,
    is_data] at hb

theorem one_node_complete : Complete one_node where
  present := by
    rintro a b ⟨node, hread, hb⟩
    obtain ⟨-, rfl⟩ := read_one_node hread
    simp [direct_references, references, gun_reference, Js.property, is_gun_graph, is_gun_node, references_fields,
      is_data] at hb
  fits := by
    intro id node hread
    obtain ⟨-, rfl⟩ := read_one_node hread
    simp [fits, gun_reference, Js.property, is_gun_graph, is_gun_node, fits_fields, is_data, maxDepth]

theorem one_node_present : Present one_node "n" := ⟨_, rfl⟩

theorem resolve_full_one_reference :
    Nonempty (Expansion one_node) ∧ ∀ x : Expansion one_node,
      (Resolves one_node (.obj [("a", .obj [("#", .str "n")])]) (expand x.env (.obj [("a", .obj [("#", .str "n")])])) ↔
        (references x.below (.obj [("a", .obj [("#", .str "n")])])).Nodup ∧
          Assignable x (.obj [("a", .obj [("#", .str "n")])])) :=
  resolve_full_iff one_node_acyclic one_node_complete
    (by
      intro r hr
      have h : r = "n" := by
        simpa [direct_references, references, gun_reference, Js.property, references_fields, is_data] using hr
      rw [h]
      exact one_node_present)
    (by simp [fits, gun_reference, Js.property, is_gun_graph, fits_fields, is_data, maxDepth])

/-- Two fields that refer to the same node: the second is `null` in the result,
though the store is acyclic and the node is present. -/
theorem shared_reference_lost :
    let obj : Json := .obj [("a", .obj [("#", .str "n")]), ("b", .obj [("#", .str "n")])]
    Acyclic one_node ∧ Complete one_node ∧ (∀ r ∈ direct_references obj, Present one_node r) ∧ fits 0 obj ∧
      (∀ x : Expansion one_node, expand x.env obj =
        .obj [("a", .obj [("name", .str "shared")]), ("b", .obj [("name", .str "shared")])]) ∧
      ∃ ids visited p, Reaches one_node obj ids visited p ∧
        outcome p = some (some (.obj [("a", .obj [("name", .str "shared")]), ("b", .null)])) := by
  intro obj
  refine ⟨one_node_acyclic, one_node_complete, ?_, ?_, ?_, ?_⟩
  · intro r hr
    have h : r = "n" := by
      simpa [obj, direct_references, references, gun_reference, Js.property, is_gun_graph, is_gun_node,
        references_fields, is_data] using hr
    rw [h]
    exact one_node_present
  · simp [obj, fits, gun_reference, Js.property, is_gun_graph, is_gun_node, fits_fields, is_data, maxDepth]
  · intro x
    have henv := x.env_eq "n" _ rfl
    simp [obj, expand, gun_reference, Js.property, is_gun_graph, is_gun_node, expand_fields, is_data, henv]
  · have hstart : resolve_gun_object 0 [] obj =
        (.all false [("a", .leaf (.reading "n")), ("b", .leaf (.circular "n"))], ["n"]) := by
      simp [obj, resolve_gun_object, gun_reference, Js.property, is_gun_graph, is_gun_node, resolve_fields, is_data,
        resolve_gun_reference, maxDepth]
    have hreach := @Reaches.start one_node obj
    rw [hstart] at hreach
    refine ⟨_, _, _, hreach.step (.all false [] [("b", .leaf (.circular "n"))] "a" (.read _ "n")), ?_⟩
    have hcont : (continue_reading one_node ["n"] "n").1 = .caught (.all false [("name", .leaf (.value (.str "shared")))]) := by
      rw [continue_present rfl]
      simp [resolve_gun_object, gun_reference, Js.property, is_gun_graph, is_gun_node, resolve_fields, is_data, maxDepth]
    simp [hcont, outcome, outcomes, promise_all, build]

end LainLang.Serialize
