import LainLang.Tracer.Adequacy
import LainLang.Tracer.Alternatives
/-!
# Worlds of names

Two orders of the clauses of a query number its variables differently. A world
gives values to the names instead, and what the named plans of a run offer to
valuations is what the plans offer to worlds, whatever the numbers are.
-/
open LainLang.Lib LainLang.Js
open scoped SetFamily

namespace LainLang.Tracer

/-! ## Worlds of names -/

/-- Values for the names of a query and for logic variables made before it. -/
@[ext]
structure World where
  names : String → ValueTree
  keys : TreeValuation

/-- The name of a query variable. -/
def queryName : Term → Option String
  | .atom (.str s) => if startsWith s "?" then some s else none
  | _ => none

/-- The tree of a term of a query. -/
def meaning (w : World) : Term → ValueTree := termNodes.unfold fun t =>
  match queryName t with
  | some name => .inl (w.names name)
  | none => match is_logic_var t with
    | some v => .inl (w.keys v)
    | none => .inr t

/-- The tree of a term of the graph. -/
def meaningOfData (w : World) : Term → ValueTree := tree w.keys

/-- No logic variable in the term has an id from the counter on. -/
def Old (next : ℕ) (t : Term) : Prop := ∃ vars, Over vars t ∧ ∀ v ∈ vars, ∀ n, next ≤ n → v ≠ .ofNat n

open Classical in
/-- What the valuation gives to the names and to variables made before. -/
noncomputable def worldOf (next : ℕ) (st : QueryVars) (σ : TreeValuation) : World where
  names name := match st.vars.get? name with
    | some v => σ (.ofNat v.id)
    | none => fun _ => none
  keys key := if ∃ n, next ≤ n ∧ key = .ofNat n then fun _ => none else σ key

theorem mem_children_of_childAt {t x : Term} {place : Place} (h : childAt t place = some x) : x ∈ children t := by
  cases t with
  | atom a => cases place <;> cases h
  | arr items =>
    cases place with
    | item i => exact List.mem_of_getElem? h
    | key name => cases h
  | obj fields =>
    cases place with
    | item i => cases h
    | key name => exact List.mem_map.2 ⟨(name, x), mem_ownEntries.2 h, rfl⟩

theorem Old.childAt {next : ℕ} {t x : Term} (h : Old next t) {place : Place} (hx : childAt t place = some x) : Old next x := by
  obtain ⟨vars, hover, hold⟩ := h
  exact ⟨vars, hover.child (mem_children_of_childAt hx), hold⟩

theorem Old.root {next : ℕ} {t : Term} (h : Old next t) {v : JsNumber} (hv : is_logic_var t = some v) (st : QueryVars)
    (σ : TreeValuation) : (worldOf next st σ).keys v = σ v := by
  obtain ⟨vars, hover, hold⟩ := h
  refine if_neg ?_
  rintro ⟨n, hn, rfl⟩
  exact hold _ (hover.root_mem hv) n hn rfl

theorem NoVars.over {t : Term} (h : NoVars t) : Over [] t := by
  induction h with
  | atom a => exact .intro (fun v hv => by cases hv) fun x hx => by cases hx
  | arr _ ih => exact .intro (fun v hv => by cases hv) ih
  | @obj fields root _ ih =>
    refine .intro (fun v hv => by rw [root] at hv; cases hv) fun x hx => ?_
    obtain ⟨e, he, rfl⟩ := List.mem_map.1 hx
    exact ih e.1 e.2 (mem_ownEntries.1 he)

theorem NoVars.old {next : ℕ} {t : Term} (h : NoVars t) : Old next t := ⟨[], h.over, by simp⟩

theorem old_atom (next : ℕ) (a : Atom) : Old next (.atom a) := (NoVars.atom a).old

/-- Data that has old variables only means its tree. -/
theorem tree_old {next : ℕ} {t : Term} (h : Old next t) (st : QueryVars) (σ : TreeValuation) :
    tree σ t = meaningOfData (worldOf next st σ) t := by
  refine Nodes.unfold_bisim (R := fun t u => t = u ∧ Old next t) ?_ ⟨rfl, h⟩
  rintro t _ ⟨rfl, h⟩
  cases hv : is_logic_var t with
  | some v =>
    -- An old variable is a key of the world.
    refine .inl ?_
    exact (tree_var hv).trans ((h.root hv st σ).symm.trans (tree_var hv).symm)
  | none => exact .inr ⟨t, t, rfl, rfl, rfl, fun place x y hx hy => ⟨Option.some.inj (hx.symm.trans hy), h.childAt hx⟩⟩

/-! ## Terms of a query in its worlds -/

/-- What a term of the query became: it has the same tree, it is an atom only if
it was that atom before, and other atoms than names stay. -/
structure Translated (next : ℕ) (final : QueryVars) (t t' : Term) : Prop where
  tree : ∀ σ, tree σ t' = meaning (worldOf next final σ) t
  atom : ∀ a, t' = .atom a → t = .atom a
  stays : ∀ a, t = .atom a → queryName t = none → t' = .atom a

theorem meaning_name {w : World} {t : Term} {name : String} (h : queryName t = some name) : meaning w t = w.names name :=
  Nodes.unfold_inl (by simp only [h])

theorem meaning_var {w : World} {t : Term} {v : JsNumber} (h : queryName t = none) (hv : is_logic_var t = some v) :
    meaning w t = w.keys v := Nodes.unfold_inl (by simp only [h, hv])

theorem meaning_grow {w : World} {t : Term} (h : queryName t = none) (hv : is_logic_var t = none) :
    meaning w t = termNodes.grow (meaning w) t := Nodes.unfold_inr (by simp only [h, hv])

theorem translated_atom {next : ℕ} {final : QueryVars} {a : Atom} (h : queryName (.atom a) = none) :
    Translated next final (.atom a) (.atom a) := by
  refine ⟨fun σ => ?_, fun _ h => h, fun _ h _ => h⟩
  rw [tree_grow rfl, meaning_grow h rfl]
  refine Nodes.grow_eq_iff.2 ⟨rfl, fun place x y hx _ => ?_⟩
  cases place <;> cases hx

theorem translated_arr {next : ℕ} {final : QueryVars} {items items' : List Term}
    (h : List.Forall₂ (Translated next final) items items') : Translated next final (.arr items) (.arr items') := by
  refine ⟨fun σ => ?_, fun _ h => (by cases h), fun _ h => (by cases h)⟩
  rw [tree_grow rfl, meaning_grow rfl rfl]
  refine Nodes.grow_eq_iff.2 ⟨congrArg Outline.arr h.length_eq.symm, fun place x y hx hy => ?_⟩
  cases place with
  | item i => exact (forall₂_getElem? h hy hx).tree σ
  | key name => cases hx

theorem translated_obj {next : ℕ} {final : QueryVars} {fields entries : List (String × Term)} (hold : Old next (.obj fields))
    (hkeys : entries.map Prod.fst = ownKeys fields)
    (h : ∀ e ∈ entries, ∃ t, field fields e.1 = some t ∧ Translated next final t e.2) :
    Translated next final (.obj fields) (.obj entries) := by
  have hfield : ∀ k t', field entries k = some t' → ∃ t, field fields k = some t ∧ Translated next final t t' :=
    fun k t' ht' => h (k, t') (field_mem ht')
  have hother : ∀ k t, field fields k = some t → ∃ t', field entries k = some t' ∧ Translated next final t t' := by
    intro k t ht
    obtain ⟨t', ht'⟩ := field_isSome.1 (hkeys ▸ mem_ownKeys.2 (field_isSome.2 ⟨t, ht⟩))
    obtain ⟨u, hu, htranslated⟩ := hfield k t' ht'
    obtain rfl := Option.some.inj (hu.symm.trans ht)
    exact ⟨t', ht', htranslated⟩
  -- Only atoms make an object look like a variable, and they stay what they are.
  have hroot : is_logic_var (.obj entries) = is_logic_var (.obj fields) := by
    ext v
    simp only [is_logic_var_obj]
    refine exists_congr fun id => and_congr ?_ (and_congr_left fun _ => ?_)
    · constructor
      · intro htype
        obtain ⟨t, ht, htranslated⟩ := hfield _ _ htype
        rwa [htranslated.atom _ rfl] at ht
      · intro htype
        obtain ⟨t', ht', htranslated⟩ := hother _ _ htype
        rwa [htranslated.stays _ rfl (by decide)] at ht'
    · constructor
      · intro hid
        obtain ⟨t, ht, htranslated⟩ := hfield _ _ hid
        rwa [htranslated.atom _ rfl] at ht
      · intro hid
        obtain ⟨t', ht', htranslated⟩ := hother _ _ hid
        rwa [htranslated.stays _ rfl rfl] at ht'
  refine ⟨fun σ => ?_, fun _ h => (by cases h), fun _ h => (by cases h)⟩
  cases hv : is_logic_var (.obj fields) with
  | some v => rw [tree_var (hroot.trans hv), meaning_var rfl hv, hold.root hv]
  | none =>
    rw [tree_grow (hroot.trans hv), meaning_grow rfl hv]
    refine Nodes.grow_eq_iff.2 ⟨congrArg Outline.obj (Set.ext fun k => ?_), fun place x y hx hy => ?_⟩
    · exact (iff_of_eq (congrArg (k ∈ ·) hkeys)).trans mem_ownKeys
    · cases place with
      | item i => cases hx
      | key k =>
        obtain ⟨t, ht, htranslated⟩ := hfield k x hx
        obtain rfl := Option.some.inj (ht.symm.trans hy)
        exact htranslated.tree σ

theorem creates_translated {next : ℕ} {t : Term} (h : Old next t) :
    Creates (logic_query_term t) fun final t' => Translated next final t t' := by
  obtain ⟨vars, hover, hold⟩ := h
  induction hover with
  | @intro t root hchildren ih =>
    have hover : Over vars t := .intro root hchildren
    cases t with
    | atom a =>
      cases a with
      | str s =>
        rw [logic_query_term]
        split
        · rename_i hs
          refine (creates_query_var hs).mono fun final t' => ?_
          rintro ⟨v, hv, rfl⟩
          have hname : queryName (.str s) = some s := if_pos hs
          refine ⟨fun σ => ?_, fun _ h => (by cases h), fun _ _ hnone => ?_⟩
          · rw [tree_var (is_logic_var_term v)]
            refine Eq.trans ?_ (meaning_name hname).symm
            simp only [worldOf, hv]
          · cases hname.symm.trans hnone
        · rename_i hs
          exact .pure fun _ => translated_atom (if_neg hs)
      | _ => exact .pure fun _ => translated_atom rfl
    | arr items =>
      rw [logic_query_term]
      exact (creates_items_forall ih).bind fun items' => .pure fun final h => translated_arr h
    | obj fields =>
      rw [logic_query_term]
      refine (creates_inOrder (Q := fun final k t' => ∃ t, field fields k = some t ∧ Translated next final t t')
        fun e he => ?_).bind fun entries => .pure fun final h => translated_obj ⟨vars, hover, hold⟩ ?_ h.2
      · obtain ⟨k, run⟩ := e
        rw [mem_ownEntries, logic_query_fields_eq, field_map, Option.map_eq_some_iff] at he
        obtain ⟨t, ht, rfl⟩ := he
        exact (ih t (List.mem_map.2 ⟨(k, t), mem_ownEntries.2 ht, rfl⟩)).mono fun final t' htranslated => ⟨t, ht, htranslated⟩
      · rw [h.1, ownEntries_keys, logic_query_fields_eq, ownKeys_map]

/-! ## Plans in the worlds of names -/

/-- No attribute of the graph has a logic variable with an id from the counter on. -/
def OldAttributes (next : ℕ) (graph : DirectedGraph) : Prop :=
  ∀ id attrs, graph.nodes.get? id = some attrs → Old next (.obj attrs)

theorem OldAttributes.get_attr {next : ℕ} {graph : DirectedGraph} (h : OldAttributes next graph) {id : String}
    {attrs : Attributes} (hid : graph.nodes.get? id = some attrs) (attr_name : String) : Old next (get_attr attrs attr_name) := by
  rw [Tracer.get_attr]
  cases hfield : field attrs attr_name with
  | none => exact old_atom next _
  | some t => exact @Old.childAt _ _ _ (h id attrs hid) (.key attr_name) hfield

theorem old_of_choices {next : ℕ} {graph : DirectedGraph} (hgraph : OldAttributes next graph) {op : String} {x y : Term}
    (h : Choice.pair x y ∈ choices graph op) : Old next x ∧ Old next y := by
  -- Ids and label texts are strings, attributes come from the graph.
  have hattr : ∀ {name predicate}, Choice.pair x y ∈ attrChoices graph name predicate → Old next x ∧ Old next y := by
    rintro name predicate ⟨id, attrs, hid, -, hpair⟩
    cases hpair
    exact ⟨old_atom next _, hgraph.get_attr hid name⟩
  have hlabel : ∀ {test}, Choice.pair x y ∈ labelChoices graph test → Old next x ∧ Old next y := by
    rintro test ⟨id, attrs, raw_label, text, -, -, -, hpair⟩
    cases hpair
    exact ⟨old_atom next _, old_atom next _⟩
  have hpairs : ∀ {pairs}, Choice.pair x y ∈ pairChoices pairs → Old next x ∧ Old next y := by
    rintro pairs ⟨p, -, hpair⟩
    cases hpair
    exact ⟨old_atom next _, old_atom next _⟩
  have hreachable : ∀ {g}, Choice.pair x y ∈ reachableChoices g → Old next x ∧ Old next y := by
    rintro g ⟨fuel, pairs, -, hpair⟩
    exact hpairs hpair
  unfold choices at h
  split at h
  case h_1 => cases h
  case h_2 =>
    obtain ⟨id, attrs, hid, hpair⟩ := h
    cases hpair
    exact ⟨old_atom next _, hgraph id attrs hid⟩
  case h_3 => exact hpairs h
  case h_4 | h_5 | h_6 | h_7 | h_8 | h_9 => exact hattr h
  case h_10 | h_11 => exact hlabel h
  case h_12 | h_13 | h_14 => exact hreachable h
  case h_15 => exact h.elim

theorem binaryAlternatives_translated {next : ℕ} {graph : DirectedGraph} (hgraph : OldAttributes next graph)
    {final : QueryVars} {a b a' b' : Term} (ha : Translated next final a a') (hb : Translated next final b b') (op : String) :
    binaryAlternatives graph tree tree op a' b' =
      Set.preimage (worldOf next final) '' binaryAlternatives graph meaning meaningOfData op a b := by
  rw [binaryAlternatives, binaryAlternatives, Set.image_image]
  refine Set.image_congr fun c hc => Set.ext fun σ => ?_
  cases c with
  | same =>
    simp only [Choice.worlds, Set.mem_ofPred_eq, Set.mem_preimage]
    rw [ha.tree, hb.tree]
  | pair x y =>
    obtain ⟨hx, hy⟩ := old_of_choices hgraph hc
    simp only [Choice.worlds, Set.mem_ofPred_eq, Set.mem_preimage]
    rw [ha.tree, hb.tree, tree_old hx final, tree_old hy final]

theorem preimage_infs {X Y : Type} (f : X → Y) (A B : Set (Set Y)) :
    Set.preimage f '' (A ⊼ B) = Set.preimage f '' A ⊼ Set.preimage f '' B := Set.image_image2_distrib fun _ _ => rfl

/-- The named plan offers what the plan offers to names. -/
def Offers (next : ℕ) (graph : DirectedGraph) (final : QueryVars) (plan plan' : Plan) : Prop :=
  plan'.alternatives graph tree tree = Set.preimage (worldOf next final) '' plan.alternatives graph meaning meaningOfData

section offers
variable {next : ℕ} {graph : DirectedGraph} {final : QueryVars} {plans plans' : List Plan}

theorem offers_all (h : List.Forall₂ (Offers next graph final) plans plans') : allAlternatives graph tree tree plans' =
    Set.preimage (worldOf next final) '' allAlternatives graph meaning meaningOfData plans := by
  induction h with
  | nil => rw [allAlternatives, allAlternatives, Set.image_singleton, Set.preimage_univ]
  | cons hplan _ ih => rw [allAlternatives, allAlternatives, hplan, ih, preimage_infs]

theorem offers_any (h : List.Forall₂ (Offers next graph final) plans plans') : anyAlternatives graph tree tree plans' =
    Set.preimage (worldOf next final) '' anyAlternatives graph meaning meaningOfData plans := by
  induction h with
  | nil => rw [anyAlternatives, anyAlternatives, Set.image_empty]
  | cons hplan _ ih => rw [anyAlternatives, anyAlternatives, hplan, ih, Set.image_union]

end offers

section naming
variable {next : ℕ} {graph : DirectedGraph}

mutual

theorem creates_name (hgraph : OldAttributes next graph) :
    ∀ plan : Plan, plan.All (Old next) → Creates plan.name fun final plan' => Offers next graph final plan plan'
  | .binary op a b, h => by
    rw [Plan.name]
    exact (creates_translated h.1).bind fun a' => (creates_translated h.2).bind fun b' => .pure fun final hb ha =>
      binaryAlternatives_translated hgraph ha hb op
  | .join_through a b c, h => by
    rw [Plan.name]
    refine (creates_translated h.1).bind fun a' => (creates_translated h.2.1).bind fun b' =>
      (creates_translated h.2.2).bind fun c' => .pure fun final hc hb ha => ?_
    rw [Offers, Plan.alternatives, Plan.alternatives, preimage_infs, binaryAlternatives_translated hgraph ha hb,
      binaryAlternatives_translated hgraph hb hc]
  | .and plans, h => by
    rw [Plan.name]
    exact (creates_names hgraph plans h).bind fun _ => .pure fun final hplans => offers_all hplans
  | .or plans, h => by
    rw [Plan.name]
    exact (creates_names hgraph plans h).bind fun _ => .pure fun final hplans => offers_any hplans

theorem creates_names (hgraph : OldAttributes next graph) : ∀ plans : List Plan, AllPlans (Old next) plans →
    Creates (namePlans plans) fun final plans' => List.Forall₂ (Offers next graph final) plans plans'
  | [], _ => .pure fun _ => .nil
  | plan :: plans, h => by
    rw [namePlans]
    exact (creates_name hgraph plan h.1).bind fun _ => (creates_names hgraph plans h.2).bind fun _ =>
      .pure fun final hplans hplan => .cons hplan hplans

end

end naming

/-! ## Ids from the counter on -/

/-- No variable made has an id below. -/
structure FromCounter (next : ℕ) (st : QueryVars) : Prop where
  counter : next ≤ st.next
  ids : ∀ name v, st.vars.get? name = some v → next ≤ v.id

/-- The computation gives new variables ids from the counter on. -/
def CountsUp {α : Type} (next : ℕ) (run : Named α) : Prop := ∀ st, FromCounter next st → FromCounter next (run st).2

section countsUp
variable {next : ℕ} {α β : Type}

theorem CountsUp.pure (a : α) : CountsUp next (pure a) := fun _ h => h

theorem CountsUp.bind {run : Named α} {f : α → Named β} (h : CountsUp next run) (hf : ∀ a, CountsUp next (f a)) :
    CountsUp next (run >>= f) := fun st hst => hf _ _ (h st hst)

theorem countsUp_query_var (name : String) : CountsUp next (query_var name) := by
  intro st hst
  cases h : st.vars.get? name with
  | some v =>
    have hrun : query_var name st = (v.term, st) := by simp only [query_var, h]
    rwa [hrun]
  | none =>
    simp only [query_var, h]
    refine ⟨hst.counter.trans (Nat.le_succ _), fun name' v hv => ?_⟩
    simp only [OrdMap.get?_set] at hv
    split at hv
    · cases hv
      exact hst.counter
    · exact hst.ids name' v hv

theorem countsUp_inOrder {runs : List (String × Named Term)} (h : ∀ e ∈ runs, CountsUp next e.2) :
    CountsUp next (inOrder runs) := by
  induction runs with
  | nil => exact .pure _
  | cons run runs ih =>
    rw [List.forall_mem_cons] at h
    exact h.1.bind fun t => (ih h.2).bind fun rest => .pure _

mutual

theorem countsUp_term : ∀ t : Term, CountsUp next (logic_query_term t)
  | .atom a => by
    cases a with
    | str s =>
      rw [logic_query_term]
      split
      · exact countsUp_query_var s
      · exact .pure _
    | _ => exact .pure _
  | .arr items => by
    rw [logic_query_term]
    exact (countsUp_items items).bind fun _ => .pure _
  | .obj fields => by
    rw [logic_query_term]
    exact (countsUp_inOrder fun e he => countsUp_fields fields e (field_mem (mem_ownEntries.1 he))).bind fun _ => .pure _

theorem countsUp_items : ∀ items : List Term, CountsUp next (logic_query_items items)
  | [] => .pure _
  | t :: ts => (countsUp_term t).bind fun _ => (countsUp_items ts).bind fun _ => .pure _

theorem countsUp_fields : ∀ fields : List (String × Term), ∀ e ∈ logic_query_fields fields, CountsUp next e.2
  | [], _, he => absurd he (by simp [logic_query_fields])
  | (key, t) :: fields, e, he => by
    rw [logic_query_fields] at he
    rcases List.mem_cons.1 he with rfl | he
    · exact countsUp_term t
    · exact countsUp_fields fields e he

end

mutual

theorem countsUp_name : ∀ plan : Plan, CountsUp next plan.name
  | .binary _ a b => (countsUp_term a).bind fun _ => (countsUp_term b).bind fun _ => .pure _
  | .join_through a b c => (countsUp_term a).bind fun _ => (countsUp_term b).bind fun _ => (countsUp_term c).bind fun _ =>
      .pure _
  | .and plans => (countsUp_names plans).bind fun _ => .pure _
  | .or plans => (countsUp_names plans).bind fun _ => .pure _

theorem countsUp_names : ∀ plans : List Plan, CountsUp next (namePlans plans)
  | [] => .pure _
  | plan :: plans => (countsUp_name plan).bind fun _ => (countsUp_names plans).bind fun _ => .pure _

end

end countsUp

end LainLang.Tracer
