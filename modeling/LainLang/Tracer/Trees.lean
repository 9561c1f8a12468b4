import LainLang.Lib.Trees
import LainLang.Tracer.Reify
/-!
# Terms as trees

Nothing stops `unify` from binding a variable to a term around it, and the run
goes on as long as it does not walk into the cycle. Read as trees, possibly
infinite, terms have values under every substitution, and a reified row without
variables says what the tree of the term is under all of them.
-/
open LainLang.Lib LainLang.Js

namespace LainLang.Tracer

/-- Where a child stands. -/
inductive Place where
  | item (i : ℕ)
  | key (name : String)

/-- A term without its children. -/
inductive Outline where
  | atom (a : Atom)
  | arr (length : ℕ)
  | obj (keys : Set String)

/-- What a term shows at its root. -/
def outline : Term → Outline
  | .atom a => .atom a
  | .arr items => .arr items.length
  | .obj fields => .obj {k | k ∈ fields.map Prod.fst}

/-- The term below at a place. -/
def childAt : Term → Place → Option Term
  | .arr items, .item i => items[i]?
  | .obj fields, .key name => field fields name
  | _, _ => none

theorem childAt_domain {t u : Term} (h : outline t = outline u) (place : Place) :
    (childAt t place).isSome = (childAt u place).isSome := by
  cases t with
  | atom a => cases u <;> cases h; rfl
  | arr items =>
    cases u with
    | arr items' =>
      cases place with
      | item i =>
        have hlen : items.length = items'.length := Outline.arr.inj h
        rw [Bool.eq_iff_iff]
        simp [childAt, hlen]
      | key name => rfl
    | _ => cases h
  | obj fields =>
    cases u with
    | obj fields' =>
      cases place with
      | item i => rfl
      | key name =>
        have hkeys : name ∈ fields.map Prod.fst ↔ name ∈ fields'.map Prod.fst := Set.ext_iff.1 (Outline.obj.inj h) name
        rw [field_isSome, field_isSome, ← Option.isSome_iff_exists, ← Option.isSome_iff_exists] at hkeys
        exact Bool.eq_iff_iff.2 hkeys
    | _ => cases h

/-- Terms as nodes of trees. -/
def termNodes : Nodes Place Outline Term where
  shape := outline
  child := childAt
  domain := childAt_domain

/-- The tree of a value. -/
abbrev ValueTree := PathTree Place Outline

/-- A tree for each variable id. -/
abbrev TreeValuation := JsNumber → ValueTree

/-- The tree of a term under trees for its variables. -/
def tree (σ : TreeValuation) : Term → ValueTree := termNodes.unfold fun t =>
  match is_logic_var t with
  | some v => .inl (σ v)
  | none => .inr t

section tree
variable {σ τ : TreeValuation}

theorem tree_var {t : Term} {v : JsNumber} (h : is_logic_var t = some v) : tree σ t = σ v :=
  Nodes.unfold_inl (by simp only [h])

theorem tree_grow {t : Term} (h : is_logic_var t = none) : tree σ t = termNodes.grow (tree σ) t :=
  Nodes.unfold_inr (by simp only [h])

/-- Terms have the same tree if they look alike and their children have the same trees. -/
theorem tree_eq_iff {t u : Term} (ht : is_logic_var t = none) (hu : is_logic_var u = none) : tree σ t = tree τ u ↔
    outline t = outline u ∧ ∀ place x y, childAt t place = some x → childAt u place = some y → tree σ x = tree τ y := by
  rw [tree_grow ht, tree_grow hu]
  exact Nodes.grow_eq_iff

/-- The pairs of children that `unify` looks at are those that stand at the same place. -/
theorem childPairs_iff {E : Term → Term → Prop} {t u : Term} :
    (outline t = outline u ∧ ∀ place x y, childAt t place = some x → childAt u place = some y → E x y) ↔
      ∃ pairs, childPairs t u = some pairs ∧ ∀ p ∈ pairs, E p.1 p.2 := by
  cases t with
  | atom a =>
    cases u with
    | atom b =>
      by_cases hab : a = b
      · simp [outline, childPairs, hab, childAt]
      · simp [outline, childPairs, hab]
    | _ => simp [outline, childPairs]
  | arr xs =>
    cases u with
    | arr ys =>
      rw [childPairs]
      by_cases hlen : xs.length = ys.length
      · simp only [outline, hlen, true_and, ne_eq, not_true_eq_false, if_false, Option.some.injEq, exists_eq_left']
        constructor
        · rintro h ⟨x, y⟩ hp
          obtain ⟨i, hi⟩ := List.mem_iff_getElem?.1 hp
          rw [List.getElem?_zip_eq_some] at hi
          exact h (.item i) x y hi.1 hi.2
        · intro h place x y hx hy
          cases place with
          | item i => exact h (x, y) (List.mem_iff_getElem?.2 ⟨i, List.getElem?_zip_eq_some.2 ⟨hx, hy⟩⟩)
          | key name => cases hx
      · simp [outline, hlen]
    | _ => simp [outline, childPairs]
  | obj f =>
    cases u with
    | obj g =>
      have hkeys : outline (.obj f) = outline (.obj g) ↔ ∀ k, k ∈ f.map Prod.fst ↔ k ∈ g.map Prod.fst := by
        simp [outline, Set.ext_iff]
      rw [hkeys, ← childPairs_obj]
      refine and_congr_right fun _ => ⟨fun h k => h (.key k), fun h place x y hx hy => ?_⟩
      cases place with
      | item i => cases hx
      | key k => exact h k x y hx hy
    | _ => simp [outline, childPairs]

end tree

/-- Terms read as trees. -/
def trees (σ : TreeValuation) : Reading ValueTree where
  same := Eq
  value := σ
  read := tree σ
  equivalence := eq_equivalence
  var := tree_var
  children ha hb := (tree_eq_iff ha hb).trans childPairs_iff

/-! ## Every substitution has solutions -/

/-- The chain of bindings from the term ends at `a`. -/
def ResolvesTo (s : Substitution) (t a : Term) : Prop := ∃ n, resolve_var n t s = .ok a

theorem ResolvesTo.unique {s : Substitution} {t a b : Term} (ha : ResolvesTo s t a) (hb : ResolvesTo s t b) : a = b := by
  obtain ⟨n, ha⟩ := ha
  obtain ⟨m, hb⟩ := hb
  exact (resolve_var_grows t s).ok_unique ha hb

theorem resolvesTo_self {s : Substitution} {t : Term} (h : (is_logic_var t).bind s.get? = none) : ResolvesTo s t t :=
  ⟨1, by rw [resolve_var, h]⟩

/-- A bound variable resolves as its value does. -/
theorem resolvesTo_bound {s : Substitution} {t u a : Term} (h : (is_logic_var t).bind s.get? = some u) :
    ResolvesTo s t a ↔ ResolvesTo s u a := by
  constructor
  · rintro ⟨n, hn⟩
    cases n with
    | zero => cases hn
    | succ n => exact ⟨n, by rwa [resolve_var, h] at hn⟩
  · rintro ⟨n, hn⟩
    exact ⟨n + 1, by rwa [resolve_var, h]⟩

open Classical in
/-- Where a term goes on from: `τ` gives the trees of unbound variables, and a
chain without end stands for the tree without paths. -/
noncomputable def resolved (s : Substitution) (τ : TreeValuation) (t : Term) : ValueTree ⊕ Term :=
  if h : ∃ a, ResolvesTo s t a then
    match is_logic_var h.choose with
    | some v => .inl (τ v)
    | none => .inr h.choose
  else .inl fun _ => none

theorem resolved_eq {s : Substitution} {τ : TreeValuation} {t a : Term} (h : ResolvesTo s t a) : resolved s τ t =
    match is_logic_var a with
    | some v => .inl (τ v)
    | none => .inr a := by
  have hex : ∃ a, ResolvesTo s t a := ⟨a, h⟩
  rw [resolved, dif_pos hex, hex.choose_spec.unique h]

theorem resolved_bound {s : Substitution} {τ : TreeValuation} {t u : Term} (h : (is_logic_var t).bind s.get? = some u) :
    resolved s τ t = resolved s τ u := by
  by_cases hex : ∃ a, ResolvesTo s u a
  · obtain ⟨a, ha⟩ := hex
    rw [resolved_eq ha, resolved_eq ((resolvesTo_bound h).2 ha)]
  · have hex' : ¬ ∃ a, ResolvesTo s t a := fun ⟨a, ha⟩ => hex ⟨a, (resolvesTo_bound h).1 ha⟩
    rw [resolved, resolved, dif_neg hex, dif_neg hex']

/-- The solution that gives unbound variables their trees by `τ`. -/
noncomputable def treeSolution (s : Substitution) (τ : TreeValuation) : TreeValuation := fun v =>
  match s.get? v with
  | some u => termNodes.unfold (resolved s τ) u
  | none => τ v

theorem tree_treeSolution (s : Substitution) (τ : TreeValuation) (t : Term) :
    tree (treeSolution s τ) t = termNodes.unfold (resolved s τ) t := by
  refine Nodes.unfold_bisim (R := Eq) ?_ rfl
  rintro t _ rfl
  cases hb : (is_logic_var t).bind s.get? with
  | some u =>
    obtain ⟨v, hv, hu⟩ := Option.bind_eq_some_iff.1 hb
    refine .inl ((tree_var hv).trans ?_)
    rw [treeSolution, hu]
    exact (Nodes.unfold_head (resolved_bound hb)).symm
  | none =>
    -- An unbound term resolves to itself.
    have hresolved := @resolved_eq s τ t t (resolvesTo_self hb)
    cases hv : is_logic_var t with
    | some v =>
      rw [hv] at hb hresolved
      refine .inl ((tree_var hv).trans ?_)
      rw [Nodes.unfold_inl hresolved, treeSolution]
      rw [Option.bind_some] at hb
      rw [hb]
    | none =>
      rw [hv] at hresolved
      refine .inr ⟨t, t, rfl, hresolved, rfl, fun place x y hx hy => ?_⟩
      exact Option.some.inj (hx.symm.trans hy)

theorem solves_treeSolution (s : Substitution) (τ : TreeValuation) : (trees (treeSolution s τ)).Solves s := by
  intro v t hv
  refine Eq.trans ?_ (tree_treeSolution s τ t).symm
  change treeSolution s τ v = _
  rw [treeSolution, hv]

/-! ## Rows without variables -/

theorem NoVars.root {t : Term} (h : NoVars t) : is_logic_var t = none := by
  cases h with
  | atom a => rfl
  | arr all => rfl
  | obj root all => exact root

theorem NoVars.childAt {t x : Term} (h : NoVars t) {place : Place} (hx : childAt t place = some x) : NoVars x := by
  cases h with
  | atom a => cases place <;> cases hx
  | @arr items all =>
    cases place with
    | item i => exact all x (List.mem_of_getElem? hx)
    | key name => cases hx
  | @obj fields root all =>
    cases place with
    | item i => cases hx
    | key name => exact all name x hx

/-- Data has the same tree under every valuation. -/
theorem tree_noVars {t : Term} (h : NoVars t) (σ τ : TreeValuation) : tree σ t = tree τ t := by
  refine Nodes.unfold_bisim (R := fun t u => t = u ∧ NoVars t) ?_ ⟨rfl, h⟩
  rintro t _ ⟨rfl, h⟩
  refine .inr ⟨t, t, by rw [h.root], by rw [h.root], rfl, fun place x y hx hy => ?_⟩
  exact ⟨Option.some.inj (hx.symm.trans hy), h.childAt hx⟩

theorem literal_arr (items : List Term) : literal (.arr items) = .arr (items.map literal) := by
  rw [literal, fill, fillItems_eq]

theorem literal_obj (fields : List (String × Term)) : literal (.obj fields) = .obj (fields.map fun f => (f.1, literal f.2)) := by
  rw [literal, fill, fillFields_eq]

/-- Only an atom has the value of that atom. -/
theorem literal_atom {t : Term} {a : Atom} (h : Same (literal t) (literal (.atom a))) : t = .atom a := by
  have hatom : ∀ b : Atom, literal (.atom b) = .atom b := fun b => by cases b <;> rfl
  rw [hatom] at h
  cases t with
  | atom b => rw [hatom, same_atom_iff] at h; rw [h]
  | arr items => rw [literal_arr] at h; cases h
  | obj fields => rw [literal_obj] at h; cases h

/-- Under a solution a row without variables is the tree of the term. -/
theorem substitute_tree {s : Substitution} {σ : TreeValuation} (hσ : (trees σ).Solves s) {n : ℕ} {t row : Term}
    (h : substitute n t s = .ok row) (hrow : NoVars row) : tree σ t = tree σ row := by
  induction n generalizing t row with
  | zero => cases h
  | succ n ih =>
    rw [substitute] at h
    obtain ⟨a, ha, h⟩ := except_bind_eq_ok h
    refine (Reading.resolve_var hσ ha).trans ?_
    change tree σ a = tree σ row
    cases a with
    | atom x => cases h; rfl
    | arr items =>
      obtain ⟨rows, hrows, h⟩ := except_bind_eq_ok h
      cases h
      have hlist := mapAll_ok hrows
      refine (tree_eq_iff rfl rfl).2 ⟨congrArg Outline.arr hlist.length_eq, fun place x y hx hy => ?_⟩
      cases place with
      | item i => exact ih (forall₂_getElem? hlist hx hy) (@NoVars.childAt _ _ hrow (.item i) hy)
      | key name => cases hx
    | obj fields =>
      obtain ⟨entries, hentries, h⟩ := except_bind_eq_ok h
      cases h
      have hroot : is_logic_var (.obj fields) = none := by
        by_contra hne
        obtain ⟨v, hv⟩ := Option.ne_none_iff_exists'.1 hne
        have hlook := substitute_root hentries hv
        rw [hrow.root] at hlook
        cases hlook
      refine (tree_eq_iff hroot hrow.root).2 ⟨?_, fun place x y hx hy => ?_⟩
      · refine congrArg Outline.obj (Set.ext fun k => ?_)
        exact (substitute_keys hentries k).symm
      · cases place with
        | item i => cases hx
        | key k =>
          obtain ⟨z, hz, hsub⟩ := (substitute_entries hentries k).1 y hy
          obtain rfl := Option.some.inj (hz.symm.trans hx)
          exact ih hsub (@NoVars.childAt _ _ hrow (.key k) hy)

/-- A term with the same tree under all solutions does not resolve to a variable. -/
theorem root_of_determined {s : Substitution} {n : ℕ} {a : Term} {t : Term} (ha : resolve_var n t s = .ok a)
    {T : ValueTree} (hall : ∀ σ, (trees σ).Solves s → tree σ a = T) : is_logic_var a = none := by
  by_contra hne
  obtain ⟨v, hv⟩ := Option.ne_none_iff_exists'.1 hne
  have hvalue : ∀ τ : TreeValuation, τ v = T := by
    intro τ
    rw [← hall _ (solves_treeSolution s τ), tree_var hv, treeSolution, resolve_var_unbound ha hv]
  have hdiffer := congrFun ((hvalue fun _ _ => none).trans (hvalue fun _ _ => some (.atom .undefined)).symm) []
  cases hdiffer

/-- Items that are the data of an array, one by one, make that array. -/
theorem ground_arr {items rows : List Term} (hlen : items.length = rows.length)
    (h : ∀ (i : ℕ) (x y : Term), items[i]? = some x → rows[i]? = some y → NoVars y ∧ Same (literal x) (literal y)) :
    NoVars (.arr rows) ∧ Same (literal (.arr items)) (literal (.arr rows)) := by
  refine ⟨.arr fun y hy => ?_, ?_⟩
  · obtain ⟨i, hi⟩ := List.mem_iff_getElem?.1 hy
    have hi' : i < items.length := hlen ▸ (List.getElem?_eq_some_iff.1 hi).1
    exact (h i _ y (List.getElem?_eq_getElem hi') hi).1
  · rw [literal_arr, literal_arr]
    refine .arr (by simp [hlen]) fun i x y hx hy => ?_
    rw [List.getElem?_map, Option.map_eq_some_iff] at hx hy
    obtain ⟨x, hx, rfl⟩ := hx
    obtain ⟨y, hy, rfl⟩ := hy
    exact (h i x y hx hy).2

/-- Fields that are the data of an object, one by one, make that object. -/
theorem ground_obj {fields entries : List (String × Term)} (hroot : is_logic_var (.obj fields) = none)
    (hkeys : ∀ k, k ∈ fields.map Prod.fst ↔ k ∈ entries.map Prod.fst)
    (h : ∀ k x y, field fields k = some x → field entries k = some y → NoVars y ∧ Same (literal x) (literal y)) :
    NoVars (.obj entries) ∧ Same (literal (.obj fields)) (literal (.obj entries)) := by
  have hpair : ∀ k y, field entries k = some y → ∃ x, field fields k = some x ∧ NoVars y ∧ Same (literal x) (literal y) := by
    intro k y hy
    obtain ⟨x, hx⟩ := field_isSome.1 ((hkeys k).2 (field_isSome.2 ⟨y, hy⟩))
    exact ⟨x, hx, h k x y hx hy⟩
  refine ⟨.obj ?_ fun k y hy => ?_, ?_⟩
  · -- Entries that look like a variable would have come from data that does.
    by_contra hne
    obtain ⟨v, hv⟩ := Option.ne_none_iff_exists'.1 hne
    obtain ⟨id, htype, hid, hkey⟩ := is_logic_var_obj.1 hv
    obtain ⟨x, hx, -, hxs⟩ := hpair "type" _ htype
    obtain ⟨y, hy, -, hys⟩ := hpair "id" _ hid
    have hlook := is_logic_var_obj.2 ⟨id, literal_atom hxs ▸ hx, literal_atom hys ▸ hy, hkey⟩
    rw [hroot] at hlook
    cases hlook
  · obtain ⟨x, -, hy, -⟩ := hpair k y hy
    exact hy
  · rw [literal_obj, literal_obj]
    refine .obj (by simpa using hkeys) fun k x y hx hy => ?_
    rw [field_map, Option.map_eq_some_iff] at hx hy
    obtain ⟨x, hx, rfl⟩ := hx
    obtain ⟨y, hy, rfl⟩ := hy
    exact (h k x y hx hy).2

/-- If under all solutions a term has the tree of data, it is reified to that data. -/
theorem substitute_ground {s : Substitution} {n : ℕ} {t row row' : Term} (h : substitute n t s = .ok row')
    (hrow : NoVars row) (hall : ∀ σ, (trees σ).Solves s → tree σ t = tree σ row) :
    NoVars row' ∧ Same (literal row) (literal row') := by
  induction n generalizing t row row' with
  | zero => cases h
  | succ n ih =>
    rw [substitute] at h
    obtain ⟨a, ha, h⟩ := except_bind_eq_ok h
    have hresolved : ∀ σ, (trees σ).Solves s → tree σ a = tree σ row := fun σ hσ =>
      (Reading.resolve_var hσ ha).symm.trans (hall σ hσ)
    -- A variable would have more than one tree.
    have hroot : is_logic_var a = none := root_of_determined ha fun σ hσ =>
      (hresolved σ hσ).trans (tree_noVars hrow σ fun _ _ => none)
    have hsame := fun σ hσ => (tree_eq_iff hroot hrow.root).1 (hresolved σ hσ)
    have houtline : outline a = outline row := (hsame _ (solves_treeSolution s fun _ _ => none)).1
    cases a with
    | atom x =>
      cases h
      cases row with
      | atom y =>
        cases houtline
        exact ⟨.atom x, .refl _⟩
      | _ => cases houtline
    | arr items =>
      cases row with
      | arr items' =>
        obtain ⟨rows, hrows, h⟩ := except_bind_eq_ok h
        cases h
        have hlen : items.length = items'.length := Outline.arr.inj houtline
        have hlist := mapAll_ok hrows
        refine ground_arr (hlen.symm.trans hlist.length_eq) fun i x y hx hy => ?_
        have hi : i < items.length := hlen ▸ (List.getElem?_eq_some_iff.1 hx).1
        have hz := List.getElem?_eq_getElem hi
        exact ih (forall₂_getElem? hlist hz hy) (@NoVars.childAt _ _ hrow (.item i) hx) fun σ hσ =>
          (hsame σ hσ).2 (.item i) _ x hz hx
      | _ => cases houtline
    | obj fields =>
      cases row with
      | obj fields' =>
        obtain ⟨entries, hentries, h⟩ := except_bind_eq_ok h
        cases h
        have hkeys : ∀ k, k ∈ fields.map Prod.fst ↔ k ∈ fields'.map Prod.fst := Set.ext_iff.1 (Outline.obj.inj houtline)
        refine ground_obj hrow.root (fun k => (hkeys k).symm.trans (substitute_keys hentries k).symm) fun k x y hx hy => ?_
        obtain ⟨z, hz, hsub⟩ := (substitute_entries hentries k).1 y hy
        exact ih hsub (@NoVars.childAt _ _ hrow (.key k) hx) fun σ hσ => (hsame σ hσ).2 (.key k) z x hz hx
      | _ => cases houtline

end LainLang.Tracer
