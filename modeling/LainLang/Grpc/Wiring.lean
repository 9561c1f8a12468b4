import LainLang.Grpc.Cells
import LainLang.Grpc.Lifecycle
/-!
# The wiring of the registered cards

`Wired w E`: the live links between the cells of the registered cards are those
of the connections `E`, four to a connection, and no two connections join the
same two cards. Each card operation is one change of `E`.
-/
open LainLang.Lib LainLang.Js

namespace LainLang.Grpc

variable {lib : CellLibrary}

/-! ## Reading a world -/

/-- The slots of a card by the key they are tracked under. -/
def TrackedCells.cells {Cell : Type} (t : TrackedCells Cell) : List Cell :=
  [t.this, t.left, t.right, t.above, t.below, t.updater, t.emitter]

/-- The keys of `tracking_internal_cells`. -/
def trackedKeys : List String :=
  [slot_this, slot_left, slot_right, slot_above, slot_below, "updater", "emitter"]

/-- A cell of a card: the card's id and the key the cell is tracked under. -/
abbrev Place := String × String

/-- The cell at a place. -/
def cellOf (w : CardWorld lib) (p : Place) : Option lib.Cell :=
  (w.card_metadata_storage.get? p.1).bind (fun metadata => metadata.tracking_internal_cells.get? p.2)

/-- The links card `a` stores for its connection to card `b`. -/
def linksAt (w : CardWorld lib) (a b : String) : Option (List lib.Cell) :=
  (w.card_metadata_storage.get? a).bind (fun metadata => metadata.connector_links.get? (linkKey a b))

/-- The four places a connection copies from, each with the place it copies to. -/
def flows (e : StructuralEdge) : List (Place × Place) :=
  [((e.from_id, e.from_slot), (e.to_id, slot_this)), ((e.to_id, slot_this), (e.from_id, e.from_slot)),
   ((e.to_id, e.to_slot), (e.from_id, slot_this)), ((e.from_id, slot_this), (e.to_id, e.to_slot))]

/-- `link` is live and copies from the first place to the second. -/
def Carries (w : CardWorld lib) (link : lib.Cell) (flow : Place × Place) : Prop :=
  ∃ x y, cellOf w flow.1 = some x ∧ cellOf w flow.2 = some y ∧
    lib.synced w.heap x link ∧ lib.target w.heap link = some y

/-- Both cards store the same four links, and these carry the four flows. -/
def Linked (w : CardWorld lib) (e : StructuralEdge) : Prop :=
  ∃ links, linksAt w e.from_id e.to_id = some links ∧ linksAt w e.to_id e.from_id = some links ∧
    List.Forall₂ (Carries w) links (flows e)

/-- The edge is between these two cards. -/
def Joins (e : StructuralEdge) (a b : String) : Prop :=
  e.from_id = a ∧ e.to_id = b ∨ e.from_id = b ∧ e.to_id = a

instance (e : StructuralEdge) (a b : String) : Decidable (Joins e a b) := inferInstanceAs (Decidable (_ ∨ _))

/-- Both edges are between the same two cards. -/
def SameCards (e e' : StructuralEdge) : Prop := Joins e e'.from_id e'.to_id

/-- The registry stores each card under its id, and the links of a card under
the keys of its own connections. -/
structure Filed (w : CardWorld lib) : Prop where
  ids : ∀ id metadata, w.card_metadata_storage.get? id = some metadata → metadata.id = id
  keyed : ∀ id metadata k links, w.card_metadata_storage.get? id = some metadata →
    metadata.connector_links.get? k = some links → ∃ other, k = linkKey id other

/-- The cells are wired as the edges say: every edge is carried both ways, and nothing else is. -/
structure Wired (w : CardWorld lib) (E : Set StructuralEdge) : Prop where
  filed : Filed w
  known : ∀ p x, cellOf w p = some x → lib.known w.heap x
  place : ∀ p q x, cellOf w p = some x → cellOf w q = some x → p = q
  source : ∀ p x x' l, cellOf w p = some x → lib.synced w.heap x l → lib.synced w.heap x' l → x' = x
  pairs : ∀ e ∈ E, ∀ e' ∈ E, SameCards e e' → e = e'
  linked : ∀ e ∈ E, Linked w e
  stored : ∀ a b links, linksAt w a b = some links → ∃ e ∈ E, Joins e a b
  carried : ∀ l flow, Carries w l flow →
    ∃ e ∈ E, ∃ links, linksAt w e.from_id e.to_id = some links ∧ l ∈ links ∧ flow ∈ flows e

/-! ## Places and flows -/

theorem tracked_index {Cell : Type} {t : TrackedCells Cell} {key : String} {x : Cell} (h : t.get? key = some x) :
    ∃ i : ℕ, trackedKeys[i]? = some key ∧ t.cells[i]? = some x := by
  unfold TrackedCells.get? at h
  split_ifs at h with h0 h1 h2 h3 h4 h5 h6 <;> cases h
  · exact ⟨0, h0 ▸ rfl, rfl⟩
  · exact ⟨1, h1 ▸ rfl, rfl⟩
  · exact ⟨2, h2 ▸ rfl, rfl⟩
  · exact ⟨3, h3 ▸ rfl, rfl⟩
  · exact ⟨4, h4 ▸ rfl, rfl⟩
  · exact ⟨5, h5 ▸ rfl, rfl⟩
  · exact ⟨6, h6 ▸ rfl, rfl⟩

theorem tracked_mem {Cell : Type} {t : TrackedCells Cell} {key : String} {x : Cell} (h : t.get? key = some x) :
    x ∈ t.cells := by
  obtain ⟨i, -, hi⟩ := tracked_index h
  exact List.mem_of_getElem? hi

/-- Different cells are tracked under different keys. -/
theorem tracked_key_inj {Cell : Type} {t : TrackedCells Cell} (hn : t.cells.Nodup) {key key' : String} {x : Cell}
    (h : t.get? key = some x) (h' : t.get? key' = some x) : key = key' := by
  obtain ⟨i, hk, hi⟩ := tracked_index h
  obtain ⟨j, hk', hj⟩ := tracked_index h'
  have hlt : i < t.cells.length := (List.getElem?_eq_some_iff.1 hi).1
  have hij : i = j := (List.getElem?_inj hlt hn).1 (hi.trans hj.symm)
  subst hij
  exact Option.some.inj (hk.symm.trans hk')

theorem linkKey_inj {a b c : String} (h : linkKey a b = linkKey a c) : b = c := append_left_cancel h

theorem Joins.symm {e : StructuralEdge} {a b : String} (h : Joins e a b) : Joins e b a := Or.symm h

theorem Joins.sameCards {e e' : StructuralEdge} {a b : String} (h : Joins e a b) (h' : Joins e' a b) :
    SameCards e e' := by
  unfold SameCards
  rcases h' with ⟨rfl, rfl⟩ | ⟨rfl, rfl⟩
  · exact h
  · exact h.symm

theorem joins_of_flow {e : StructuralEdge} {flow : Place × Place} (h : flow ∈ flows e) :
    Joins e flow.1.1 flow.2.1 := by
  simp only [flows, List.mem_cons, List.not_mem_nil, or_false] at h
  rcases h with rfl | rfl | rfl | rfl
  · exact .inl ⟨rfl, rfl⟩
  · exact .inr ⟨rfl, rfl⟩
  · exact .inr ⟨rfl, rfl⟩
  · exact .inl ⟨rfl, rfl⟩

theorem Linked.carries {w : CardWorld lib} {e : StructuralEdge} {links : List lib.Cell} (h : Linked w e)
    (hl : linksAt w e.from_id e.to_id = some links) {l : lib.Cell} (hm : l ∈ links) :
    ∃ flow ∈ flows e, Carries w l flow := by
  obtain ⟨links', h1, -, hf⟩ := h
  rw [hl] at h1
  cases h1
  obtain ⟨i, hi, rfl⟩ := List.getElem_of_mem hm
  have hi' : i < (flows e).length := hf.length_eq ▸ hi
  exact ⟨(flows e)[i], List.getElem_mem _, hf.get hi hi'⟩

/-- The two cards of a linked connection are registered. -/
theorem Linked.registered {w : CardWorld lib} {e : StructuralEdge} (h : Linked w e) :
    (∃ metadata, w.card_metadata_storage.get? e.from_id = some metadata) ∧
      ∃ metadata, w.card_metadata_storage.get? e.to_id = some metadata := by
  obtain ⟨links, h1, h2, -⟩ := h
  obtain ⟨mdA, hA, -⟩ := Option.bind_eq_some_iff.1 h1
  obtain ⟨mdB, hB, -⟩ := Option.bind_eq_some_iff.1 h2
  exact ⟨⟨mdA, hA⟩, ⟨mdB, hB⟩⟩

/-- A live link carries one flow only, and so belongs to one connection. -/
theorem Wired.flow_unique {w : CardWorld lib} {E : Set StructuralEdge} (hw : Wired w E) {l : lib.Cell}
    {flow flow' : Place × Place} (h : Carries w l flow) (h' : Carries w l flow') : flow = flow' := by
  obtain ⟨x, y, hx, hy, hs, ht⟩ := h
  obtain ⟨x', y', hx', hy', hs', ht'⟩ := h'
  have hxx : x' = x := hw.source _ _ _ _ hx hs hs'
  have hyy : y' = y := Option.some.inj (ht'.symm.trans ht)
  subst hxx hyy
  exact Prod.ext (hw.place _ _ _ hx hx') (hw.place _ _ _ hy hy')

theorem Wired.links_disjoint {w : CardWorld lib} {E : Set StructuralEdge} (hw : Wired w E) {e e' : StructuralEdge}
    (he : e ∈ E) (he' : e' ∈ E) {links links' : List lib.Cell} (hl : linksAt w e.from_id e.to_id = some links)
    (hl' : linksAt w e'.from_id e'.to_id = some links') {l : lib.Cell} (hm : l ∈ links) (hm' : l ∈ links') :
    e = e' := by
  obtain ⟨flow, hf, hc⟩ := (hw.linked e he).carries hl hm
  obtain ⟨flow', hf', hc'⟩ := (hw.linked e' he').carries hl' hm'
  have hff := hw.flow_unique hc hc'
  subst hff
  exact hw.pairs e he e' he' ((joins_of_flow hf).sameCards (joins_of_flow hf'))

/-! ## Changes to the heap -/

/-- Cells were made and values moved, but no link changed. -/
theorem Wired.frame (hl : lib.Lawful) {w : CardWorld lib} {E : Set StructuralEdge} (hw : Wired w E) {heap : lib.Heap}
    (f : lib.Frame w.heap heap) : Wired { w with heap } E where
  filed := ⟨hw.filed.ids, hw.filed.keyed⟩
  known p x hx := f.known x (hw.known p x hx)
  place := hw.place
  source p x x' l hx hs hs' := hw.source p x x' l hx ((f.synced x l).1 hs) ((f.synced x' l).1 hs')
  pairs := hw.pairs
  linked e he := by
    obtain ⟨links, h1, h2, hf⟩ := hw.linked e he
    refine ⟨links, h1, h2, hf.imp ?_⟩
    rintro l flow ⟨x, y, hx, hy, hs, ht⟩
    exact ⟨x, y, hx, hy, (f.synced x l).2 hs, (f.target l (hl.synced_known _ _ _ hs).2).trans ht⟩
  stored := hw.stored
  carried := by
    rintro l flow ⟨x, y, hx, hy, hs, ht⟩
    have hs' := (f.synced x l).1 hs
    rw [f.target l (hl.synced_known _ _ _ hs').2] at ht
    exact hw.carried l flow ⟨x, y, hx, hy, hs', ht⟩

/-- The links of a list point at a cell that was not there before. -/
structure Redirects (lib : CellLibrary) (h h' : lib.Heap) (links : List lib.Cell) : Prop where
  known : ∀ c, lib.known h c → lib.known h' c
  synced : ∀ x l, lib.synced h' x l ↔ lib.synced h x l
  other : ∀ c, lib.known h c → c ∉ links → lib.target h' c = lib.target h c
  away : ∀ l ∈ links, lib.known h l → ∃ d, lib.target h' l = some d ∧ ¬ lib.known h d

/-- A link with the cell it is synced from and the cell it points at. -/
structure Wire (Cell : Type) where
  source : Cell
  link : Cell
  target : Cell

/-- The wires of a list are put in, each with a link that was not there before. -/
structure Installs (lib : CellLibrary) (h h' : lib.Heap) (wires : List (Wire lib.Cell)) : Prop where
  known : ∀ c, lib.known h c → lib.known h' c
  old : ∀ c, lib.known h c → lib.target h' c = lib.target h c
  fresh : ∀ wire ∈ wires, ¬ lib.known h wire.link
  nodup : (wires.map Wire.link).Nodup
  synced : ∀ x l, lib.synced h' x l ↔ lib.synced h x l ∨ ∃ wire ∈ wires, x = wire.source ∧ l = wire.link
  target : ∀ wire ∈ wires, lib.target h' wire.link = some wire.target

/-- One connection goes: its links are forgotten and point nowhere. -/
theorem Wired.unlink (hl : lib.Lawful) {w w' : CardWorld lib} {E : Set StructuralEdge} (hw : Wired w E)
    {e : StructuralEdge} (he : e ∈ E) (hfiled : Filed w') (hcell : ∀ p, cellOf w' p = cellOf w p)
    (hlinks : ∀ x y, linksAt w' x y = if Joins e x y then none else linksAt w x y) {links : List lib.Cell}
    (hlk : linksAt w e.from_id e.to_id = some links) (hr : Redirects lib w.heap w'.heap links) :
    Wired w' (E \ {e}) where
  filed := hfiled
  known p x hx := hr.known x (hw.known p x (hcell p ▸ hx))
  place p q x hx hy := hw.place p q x (hcell p ▸ hx) (hcell q ▸ hy)
  source p x x' l hx hs hs' := hw.source p x x' l (hcell p ▸ hx) ((hr.synced x l).1 hs) ((hr.synced x' l).1 hs')
  pairs e₁ h₁ e₂ h₂ := hw.pairs e₁ h₁.1 e₂ h₂.1
  linked := by
    rintro e' ⟨he', hne⟩
    have hapart : ¬ Joins e e'.from_id e'.to_id := fun hj => hne (hw.pairs e he e' he' hj).symm
    obtain ⟨links', h1, h2, hf⟩ := hw.linked e' he'
    refine ⟨links', by rw [hlinks, if_neg hapart, h1], by rw [hlinks, if_neg (mt Joins.symm hapart), h2], ?_⟩
    refine List.forall₂_iff_get.2 ⟨hf.length_eq, fun i hi hi' => ?_⟩
    obtain ⟨x, y, hx, hy, hs, ht⟩ := hf.get hi hi'
    have hnot : links'.get ⟨i, hi⟩ ∉ links := fun hm =>
      hne (hw.links_disjoint he' he h1 hlk (List.get_mem ..) hm)
    exact ⟨x, y, (hcell _).trans hx, (hcell _).trans hy, (hr.synced _ _).2 hs,
      (hr.other _ (hl.synced_known _ _ _ hs).2 hnot).trans ht⟩
  stored a b links' h := by
    rw [hlinks] at h
    split at h
    · cases h
    · rename_i hnot
      obtain ⟨e', he', hj⟩ := hw.stored a b links' h
      exact ⟨e', ⟨he', fun heq => hnot (heq ▸ hj)⟩, hj⟩
  carried := by
    rintro l flow ⟨x, y, hx, hy, hs, ht⟩
    rw [hcell] at hx hy
    rw [hr.synced] at hs
    have hlknown := (hl.synced_known _ _ _ hs).2
    by_cases hm : l ∈ links
    · obtain ⟨d, hd, hnew⟩ := hr.away l hm hlknown
      rw [hd] at ht
      cases ht
      exact absurd (hw.known _ _ hy) hnew
    · rw [hr.other l hlknown hm] at ht
      obtain ⟨e', he', links', h1, hl', hf⟩ := hw.carried l flow ⟨x, y, hx, hy, hs, ht⟩
      have hne : e' ≠ e := by
        rintro rfl
        rw [hlk] at h1
        cases h1
        exact hm hl'
      have hapart : ¬ Joins e e'.from_id e'.to_id := fun hj => hne (hw.pairs e he e' he' hj).symm
      exact ⟨e', ⟨he', hne⟩, links', by rw [hlinks, if_neg hapart, h1], hl', hf⟩

theorem Installs.link_inj {h h' : lib.Heap} {wires : List (Wire lib.Cell)} (hi : Installs lib h h' wires)
    {wire wire' : Wire lib.Cell} (hm : wire ∈ wires) (hm' : wire' ∈ wires) (heq : wire.link = wire'.link) :
    wire = wire' := List.inj_on_of_nodup_map hi.nodup hm hm' heq

/-- One connection comes, between cards that no connection joins yet. -/
theorem Wired.link (hl : lib.Lawful) {w w' : CardWorld lib} {E : Set StructuralEdge} (hw : Wired w E)
    {e : StructuralEdge} (hapart : ∀ e' ∈ E, ¬ SameCards e e') (hfiled : Filed w')
    (hcell : ∀ p, cellOf w' p = cellOf w p) {wires : List (Wire lib.Cell)}
    (hends : List.Forall₂ (fun wire flow => cellOf w flow.1 = some wire.source ∧ cellOf w flow.2 = some wire.target)
      wires (flows e))
    (hlinks : ∀ x y, linksAt w' x y = if Joins e x y then some (wires.map Wire.link) else linksAt w x y)
    (hi : Installs lib w.heap w'.heap wires) : Wired w' (insert e E) := by
  -- The flow a wire of the new connection carries.
  have hflow : ∀ wire ∈ wires, ∃ flow ∈ flows e,
      cellOf w flow.1 = some wire.source ∧ cellOf w flow.2 = some wire.target := by
    intro wire hm
    obtain ⟨i, hlt, rfl⟩ := List.getElem_of_mem hm
    have hlt' : i < (flows e).length := hends.length_eq ▸ hlt
    exact ⟨(flows e)[i], List.getElem_mem _, hends.get hlt hlt'⟩
  have hself : linksAt w' e.from_id e.to_id = some (wires.map Wire.link) := by
    rw [hlinks, if_pos (.inl ⟨rfl, rfl⟩)]
  refine
    { filed := hfiled
      known := fun p x hx => hi.known x (hw.known p x (hcell p ▸ hx))
      place := fun p q x hx hy => hw.place p q x (hcell p ▸ hx) (hcell q ▸ hy)
      source := fun p x x' l hx hs hs' => ?_
      pairs := ?_
      linked := ?_
      stored := fun a b links h => ?_
      carried := ?_ }
  · rw [hcell] at hx
    rcases (hi.synced x l).1 hs with hs | ⟨wire, hm, rfl, rfl⟩
    · rcases (hi.synced x' l).1 hs' with hs' | ⟨wire', hm', -, rfl⟩
      · exact hw.source p x x' l hx hs hs'
      · exact absurd (hl.synced_known _ _ _ hs).2 (hi.fresh wire' hm')
    · rcases (hi.synced x' _).1 hs' with hs' | ⟨wire', hm', rfl, heq⟩
      · exact absurd (hl.synced_known _ _ _ hs').2 (hi.fresh wire hm)
      · rw [hi.link_inj hm hm' heq]
  · rintro e₁ (rfl | h₁) e₂ (rfl | h₂) hs
    · rfl
    · exact absurd hs (hapart e₂ h₂)
    · refine absurd ?_ (hapart e₁ h₁)
      exact Joins.sameCards (.inl ⟨rfl, rfl⟩) hs
    · exact hw.pairs e₁ h₁ e₂ h₂ hs
  · rintro e' (rfl | he')
    · refine ⟨wires.map Wire.link, hself, by rw [hlinks, if_pos (.inr ⟨rfl, rfl⟩)], ?_⟩
      rw [List.forall₂_map_left_iff]
      refine List.forall₂_iff_get.2 ⟨hends.length_eq, fun i hlt hlt' => ?_⟩
      obtain ⟨hx, hy⟩ := hends.get hlt hlt'
      exact ⟨_, _, (hcell _).trans hx, (hcell _).trans hy,
        (hi.synced _ _).2 (.inr ⟨_, List.get_mem .., rfl, rfl⟩), hi.target _ (List.get_mem ..)⟩
    · obtain ⟨links, h1, h2, hf⟩ := hw.linked e' he'
      have hnot : ¬ Joins e e'.from_id e'.to_id := hapart e' he'
      refine ⟨links, by rw [hlinks, if_neg hnot, h1], by rw [hlinks, if_neg (mt Joins.symm hnot), h2], hf.imp ?_⟩
      rintro l flow ⟨x, y, hx, hy, hs, ht⟩
      exact ⟨x, y, (hcell _).trans hx, (hcell _).trans hy, (hi.synced _ _).2 (.inl hs),
        (hi.old _ (hl.synced_known _ _ _ hs).2).trans ht⟩
  · rw [hlinks] at h
    split at h
    · rename_i hj
      exact ⟨e, Set.mem_insert _ _, hj⟩
    · obtain ⟨e', he', hj⟩ := hw.stored a b links h
      exact ⟨e', Set.mem_insert_of_mem _ he', hj⟩
  · rintro l flow ⟨x, y, hx, hy, hs, ht⟩
    rw [hcell] at hx hy
    rcases (hi.synced x l).1 hs with hs | ⟨wire, hm, rfl, rfl⟩
    · rw [hi.old l (hl.synced_known _ _ _ hs).2] at ht
      obtain ⟨e', he', links, h1, hm, hf⟩ := hw.carried l flow ⟨x, y, hx, hy, hs, ht⟩
      have hnot : ¬ Joins e e'.from_id e'.to_id := hapart e' he'
      exact ⟨e', Set.mem_insert_of_mem _ he', links, by rw [hlinks, if_neg hnot, h1], hm, hf⟩
    · obtain ⟨flow', hf, hx', hy'⟩ := hflow wire hm
      rw [hi.target wire hm] at ht
      cases ht
      have hff : flow = flow' := Prod.ext (hw.place _ _ _ hx hx') (hw.place _ _ _ hy hy')
      exact ⟨e, Set.mem_insert _ _, _, hself, List.mem_map_of_mem hm, hff ▸ hf⟩

theorem cellOf_registered {w : CardWorld lib} {p : Place} {x : lib.Cell} (h : cellOf w p = some x) :
    w.card_metadata_storage.get? p.1 ≠ none := by
  obtain ⟨metadata, hm, -⟩ := Option.bind_eq_some_iff.1 h
  rw [hm]
  exact Option.some_ne_none _

section
variable {w : CardWorld lib} {id : String} {metadata : CardMetadata lib} {heap : lib.Heap}

theorem cellOf_addCard (p : Place) : cellOf ⟨heap, w.card_metadata_storage.set id metadata⟩ p =
    if p.1 = id then metadata.tracking_internal_cells.get? p.2 else cellOf w p := by
  simp only [cellOf, OrdMap.get?_set]
  split <;> rfl

theorem linksAt_addCard (hnone : metadata.connector_links = .empty) (x y : String) :
    linksAt ⟨heap, w.card_metadata_storage.set id metadata⟩ x y = if x = id then none else linksAt w x y := by
  simp only [linksAt, OrdMap.get?_set]
  split
  · rw [Option.bind_some, hnone]
    rfl
  · rfl

theorem Filed.addCard (hw : Filed w) (hid : metadata.id = id) (hnone : metadata.connector_links = .empty) :
    Filed ⟨heap, w.card_metadata_storage.set id metadata⟩ where
  ids id' md h := by
    simp only [OrdMap.get?_set] at h
    split at h
    · rename_i heq
      cases h
      exact hid.trans heq.symm
    · exact hw.ids id' md h
  keyed id' md k links h hk := by
    simp only [OrdMap.get?_set] at h
    split at h
    · cases h
      rw [hnone] at hk
      cases hk
    · exact hw.keyed id' md k links h hk

variable (hl : lib.Lawful) (ha : lib.Allocates w.heap heap metadata.tracking_internal_cells.cells)
include hl ha

/-- Links go on carrying what they carried. -/
theorem Carries.addCard (hfree : w.card_metadata_storage.get? id = none) {l : lib.Cell} {flow : Place × Place}
    (h : Carries w l flow) : Carries ⟨heap, w.card_metadata_storage.set id metadata⟩ l flow := by
  obtain ⟨x, y, hx, hy, hs, ht⟩ := h
  have hold : ∀ p x, cellOf w p = some x → p.1 ≠ id := fun p x hx heq => cellOf_registered hx (heq ▸ hfree)
  refine ⟨x, y, ?_, ?_, (ha.frame.synced x l).2 hs, (ha.frame.target l (hl.synced_known _ _ _ hs).2).trans ht⟩
  · rw [cellOf_addCard, if_neg (hold _ _ hx), hx]
  · rw [cellOf_addCard, if_neg (hold _ _ hy), hy]

variable {E : Set StructuralEdge} (hw : Wired w E)
include hw

omit hl in
/-- A cell of the new card was not known before, a cell of another card was. -/
theorem cellOf_addCard_cases {p : Place} {x : lib.Cell}
    (hx : cellOf ⟨heap, w.card_metadata_storage.set id metadata⟩ p = some x) :
    p.1 = id ∧ metadata.tracking_internal_cells.get? p.2 = some x ∧ ¬ lib.known w.heap x ∨
      cellOf w p = some x ∧ lib.known w.heap x := by
  rw [cellOf_addCard] at hx
  split at hx
  · rename_i hp
    exact .inl ⟨hp, hx, ha.unknown x (tracked_mem hx)⟩
  · exact .inr ⟨hx, hw.known p x hx⟩

/-- No link copies from a cell of the new card, or to one. -/
theorem Carries.of_addCard {l : lib.Cell} {flow : Place × Place}
    (h : Carries ⟨heap, w.card_metadata_storage.set id metadata⟩ l flow) : Carries w l flow := by
  obtain ⟨x, y, hx, hy, hs, ht⟩ := h
  have hs := (ha.frame.synced x l).1 hs
  have hknown := hl.synced_known _ _ _ hs
  rw [ha.frame.target l hknown.2] at ht
  rcases cellOf_addCard_cases ha hw hx with ⟨-, -, hu⟩ | ⟨hx, -⟩
  · exact absurd hknown.1 hu
  rcases cellOf_addCard_cases ha hw hy with ⟨-, -, hu⟩ | ⟨hy, -⟩
  · exact absurd (hl.target_known _ _ _ ht) hu
  exact ⟨x, y, hx, hy, hs, ht⟩

/-- A card comes, on new cells. -/
theorem Wired.addCard (hfree : w.card_metadata_storage.get? id = none) (hid : metadata.id = id)
    (hnone : metadata.connector_links = .empty) : Wired ⟨heap, w.card_metadata_storage.set id metadata⟩ E := by
  have hlinks := @linksAt_addCard lib w id metadata heap hnone
  have hother : ∀ e ∈ E, e.from_id ≠ id ∧ e.to_id ≠ id := by
    intro e he
    obtain ⟨⟨mdA, hA⟩, ⟨mdB, hB⟩⟩ := (hw.linked e he).registered
    constructor
    · rintro rfl
      rw [hfree] at hA
      cases hA
    · rintro rfl
      rw [hfree] at hB
      cases hB
  refine
    { filed := hw.filed.addCard hid hnone
      known := fun p x hx => ?_
      place := fun p q x hx hy => ?_
      source := fun p x x' l hx hs hs' => ?_
      pairs := hw.pairs
      linked := fun e he => ?_
      stored := fun a b links h => ?_
      carried := fun l flow h => ?_ }
  · rcases cellOf_addCard_cases ha hw hx with ⟨-, ht, -⟩ | ⟨-, hk⟩
    · exact ha.known x (tracked_mem ht)
    · exact ha.frame.known x hk
  · rcases cellOf_addCard_cases ha hw hx with ⟨hp, ht, hu⟩ | ⟨hc, hk⟩
    · rcases cellOf_addCard_cases ha hw hy with ⟨hq, ht', -⟩ | ⟨-, hk⟩
      · exact Prod.ext (hp.trans hq.symm) (tracked_key_inj ha.nodup ht ht')
      · exact absurd hk hu
    · rcases cellOf_addCard_cases ha hw hy with ⟨-, -, hu⟩ | ⟨hc', -⟩
      · exact absurd hk hu
      · exact hw.place p q x hc hc'
  · have hs := (ha.frame.synced x l).1 hs
    rcases cellOf_addCard_cases ha hw hx with ⟨-, -, hu⟩ | ⟨hc, -⟩
    · exact absurd (hl.synced_known _ _ _ hs).1 hu
    · exact hw.source p x x' l hc hs ((ha.frame.synced x' l).1 hs')
  · obtain ⟨links, h1, h2, hf⟩ := hw.linked e he
    obtain ⟨hfrom, hto⟩ := hother e he
    exact ⟨links, by rw [hlinks, if_neg hfrom, h1], by rw [hlinks, if_neg hto, h2],
      hf.imp fun l flow h => h.addCard hl ha hfree⟩
  · rw [hlinks] at h
    split at h
    · cases h
    · exact hw.stored a b links h
  · obtain ⟨e, he, links, h1, hm, hf⟩ := hw.carried l flow (h.of_addCard hl ha hw)
    exact ⟨e, he, links, by rw [hlinks, if_neg (hother e he).1, h1], hm, hf⟩

end

/-- A card goes that no connection joins. -/
theorem Wired.dropCard {w w' : CardWorld lib} {E : Set StructuralEdge} (hw : Wired w E) {id : String}
    (halone : ∀ e ∈ E, e.from_id ≠ id ∧ e.to_id ≠ id) (hheap : w'.heap = w.heap)
    (hget : ∀ id', w'.card_metadata_storage.get? id' =
      if id' = id then none else w.card_metadata_storage.get? id') : Wired w' E := by
  have hcell : ∀ p : Place, cellOf w' p = if p.1 = id then none else cellOf w p := by
    intro p
    rw [cellOf, hget]
    split <;> rfl
  have hlinks : ∀ x y, linksAt w' x y = if x = id then none else linksAt w x y := by
    intro x y
    rw [linksAt, hget]
    split <;> rfl
  have hkept : ∀ p x, cellOf w' p = some x → cellOf w p = some x := by
    intro p x hx
    rw [hcell] at hx
    split at hx
    · cases hx
    · exact hx
  have hstored : ∀ id' md, w'.card_metadata_storage.get? id' = some md →
      w.card_metadata_storage.get? id' = some md := by
    intro id' md h
    rw [hget] at h
    split at h
    · cases h
    · exact h
  refine
    { filed := ⟨fun id' md h => hw.filed.ids id' md (hstored id' md h),
        fun id' md k links h => hw.filed.keyed id' md k links (hstored id' md h)⟩
      known := fun p x hx => hheap ▸ hw.known p x (hkept p x hx)
      place := fun p q x hx hy => hw.place p q x (hkept p x hx) (hkept q x hy)
      source := fun p x x' l hx hs hs' => hw.source p x x' l (hkept p x hx) (hheap ▸ hs) (hheap ▸ hs')
      pairs := hw.pairs
      linked := fun e he => ?_
      stored := fun a b links h => ?_
      carried := ?_ }
  · obtain ⟨links, h1, h2, hf⟩ := hw.linked e he
    obtain ⟨hfrom, hto⟩ := halone e he
    refine ⟨links, by rw [hlinks, if_neg hfrom, h1], by rw [hlinks, if_neg hto, h2], ?_⟩
    refine List.forall₂_iff_get.2 ⟨hf.length_eq, fun i hlt hlt' => ?_⟩
    obtain ⟨x, y, hx, hy, hs, ht⟩ := hf.get hlt hlt'
    have hcards := joins_of_flow (List.get_mem (flows e) ⟨i, hlt'⟩)
    have hends : ((flows e).get ⟨i, hlt'⟩).1.1 ≠ id ∧ ((flows e).get ⟨i, hlt'⟩).2.1 ≠ id := by
      rcases hcards with ⟨h, h'⟩ | ⟨h, h'⟩
      · exact ⟨h ▸ hfrom, h' ▸ hto⟩
      · exact ⟨h' ▸ hto, h ▸ hfrom⟩
    exact ⟨x, y, by rw [hcell, if_neg hends.1, hx], by rw [hcell, if_neg hends.2, hy], hheap ▸ hs, hheap ▸ ht⟩
  · rw [hlinks] at h
    split at h
    · cases h
    · exact hw.stored a b links h
  · rintro l flow ⟨x, y, hx, hy, hs, ht⟩
    rw [hheap] at hs ht
    obtain ⟨e, he, links, h1, hm, hf⟩ := hw.carried l flow ⟨x, y, hkept _ x hx, hkept _ y hy, hs, ht⟩
    exact ⟨e, he, links, by rw [hlinks, if_neg (halone e he).1, h1], hm, hf⟩

end LainLang.Grpc
