import LainLang.Grpc.SlotKeys
import LainLang.Grpc.Structure
import Mathlib.Data.Sym.Sym2
/-!
# What a diff lists

A connection is an unordered pair of slots, each on a card. Where no id that is
referred to has a `::` in it, the key of an edge tells its ends apart, so the two
declarations of a connection are filed as one and a diff has one event for each
connection, card and code slot that changed.
-/
open LainLang.Lib LainLang.Js

namespace LainLang.Grpc

/-! ## Connections -/

/-- An edge without its direction. -/
def connection (e : StructuralEdge) : Sym2 (String × String) := s((e.from_id, e.from_slot), (e.to_id, e.to_slot))

/-- The connections the slots of a slot map declare, from either end. -/
def connections (slot_map : CompileRequestData) : Set (Sym2 (String × String)) :=
  { c | ∃ key ref e, slot_map.get? key = some ref ∧ declaredEdge key ref = some e ∧ connection e = c }

/-- The card has an id and a key of its own. -/
def OwnsKey (slot_map : CompileRequestData) (id : String) : Prop :=
  ∃ key ref, slot_map.get? key = some ref ∧ (key_to_card_and_slot key).card_id = id ∧ id.length > 0

/-- A code slot of the next slot map that is new or has another value. -/
def CodeChanged (prev next : CompileRequestData) (key : String) : Prop :=
  (key_to_card_and_slot key).slot = slot_code ∧ ∃ ref, next.get? key = some ref ∧
    ∀ old, prev.get? key = some old → value_signature old.value ≠ value_signature ref.value

/-- No id that a directional slot refers to has a `::` in it or ends in `:`. -/
def CleanReferences (slot_map : CompileRequestData) : Prop :=
  ∀ key ref id, slot_map.get? key = some ref → (key_to_card_and_slot key).slot ∈ directional_slots →
    extract_card_id_ref ref = some id → CleanId id

theorem connection_eq_iff {e e' : StructuralEdge} : connection e = connection e' ↔ e = e' ∨ e = reverseEdge e' := by
  obtain ⟨a, s, b, t⟩ := e
  obtain ⟨a', s', b', t'⟩ := e'
  simp [connection, reverseEdge, and_assoc]

theorem connection_reverse (e : StructuralEdge) : connection (reverseEdge e) = connection e :=
  connection_eq_iff.2 (.inr rfl)

theorem connection_canonical (e : StructuralEdge) : connection (canonical_edge e) = connection e := by
  rcases canonical_edge_cases e with h | h
  · rw [h]
  · rw [h, connection_reverse]

/-! ## Slot keys -/

/-- A directional slot starts with `::` and goes on with letters. -/
theorem directional_toList {slot : String} (h : slot ∈ directional_slots) :
    ∃ letters, slot.toList = ':' :: ':' :: letters := by
  rcases directional_cases h with rfl | rfl | rfl | rfl <;> exact ⟨_, rfl⟩

theorem directional_ne_code {slot : String} (h : slot ∈ directional_slots) : slot ≠ slot_code := by
  rcases directional_cases h with rfl | rfl | rfl | rfl <;> decide

/-- A key with a directional slot is the card id and the slot. -/
theorem parsed_directional {key : String} (h : (key_to_card_and_slot key).slot ∈ directional_slots) :
    CleanId (key_to_card_and_slot key).card_id := by
  unfold key_to_card_and_slot at h ⊢
  split
  · rename_i hcode
    rw [if_pos hcode] at h
    exact absurd h (by simp [directional_slots, slot_left, slot_right, slot_above, slot_below])
  · rename_i hcode
    rw [if_neg hcode] at h
    cases hi : indexOf key "::" with
    | none =>
      rw [hi] at h
      exact absurd h (by simp [directional_slots, slot_left, slot_right, slot_above, slot_below])
    | some i =>
      rw [cleanId_iff]
      simpa [sliceTo] using noColons_take hi

theorem directional_colonSlot {slot : String} (h : slot ∈ directional_slots) : ColonSlot slot := by
  rcases directional_cases h with rfl | rfl | rfl | rfl <;> exact ⟨⟨_, rfl⟩, by decide, by decide⟩

/-- The key of a card and a directional slot is read back. -/
theorem parse_append {id slot : String} (hid : CleanId id) (hslot : slot ∈ directional_slots) :
    key_to_card_and_slot (id ++ slot) = ⟨id, slot⟩ := parse_append_clean (directional_colonSlot hslot) hid

/-! ## Edge keys -/

/-- What is known of the edges of a slot map with clean references. -/
structure CleanEdge (e : StructuralEdge) : Prop where
  from_id : CleanId e.from_id
  to_id : CleanId e.to_id
  from_slot : e.from_slot ∈ directional_slots
  to_slot : inverse_slot e.from_slot = some e.to_slot

theorem inverse_slot_inverse {slot inv : String} (hslot : slot ∈ directional_slots) (h : inverse_slot slot = some inv) :
    inv ∈ directional_slots ∧ inverse_slot inv = some slot ∧ slot ≠ inv := by
  rcases directional_cases hslot with rfl | rfl | rfl | rfl <;> obtain rfl := Option.some.inj h <;> decide

theorem CleanEdge.reverse {e : StructuralEdge} (h : CleanEdge e) : CleanEdge (reverseEdge e) := by
  obtain ⟨hslot, hinv, -⟩ := inverse_slot_inverse h.from_slot h.to_slot
  exact ⟨h.to_id, h.from_id, hslot, hinv⟩

theorem CleanEdge.canonical {e : StructuralEdge} (h : CleanEdge e) : CleanEdge (canonical_edge e) := by
  rcases canonical_edge_cases e with he | he
  · rwa [he]
  · rw [he]
    exact h.reverse

theorem CleanReferences.edge {slot_map : CompileRequestData} (h : CleanReferences slot_map) {key : String}
    {ref : CardRefData} {e : StructuralEdge} (href : slot_map.get? key = some ref)
    (he : declaredEdge key ref = some e) : CleanEdge e := by
  obtain ⟨hid, hslot, hto, hinv, hdir, -⟩ := declaredEdge_some he
  have hdir' := hdir
  rw [hslot] at hdir'
  refine ⟨?_, h key ref _ href hdir' hto, hdir, hinv⟩
  rw [hid]
  exact parsed_directional hdir'

theorem noColons_bar {id : String} (h : CleanId id) : NoColons (id.toList ++ ['|']) := by
  have hid := cleanId_iff.1 h
  revert hid
  induction id.toList with
  | nil => simp [NoColons, indexOfList]
  | cons c cs ih =>
    rw [List.cons_append, noColons_cons, noColons_cons]
    rintro ⟨hcs, hc⟩
    refine ⟨ih hcs, fun hcolon => ?_⟩
    cases cs with
    | nil => simp
    | cons d cs => simpa using (hc hcolon).1

/-- A slot ends where the next bar stands. -/
theorem slot_bar_inj {slot slot' : String} {rest rest' : List Char} (hslot : slot ∈ directional_slots)
    (hslot' : slot' ∈ directional_slots) (h : slot.toList ++ '|' :: rest = slot'.toList ++ '|' :: rest') :
    slot = slot' ∧ rest = rest' := by
  rcases directional_cases hslot with rfl | rfl | rfl | rfl <;>
    rcases directional_cases hslot' with rfl | rfl | rfl | rfl <;>
      simp [slot_left, slot_right, slot_above, slot_below] at h ⊢ <;> exact h

theorem edgeKey_inj {e e' : StructuralEdge} (he : CleanEdge e) (he' : CleanEdge e') (h : edgeKey e = edgeKey e') :
    e = e' := by
  obtain ⟨a, s, b, t⟩ := e
  obtain ⟨a', s', b', t'⟩ := e'
  have hs := he.from_slot
  have hs' := he'.from_slot
  have ht := (inverse_slot_inverse hs he.to_slot).1
  have ht' := (inverse_slot_inverse hs' he'.to_slot).1
  dsimp only at hs hs' ht ht'
  have hlist := congrArg String.toList h
  have hbar : "|".toList = ['|'] := rfl
  simp only [edgeKey, String.toList_append, hbar] at hlist
  obtain ⟨ls, hls⟩ := directional_toList hs
  obtain ⟨ls', hls'⟩ := directional_toList hs'
  obtain ⟨lt, hlt⟩ := directional_toList ht
  obtain ⟨lt', hlt'⟩ := directional_toList ht'
  -- The first id ends in front of the first `::`, the second one in front of the next.
  have hfirst : a.toList ++ ['|'] = a'.toList ++ ['|'] ∧
      s.toList ++ '|' :: (b.toList ++ ['|'] ++ t.toList) = s'.toList ++ '|' :: (b'.toList ++ ['|'] ++ t'.toList) := by
    rw [hls, hls'] at hlist ⊢
    have := @colons_append_inj (a.toList ++ ['|']) (a'.toList ++ ['|']) (ls ++ '|' :: (b.toList ++ ['|'] ++ t.toList))
      (ls' ++ '|' :: (b'.toList ++ ['|'] ++ t'.toList)) (noColons_bar he.from_id) (noColons_bar he'.from_id)
      (by simpa using hlist)
    exact ⟨this.1, by rw [List.cons_append, List.cons_append, this.2]; rfl⟩
  obtain ⟨rfl, hrest⟩ := slot_bar_inj hs hs' hfirst.2
  have hsecond : b.toList ++ ['|'] = b'.toList ++ ['|'] ∧ lt = lt' := by
    rw [hlt, hlt'] at hrest
    exact colons_append_inj (noColons_bar he.to_id) (noColons_bar he'.to_id) hrest
  have ha : a = a' := String.toList_inj.1 (List.append_cancel_right hfirst.1)
  have hb : b = b' := String.toList_inj.1 (List.append_cancel_right hsecond.1)
  have ht : t = t' := by
    rw [← String.toList_inj, hlt, hlt', hsecond.2]
  rw [ha, hb, ht]

/-- The two readings of a connection are filed as one edge. -/
theorem canonical_reverse {e : StructuralEdge} (he : CleanEdge e) : canonical_edge (reverseEdge e) = canonical_edge e := by
  have hne : edgeKey e ≠ edgeKey (reverseEdge e) := by
    intro h
    have hslots : e.from_slot = e.to_slot := congrArg StructuralEdge.from_slot (edgeKey_inj he he.reverse h)
    exact (inverse_slot_inverse he.from_slot he.to_slot).2.2 hslots
  have hback : reverseEdge (reverseEdge e) = e := rfl
  rw [canonical_edge, canonical_edge, hback, stringLe_eq_not hne]
  cases stringLe (edgeKey (reverseEdge e)) (edgeKey e) <;> rfl

theorem canonical_eq_of_connection {e e' : StructuralEdge} (he' : CleanEdge e') (h : connection e = connection e') :
    canonical_edge e = canonical_edge e' := by
  rcases connection_eq_iff.1 h with rfl | rfl
  · rfl
  · exact canonical_reverse he'

theorem canonical_canonical {e : StructuralEdge} (he : CleanEdge e) :
    canonical_edge (canonical_edge e) = canonical_edge e :=
  canonical_eq_of_connection he (connection_canonical e)

/-! ## The edges of a slot map -/

theorem collectStep_has (out : OrdMap String StructuralEdge) (entry : String × CardRefData) (k : String) :
    (collectStep out entry).has k = true ↔
      out.has k = true ∨ ∃ e, declaredEdge entry.1 entry.2 = some e ∧ k = canonical_key e := by
  unfold collectStep
  cases declaredEdge entry.1 entry.2 with
  | none => simp
  | some e => simp [or_comm]

theorem foldl_collectStep_has (entries : List (String × CardRefData)) (out : OrdMap String StructuralEdge) (k : String) :
    (entries.foldl collectStep out).has k = true ↔ out.has k = true ∨
      ∃ entry ∈ entries, ∃ e, declaredEdge entry.1 entry.2 = some e ∧ k = canonical_key e := by
  induction entries generalizing out with
  | nil => simp
  | cons entry entries ih =>
    rw [List.foldl_cons, ih, collectStep_has, or_assoc]
    simp only [List.exists_mem_cons_iff]

theorem collect_edges_has {slot_map : CompileRequestData} {k : String} : (collect_edges slot_map).has k = true ↔
    ∃ key ref e, slot_map.get? key = some ref ∧ declaredEdge key ref = some e ∧ k = canonical_key e := by
  refine (foldl_collectStep_has (objectEntries slot_map) .empty k).trans ?_
  simp [mem_objectEntries]

theorem edgesOf_canonical {slot_map : CompileRequestData} {e : StructuralEdge} (h : e ∈ edgesOf slot_map) :
    ∃ key ref direct, slot_map.get? key = some ref ∧ declaredEdge key ref = some direct ∧ e = canonical_edge direct := by
  obtain ⟨key, ref, direct, href, hd, -, he⟩ := collect_edges_get? (mem_edgesOf.1 h)
  exact ⟨key, ref, direct, href, hd, he⟩

section clean
variable {prev next : CompileRequestData}

/-- The edge of a connection is filed exactly where the connection is declared. -/
theorem has_edgeKey_iff (hprev : CleanReferences prev) {e : StructuralEdge} (he : CleanEdge e)
    (hcanon : canonical_edge e = e) : (collect_edges prev).has (edgeKey e) = true ↔ connection e ∈ connections prev := by
  rw [collect_edges_has]
  constructor
  · rintro ⟨key, ref, direct, href, hd, hkey⟩
    rw [canonical_key_eq] at hkey
    obtain rfl := edgeKey_inj he (hprev.edge href hd).canonical hkey
    exact ⟨key, ref, direct, href, hd, (connection_canonical direct).symm⟩
  · rintro ⟨key, ref, direct, href, hd, hconn⟩
    refine ⟨key, ref, direct, href, hd, ?_⟩
    rw [canonical_key_eq, canonical_eq_of_connection he hconn, hcanon]

/-- The edges that only the first slot map has stand for the connections that
only it declares, one each. -/
theorem onlyIn_connections (hprev : CleanReferences prev) (hnext : CleanReferences next) :
    ((onlyIn (collect_edges prev) (collect_edges next)).map connection).Nodup ∧
      ∀ c, c ∈ (onlyIn (collect_edges prev) (collect_edges next)).map connection ↔
        c ∈ connections prev ∧ c ∉ connections next := by
  have hclean : ∀ e ∈ edgesOf prev, CleanEdge e ∧ canonical_edge e = e ∧ connection e ∈ connections prev := by
    intro e he
    obtain ⟨key, ref, direct, href, hd, rfl⟩ := edgesOf_canonical he
    have hdirect := hprev.edge href hd
    exact ⟨hdirect.canonical, canonical_canonical hdirect, key, ref, direct, href, hd, (connection_canonical direct).symm⟩
  have habsent : ∀ e ∈ edgesOf prev, (collect_edges next).get? (edgeKey e) = none ↔ connection e ∉ connections next := by
    intro e he
    obtain ⟨hce, hcanon, -⟩ := hclean e he
    rw [← has_edgeKey_iff hnext hce hcanon, ← OrdMap.has_eq_false, Bool.not_eq_true]
  constructor
  · -- Collected edges are canonical, so one connection is collected once.
    refine List.Nodup.map_on (fun e he e' he' h => ?_) (onlyIn_nodup prev _)
    obtain ⟨hce, hcanon, -⟩ := hclean e (mem_onlyIn.1 he).1
    obtain ⟨hce', hcanon', -⟩ := hclean e' (mem_onlyIn.1 he').1
    rw [← hcanon, canonical_eq_of_connection hce' h, hcanon']
  · intro c
    rw [List.mem_map]
    constructor
    · rintro ⟨e, he, rfl⟩
      obtain ⟨hmem, hnone⟩ := mem_onlyIn.1 he
      exact ⟨(hclean e hmem).2.2, (habsent e hmem).1 hnone⟩
    · rintro ⟨⟨key, ref, direct, href, hd, rfl⟩, hno⟩
      have hdirect := hprev.edge href hd
      have hmem : canonical_edge direct ∈ edgesOf prev := by
        have hhas : (collect_edges prev).has (edgeKey (canonical_edge direct)) = true := by
          rw [has_edgeKey_iff hprev hdirect.canonical (canonical_canonical hdirect), connection_canonical]
          exact ⟨key, ref, direct, href, hd, rfl⟩
        obtain ⟨e, he⟩ := (OrdMap.has_iff ..).1 hhas
        have hemem : e ∈ edgesOf prev := (OrdMap.mem_values_iff ..).2 ⟨_, he⟩
        rwa [edgeKey_inj hdirect.canonical (hclean e hemem).1 (key_of_collected he)]
      refine ⟨canonical_edge direct, mem_onlyIn.2 ⟨hmem, (habsent _ hmem).2 ?_⟩, connection_canonical direct⟩
      rwa [connection_canonical]

end clean

/-! ## The whole diff -/

/-- Each thing with the property is listed once, and nothing else is. -/
def Once {α : Type} (l : List α) (P : α → Prop) : Prop := l.Nodup ∧ ∀ x, x ∈ l ↔ P x

theorem Once.eq_nil {α : Type} {l : List α} {P : α → Prop} (h : Once l P) (hno : ∀ x, ¬ P x) : l = [] :=
  List.eq_nil_iff_forall_not_mem.2 fun x hx => hno x ((h.2 x).1 hx)

/-- The event for an edge that is gone. -/
def detachEvent (e : StructuralEdge) : CardApiEvent := .card_detach e.from_id e.to_id

/-- The event for an edge that is new. -/
def connectEvent (e : StructuralEdge) : CardApiEvent := .card_connect e.from_id e.from_slot e.to_id e.to_slot

/-- The event for a code slot that changed. -/
def updateEvent (next : CompileRequestData) (key : String) : CardApiEvent :=
  .card_update (key_to_card_and_slot key).card_id ((next.get? key).bind (·.value))

/-- The events of a diff, phase by phase, and what each phase lists: connections,
cards, and keys of code slots. -/
structure ExactEvents (prev next : CompileRequestData) (events : List CardApiEvent) (detached : List StructuralEdge)
    (removed added : List String) (connected : List StructuralEdge) (updated : List String) : Prop where
  events_eq : events = detached.map detachEvent ++ removed.map .card_remove ++ added.map .card_add ++
    connected.map connectEvent ++ updated.map (updateEvent next)
  detached_once : Once (detached.map connection) fun c => c ∈ connections prev ∧ c ∉ connections next
  removed_once : Once removed fun id => OwnsKey prev id ∧ ¬ OwnsKey next id
  added_once : Once added fun id => OwnsKey next id ∧ ¬ OwnsKey prev id
  connected_once : Once (connected.map connection) fun c => c ∈ connections next ∧ c ∉ connections prev
  updated_once : Once updated (CodeChanged prev next)

/-- The diff is the five groups, each exact. -/
def ExactDiff (prev next : CompileRequestData) : Prop :=
  ∃ detached removed added connected updated,
    ExactEvents prev next (diff_slot_maps_to_card_api_events prev next) detached removed added connected updated

/-- Nothing to list, no events. -/
theorem ExactDiff.eq_nil {prev next : CompileRequestData} (h : ExactDiff prev next)
    (hconn : ∀ c, c ∈ connections prev ↔ c ∈ connections next) (howns : ∀ id, OwnsKey prev id ↔ OwnsKey next id)
    (hcode : ∀ key, ¬ CodeChanged prev next key) : diff_slot_maps_to_card_api_events prev next = [] := by
  obtain ⟨detached, removed, added, connected, updated, h⟩ := h
  have hdetached := h.detached_once.eq_nil fun c hc => hc.2 ((hconn c).1 hc.1)
  have hremoved := h.removed_once.eq_nil fun id hid => hid.2 ((howns id).1 hid.1)
  have hadded := h.added_once.eq_nil fun id hid => hid.2 ((howns id).2 hid.1)
  have hconnected := h.connected_once.eq_nil fun c hc => hc.2 ((hconn c).2 hc.1)
  have hupdated := h.updated_once.eq_nil hcode
  rw [List.map_eq_nil_iff] at hdetached hconnected
  rw [h.events_eq, hdetached, hremoved, hadded, hconnected, hupdated]
  rfl

section diff
variable {prev next : CompileRequestData}

theorem removed_once (prev next : CompileRequestData) :
    Once ((collect_card_ids prev).filter fun id => id ∉ collect_card_ids next)
      fun id => OwnsKey prev id ∧ ¬ OwnsKey next id := by
  refine ⟨(collect_card_ids_nodup prev).filter _, fun id => ?_⟩
  rw [List.mem_filter, decide_eq_true_eq, mem_collect_card_ids, mem_collect_card_ids]
  rfl

theorem added_once (prev next : CompileRequestData) :
    Once (sortStrings ((collect_card_ids next).filter fun id => id ∉ collect_card_ids prev))
      fun id => OwnsKey next id ∧ ¬ OwnsKey prev id := by
  obtain ⟨hnodup, hmem⟩ := removed_once next prev
  exact ⟨(sortStrings_perm _).nodup_iff.2 hnodup, fun id => (mem_sortStrings ..).trans (hmem id)⟩

/-- Whether the loop of `sync_code_slots` has an event for the entry. -/
def codeChanged (prev : CompileRequestData) (entry : String × CardRefData) : Bool :=
  decide ((key_to_card_and_slot entry.1).slot = slot_code) &&
    (prev.get? entry.1).all fun old => decide (value_signature old.value ≠ value_signature entry.2.value)

theorem codeChanged_iff {key : String} {ref : CardRefData} (href : next.get? key = some ref) :
    codeChanged prev (key, ref) = true ↔ CodeChanged prev next key := by
  simp only [codeChanged, CodeChanged, href, Bool.and_eq_true, decide_eq_true_eq, Option.some.injEq, exists_eq_left']
  refine and_congr_right fun _ => ?_
  cases prev.get? key with
  | none => simp
  | some old => simp

theorem sync_code_slots_eq (prev next : CompileRequestData) : sync_code_slots prev next =
    (((objectEntries next).filter (codeChanged prev)).map Prod.fst).map (updateEvent next) := by
  have hfilter : ∀ {α β : Type} (p : α → Bool) (g : α → β) (l : List α),
      l.filterMap (fun x => if p x then some (g x) else none) = (l.filter p).map g := by
    intro α β p g l
    induction l with
    | nil => rfl
    | cons x l ih => cases hp : p x <;> simp [hp, ih]
  rw [List.map_map, ← hfilter, sync_code_slots]
  refine List.filterMap_congr fun entry hentry => ?_
  obtain ⟨key, ref⟩ := entry
  have hvalue : ((next.get? key).bind (·.value)) = ref.value := by
    rw [(mem_objectEntries ..).1 hentry, Option.bind_some]
  simp only [codeChanged, Function.comp_apply, updateEvent, hvalue]
  by_cases hslot : (key_to_card_and_slot key).slot = slot_code
  · cases hold : prev.get? key with
    | none => simp [hslot]
    | some old => by_cases hsig : value_signature old.value = value_signature ref.value <;> simp [hslot, hsig]
  · simp [hslot]

theorem updated_once (prev next : CompileRequestData) :
    Once (((objectEntries next).filter (codeChanged prev)).map Prod.fst) (CodeChanged prev next) := by
  constructor
  · -- The entries of a slot map have different keys.
    have hkeys : ((objectEntries next).map Prod.fst).Nodup :=
      ((objectEntries_perm next).map Prod.fst).nodup_iff.2 next.nodup
    exact hkeys.sublist (List.filter_sublist.map _)
  · intro key
    simp only [List.mem_map, List.mem_filter, Prod.exists, exists_and_right, exists_eq_right, mem_objectEntries]
    constructor
    · rintro ⟨ref, href, hchanged⟩
      exact (codeChanged_iff href).1 hchanged
    · intro h
      obtain ⟨-, ref, href, -⟩ := id h
      exact ⟨ref, href, (codeChanged_iff href).2 h⟩

theorem exact_diff (hprev : CleanReferences prev) (hnext : CleanReferences next) : ExactDiff prev next :=
  ⟨_, _, _, _, _, {
    events_eq := by
      rw [diff_slot_maps_to_card_api_events, detachEvents_eq, connectEvents_eq, sync_code_slots_eq]
      rfl
    detached_once := onlyIn_connections hprev hnext
    removed_once := removed_once prev next
    added_once := added_once prev next
    connected_once := onlyIn_connections hnext hprev
    updated_once := updated_once prev next }⟩

/-- What was declared before is no change. -/
theorem diff_self (hprev : CleanReferences prev) : diff_slot_maps_to_card_api_events prev prev = [] := by
  refine (exact_diff hprev hprev).eq_nil (fun _ => Iff.rfl) (fun _ => Iff.rfl) ?_
  rintro key ⟨-, ref, href, hchanged⟩
  exact hchanged ref href rfl

/-- `ref'` at the slot opposite to a connection declares it from the other end. -/
theorem declaredEdge_reciprocal {e : StructuralEdge} (he : CleanEdge e) {ref' : CardRefData}
    (href' : extract_card_id_ref ref' = some e.from_id) (hid : e.from_id.length > 0) :
    declaredEdge (e.to_id ++ e.to_slot) ref' = some (reverseEdge e) := by
  obtain ⟨hslot, hinv, -⟩ := inverse_slot_inverse he.from_slot he.to_slot
  rw [declaredEdge, parse_append he.to_id hslot]
  simp only [href', hslot, not_true_eq_false, if_false, hinv, Option.map_some]
  rw [if_neg (by omega)]
  rfl

/-- A new value that refers to a clean id. -/
theorem CleanReferences.set (hprev : CleanReferences prev) (key : String) {ref : CardRefData} {id : String}
    (href : extract_card_id_ref ref = some id) (hid : CleanId id) : CleanReferences (prev.set key ref) := by
  intro key' ref' id' hget hdir hid'
  rw [OrdMap.get?_set] at hget
  split at hget
  · obtain rfl := Option.some.inj hget
    obtain rfl := Option.some.inj (href.symm.trans hid')
    exact hid
  · exact hprev key' ref' id' hget hdir hid'

/-- A slot that declares a connection from the other end, and declared no other one. -/
theorem connections_set {key mirror : String} {ref ref' : CardRefData} {e : StructuralEdge} (href : prev.get? key = some ref)
    (he : declaredEdge key ref = some e) (hdeclared : declaredEdge mirror ref' = some (reverseEdge e))
    (hfree : ∀ old e', prev.get? mirror = some old → declaredEdge mirror old = some e' → e' = reverseEdge e)
    (c : Sym2 (String × String)) : c ∈ connections prev ↔ c ∈ connections (prev.set mirror ref') := by
  constructor
  · rintro ⟨key', ref'', e', hget, he', rfl⟩
    by_cases hkey : key' = mirror
    · subst hkey
      exact ⟨_, ref', _, by simp, hdeclared, by rw [hfree ref'' e' hget he']⟩
    · exact ⟨key', ref'', e', by simp [hkey, hget], he', rfl⟩
  · rintro ⟨key', ref'', e', hget, he', rfl⟩
    rw [OrdMap.get?_set] at hget
    split at hget
    · rename_i hkey
      subst hkey
      obtain rfl := Option.some.inj hget
      obtain rfl := Option.some.inj (hdeclared.symm.trans he')
      exact ⟨key, ref, e, href, he, (connection_reverse e).symm⟩
    · exact ⟨key', ref'', e', hget, he', rfl⟩

/-- A key of a card that has one already. -/
theorem ownsKey_set {key : String} (ref : CardRefData) (howns : OwnsKey prev (key_to_card_and_slot key).card_id) (id : String) :
    OwnsKey prev id ↔ OwnsKey (prev.set key ref) id := by
  constructor
  · rintro ⟨key', ref', hget, hid⟩
    by_cases hkey : key' = key
    · exact ⟨key', ref, by simp [hkey], hid⟩
    · exact ⟨key', ref', by simp [hkey, hget], hid⟩
  · rintro ⟨key', ref', hget, rfl, hlen⟩
    rw [OrdMap.get?_set] at hget
    split at hget
    · rename_i hkey
      subst hkey
      exact howns
    · exact ⟨key', ref', hget, rfl, hlen⟩

/-- Declaring a connection from the other end too is no change, if the slot there
did not declare another one. -/
theorem diff_reciprocal (hprev : CleanReferences prev) {key : String} {ref ref' : CardRefData} {e : StructuralEdge}
    (href : prev.get? key = some ref) (he : declaredEdge key ref = some e) (hfrom : OwnsKey prev e.from_id)
    (hto : OwnsKey prev e.to_id)
    (hfree : ∀ old e', prev.get? (e.to_id ++ e.to_slot) = some old →
      declaredEdge (e.to_id ++ e.to_slot) old = some e' → e' = reverseEdge e)
    (href' : extract_card_id_ref ref' = some e.from_id) :
    diff_slot_maps_to_card_api_events prev (prev.set (e.to_id ++ e.to_slot) ref') = [] := by
  have hedge := hprev.edge href he
  have hslot := (inverse_slot_inverse hedge.from_slot hedge.to_slot).1
  have hparse := parse_append hedge.to_id hslot
  obtain ⟨-, -, -, -, hlen⟩ := id hfrom
  have hdeclared := declaredEdge_reciprocal hedge href' hlen
  refine (exact_diff hprev (hprev.set _ href' hedge.from_id)).eq_nil (connections_set href he hdeclared hfree)
    (ownsKey_set ref' (by rwa [hparse])) ?_
  rintro key' ⟨hcode, ref'', hget, hchanged⟩
  rw [OrdMap.get?_set] at hget
  split at hget
  · rename_i hkey
    subst hkey
    rw [hparse] at hcode
    exact directional_ne_code hslot hcode
  · exact hchanged ref'' hget rfl

/-- A diff lists the detaches, removes, adds, connects and updates, one for each
connection, card and code slot that changed. So a slot map against itself lists
nothing, and nor does one against itself with a connection declared from the
other end too. -/
theorem diff_exact (prev next : CompileRequestData) (hprev : CleanReferences prev) (hnext : CleanReferences next) :
    ExactDiff prev next ∧ diff_slot_maps_to_card_api_events prev prev = [] ∧
      ∀ key ref e ref', prev.get? key = some ref → declaredEdge key ref = some e →
        OwnsKey prev e.from_id → OwnsKey prev e.to_id →
        (∀ old e', prev.get? (e.to_id ++ e.to_slot) = some old →
          declaredEdge (e.to_id ++ e.to_slot) old = some e' → e' = reverseEdge e) →
        extract_card_id_ref ref' = some e.from_id →
        diff_slot_maps_to_card_api_events prev (prev.set (e.to_id ++ e.to_slot) ref') = [] :=
  ⟨exact_diff hprev hnext, diff_self hprev, fun _ _ _ _ href he hfrom hto hfree href' =>
    diff_reciprocal hprev href he hfrom hto hfree href'⟩

end diff

/-- `a` has `b` to its right, and `b` has code. -/
def neighbours : CompileRequestData := (OrdMap.empty.set "a::right" ⟨"b", none⟩).set "bcode" ⟨"b", none⟩

/-- `c` has come between them. -/
def neighbourBetween : CompileRequestData :=
  ((OrdMap.empty.set "a::right" ⟨"c", none⟩).set "b::left" ⟨"c", none⟩).set "bcode" ⟨"b", none⟩

/-- It is enough that what the entries refer to is clean. -/
theorem cleanReferences_of_entries {slot_map : CompileRequestData}
    (h : ∀ entry ∈ slot_map.entries, ∀ id ∈ extract_card_id_ref entry.2, CleanId id) : CleanReferences slot_map :=
  fun key ref id href _ hid => h (key, ref) ((OrdMap.mem_entries_iff ..).2 href) id hid

theorem diff_exact_neighbours : ExactDiff neighbours neighbourBetween ∧
    diff_slot_maps_to_card_api_events neighbours neighbours = [] ∧
      ∀ key ref e ref', neighbours.get? key = some ref → declaredEdge key ref = some e →
        OwnsKey neighbours e.from_id → OwnsKey neighbours e.to_id →
        (∀ old e', neighbours.get? (e.to_id ++ e.to_slot) = some old →
          declaredEdge (e.to_id ++ e.to_slot) old = some e' → e' = reverseEdge e) →
        extract_card_id_ref ref' = some e.from_id →
        diff_slot_maps_to_card_api_events neighbours (neighbours.set (e.to_id ++ e.to_slot) ref') = [] :=
  diff_exact neighbours neighbourBetween
    (cleanReferences_of_entries (by unfold CleanId; decide)) (cleanReferences_of_entries (by unfold CleanId; decide))

end LainLang.Grpc
