import LainLang.Serialize.RoundTrip
/-!
# Records keyed by names

A map and a better set are stored as one record: the tag under `type`, and next
to it one field per entry, named by its key. An entry named `type` overwrites
the tag, and one named `__proto__` is no field at all; any other name comes back.
-/
open LainLang.Lib LainLang.Js

namespace LainLang.Serialize

variable {rt : Runtime}

/-! ## Entries one by one -/

/-- What `map_schema` writes for a value. -/
def encode_entry (rt : Runtime) : Value → Option Record
  | .cell id => some (encode_cell_reference rt id)
  | v => gun_db_schema_encode rt v

theorem encode_entry_of_not_cell {v : Value} (h : v.is_cell = false) :
    encode_entry rt v = gun_db_schema_encode rt v := by
  cases v with
  | cell id => cases h
  | _ => rfl

/-- Two lists of entries with the same keys, and values that `R` relates. -/
def Entrywise {K A B : Type} (R : A → B → Prop) (es : List (K × A)) (fs : List (K × B)) : Prop :=
  List.Forall₂ (fun e f => f.1 = e.1 ∧ R e.2 f.2) es fs

theorem Entrywise.keys_eq {K A B : Type} {R : A → B → Prop} {es : List (K × A)} {fs : List (K × B)}
    (h : Entrywise R es fs) : fs.map Prod.fst = es.map Prod.fst := by
  induction h with
  | nil => rfl
  | cons h _ ih => simp [h.1, ih]

theorem Entrywise.right {K A B : Type} {R : A → B → Prop} {es : List (K × A)} {fs : List (K × B)}
    (h : Entrywise R es fs) {key : K} {a : A} (ha : (key, a) ∈ es) : ∃ b, (key, b) ∈ fs ∧ R a b := by
  induction h with
  | nil => simp at ha
  | @cons e f es fs hef _ ih =>
    rcases List.mem_cons.1 ha with rfl | ha
    · obtain ⟨key', b⟩ := f
      obtain ⟨rfl, hR⟩ := hef
      exact ⟨b, by simp, hR⟩
    · obtain ⟨b, hb, hR⟩ := ih ha
      exact ⟨b, List.mem_cons_of_mem _ hb, hR⟩

theorem Entrywise.left {K A B : Type} {R : A → B → Prop} {es : List (K × A)} {fs : List (K × B)}
    (h : Entrywise R es fs) {key : K} {b : B} (hb : (key, b) ∈ fs) : ∃ a, (key, a) ∈ es ∧ R a b := by
  induction h with
  | nil => simp at hb
  | @cons e f es fs hef _ ih =>
    rcases List.mem_cons.1 hb with rfl | hb
    · obtain ⟨key', a⟩ := e
      obtain ⟨rfl, hR⟩ := hef
      exact ⟨a, by simp, hR⟩
    · obtain ⟨a, ha, hR⟩ := ih hb
      exact ⟨a, List.mem_cons_of_mem _ ha, hR⟩

theorem entrywise_exists {K A B : Type} {R : A → B → Prop} {es : List (K × A)}
    (h : ∀ e ∈ es, ∃ b, R e.2 b) : ∃ fs, Entrywise R es fs := by
  induction es with
  | nil => exact ⟨[], .nil⟩
  | cons e es ih =>
    obtain ⟨b, hb⟩ := h e (by simp)
    obtain ⟨fs, hfs⟩ := ih (fun e he => h e (by simp [he]))
    exact ⟨(e.1, b) :: fs, .cons ⟨rfl, hb⟩ hfs⟩

theorem map_schema_cons (e : String × Value) (es : List (String × Value)) :
    map_schema rt (e :: es) =
      (encode_entry rt e.2).bind fun r => (map_schema rt es).map ((e.1, r) :: ·) := by
  obtain ⟨key, v⟩ := e
  cases v <;> simp [map_schema, encode_entry]

theorem map_schema_iff {es : List (String × Value)} {fs : List (String × Record)} :
    map_schema rt es = some fs ↔
      Entrywise (fun v r => encode_entry rt v = some r) es fs := by
  induction es generalizing fs with
  | nil => simp [map_schema, Entrywise, eq_comm]
  | cons e es ih =>
    rw [map_schema_cons]
    constructor
    · intro h
      obtain ⟨r, hr, h⟩ := Option.bind_eq_some_iff.1 h
      obtain ⟨fs', hfs', rfl⟩ := Option.map_eq_some_iff.1 h
      exact .cons ⟨rfl, hr⟩ (ih.1 hfs')
    · intro h
      cases h with
      | @cons _ f _ fs' he hes =>
        obtain ⟨key, r⟩ := f
        obtain ⟨rfl, hr⟩ := he
        simp [hr, ih.2 hes]

theorem map_schema_decode_iff {fs : List (String × Record)} {ds : List (String × Value)}
    (htype : "type" ∉ fs.map Prod.fst) :
    map_schema_decode rt fs = some ds ↔
      Entrywise (fun r v => gun_db_schema_decode rt r = some v) fs ds := by
  induction fs generalizing ds with
  | nil => simp [map_schema_decode, Entrywise, eq_comm]
  | cons f fs ih =>
    obtain ⟨key, r⟩ := f
    simp only [List.map_cons, List.mem_cons, not_or] at htype
    simp only [map_schema_decode, if_neg (Ne.symm htype.1)]
    constructor
    · intro h
      obtain ⟨v, hv, h⟩ := Option.bind_eq_some_iff.1 h
      obtain ⟨ds', hds', rfl⟩ := Option.map_eq_some_iff.1 h
      exact .cons ⟨rfl, hv⟩ ((ih htype.2).1 hds')
    · intro h
      cases h with
      | @cons _ d _ ds' he hes =>
        obtain ⟨key', v⟩ := d
        obtain ⟨rfl, hv⟩ := he
        simp [hv, (ih htype.2).2 hes]

/-! ## Writing entries next to a tag -/

theorem property_assign (fs : List (String × Record)) (key key' : String) (r : Record)
    (hproto : key ≠ "__proto__") :
    property (assign fs key r) key' = if key' = key then some r else property fs key' := by
  rw [assign, if_neg hproto]
  exact OrdMap.find?_setEntries key key' r fs

theorem property_assignEntries_of_notMem {fs es : List (String × Record)} {key : String}
    (h : key ∉ es.map Prod.fst) : property (assignEntries fs es) key = property fs key := by
  induction es generalizing fs with
  | nil => rfl
  | cons e es ih =>
    simp only [List.map_cons, List.mem_cons, not_or] at h
    rw [assignEntries, List.foldl_cons]
    refine (ih h.2).trans ?_
    by_cases hproto : e.1 = "__proto__"
    · rw [assign, if_pos hproto]
    · rw [property_assign fs _ _ _ hproto, if_neg h.1]

/-- A field written under a name of its own is read under it. -/
theorem property_assignEntries {fs es : List (String × Record)} (hn : (es.map Prod.fst).Nodup)
    {key : String} {r : Record} (h : (key, r) ∈ es) (hproto : key ≠ "__proto__") :
    property (assignEntries fs es) key = some r := by
  induction es generalizing fs with
  | nil => simp at h
  | cons e es ih =>
    simp only [List.map_cons, List.nodup_cons] at hn
    rw [assignEntries, List.foldl_cons]
    rcases List.mem_cons.1 h with rfl | h
    · refine (property_assignEntries_of_notMem hn.1).trans ?_
      simp [property_assign fs _ _ _ hproto]
    · exact ih hn.2 h

/-- Entries of new names follow the fields that are there. -/
theorem assignEntries_eq {fs es : List (String × Record)} (hn : (es.map Prod.fst).Nodup)
    (hnew : ∀ key ∈ es.map Prod.fst, key ∉ fs.map Prod.fst) :
    assignEntries fs es = fs ++ es.filter (fun e => e.1 ≠ "__proto__") := by
  induction es generalizing fs with
  | nil => simp [assignEntries]
  | cons e es ih =>
    simp only [List.map_cons, List.nodup_cons] at hn
    rw [assignEntries, List.foldl_cons]
    by_cases hproto : e.1 = "__proto__"
    · rw [assign, if_pos hproto]
      refine (ih hn.2 (fun key hkey => hnew key (by simp [List.mem_map.1 hkey]))).trans ?_
      simp [hproto]
    · rw [assign, if_neg hproto, OrdMap.setEntries_of_notMem (hnew e.1 (by simp))]
      refine (ih hn.2 ?_).trans ?_
      · intro key hkey
        simp only [List.map_append, List.map_cons, List.map_nil, List.mem_append, List.mem_singleton, not_or]
        refine ⟨hnew key (List.mem_cons_of_mem _ hkey), ?_⟩
        rintro rfl
        exact hn.1 hkey
      · simp [hproto]

/-! ## Reading them back -/

theorem decode_untagged {fields : List (String × Record)}
    (h : ∀ s, property fields "type" ≠ some (.str s)) :
    gun_db_schema_decode rt (.obj fields) = some (plain_value_schema_decode fields) := by
  simp only [gun_db_schema_decode]
  split
  all_goals first | rfl | (rename_i htype; exact absurd htype (h _))

theorem encode_entry_not_str {json : Bool} {v : Value} {r : Record} (h : encode_entry rt v = some r) (s : String) :
    stored json r ≠ .str s := by
  intro hs
  cases v <;> simp only [encode_entry, gun_db_schema_encode, plain_value_schema_encode, encode_cell_reference,
    make_reference, Option.some.injEq, Option.map_eq_some_iff, Option.bind_eq_some_iff] at h
  case element =>
    obtain ⟨r', -, rfl⟩ := h
    simp [element_schema] at hs
  case map =>
    obtain ⟨es, -, rfl⟩ := h
    simp at hs
  case set =>
    obtain ⟨es, -, rfl⟩ := h
    simp at hs
  case layered =>
    obtain ⟨b, -, es, -, rfl⟩ := h
    simp [stringify] at hs
  case closure =>
    obtain ⟨e, -, n, -, is, -, os, -, b, -, rfl⟩ := h
    simp [stringify] at hs
  all_goals
    subst h
    simp at hs

/-- A plain value is no map and no better set. -/
theorem plain_not_keyed (fields : List (String × Record)) :
    (∀ es, plain_value_schema_decode fields ≠ .map es) ∧ ∀ ms, plain_value_schema_decode fields ≠ .set ms := by
  unfold plain_value_schema_decode
  cases property fields "value" with
  | none => simp [the_nothing]
  | some r => cases r <;> simp [self_evaluating, the_nothing]

/-- `v` is written as an entry of a record, stored, and decoded to `d`. -/
def Restores (rt : Runtime) (json : Bool) (v d : Value) : Prop :=
  ∃ r, encode_entry rt v = some r ∧ gun_db_schema_decode rt (stored json r) = some d

/-- The record of a map or a better set: the tag, then its entries. -/
def tagged (tag : String) (fs : List (String × Record)) : Record := .obj (assignEntries [("type", .str tag)] fs)

/-- The entry named `type` overwrites the tag. -/
theorem decode_tagged_type {json : Bool} {tag : String} {es : List (String × Value)} {fs : List (String × Record)}
    (hn : (es.map Prod.fst).Nodup) (hes : map_schema rt es = some fs) (htype : "type" ∈ es.map Prod.fst) :
    ∃ fields, gun_db_schema_decode rt (stored json (tagged tag fs)) = some (plain_value_schema_decode fields) := by
  have hall := map_schema_iff.1 hes
  obtain ⟨⟨key, v⟩, hv, hkey⟩ := List.mem_map.1 htype
  simp only at hkey
  subst hkey
  obtain ⟨r, hr, henc⟩ := hall.right hv
  have hprop : property (assignEntries [("type", .str tag)] fs) "type" = some r := by
    apply property_assignEntries _ hr (by decide)
    rw [hall.keys_eq]
    exact hn
  refine ⟨_, (congrArg _ (stored_obj json _)).trans (decode_untagged ?_)⟩
  intro s hs
  have hstored : ∀ gs : List (String × Record), property (gs.map (fun f => (f.1, stored json f.2))) "type" =
      (property gs "type").map (stored json) := by
    intro gs
    simp only [property, List.find?_map, Option.map_map]
    rfl
  rw [hstored, hprop] at hs
  exact encode_entry_not_str henc s (Option.some.inj hs)

/-- Decoding the stored entries, but the one that is no field, decodes the values
they were written for. -/
theorem entrywise_restores {json : Bool} {es : List (String × Value)} {fs : List (String × Record)}
    (h : Entrywise (fun v r => encode_entry rt v = some r) es fs) {ds : List (String × Value)} :
    Entrywise (fun r v => gun_db_schema_decode rt r = some v)
        ((fs.filter (fun f => f.1 ≠ "__proto__")).map (fun f => (f.1, stored json f.2))) ds ↔
      Entrywise (Restores rt json) (es.filter (fun e => e.1 ≠ "__proto__")) ds := by
  induction h generalizing ds with
  | nil => simp [Entrywise]
  | @cons e f es fs hef _ ih =>
    obtain ⟨key, v⟩ := e
    obtain ⟨key', r⟩ := f
    obtain ⟨rfl, hr⟩ := hef
    by_cases hproto : key' = "__proto__"
    · simpa [hproto] using ih
    · simp only [hproto, ne_eq, not_false_eq_true, decide_true, List.filter_cons_of_pos, List.map_cons]
      constructor
      · intro h
        cases h with
        | cons hd hds => exact .cons ⟨hd.1, r, hr, hd.2⟩ (ih.1 hds)
      · intro h
        cases h with
        | cons hd hds =>
          obtain ⟨hkey, r', hr', hd⟩ := hd
          cases hr.symm.trans hr'
          exact .cons ⟨hkey, hd⟩ (ih.2 hds)

/-- Without an entry named `type`, what is read back is every entry but the one
named `__proto__`. -/
theorem stored_tagged (json : Bool) (tag : String) {es : List (String × Value)} {fs : List (String × Record)}
    (hn : (es.map Prod.fst).Nodup) (hes : map_schema rt es = some fs) (htype : "type" ∉ es.map Prod.fst) :
    ∃ gs, stored json (tagged tag fs) = .obj (("type", .str tag) :: gs) ∧ ∀ ds,
      map_schema_decode rt (("type", .str tag) :: gs) = some ds ↔
        Entrywise (Restores rt json) (es.filter (fun e => e.1 ≠ "__proto__")) ds := by
  have hall := map_schema_iff.1 hes
  have hkeys := hall.keys_eq
  have heq : assignEntries [("type", .str tag)] fs = [("type", .str tag)] ++ fs.filter (fun f => f.1 ≠ "__proto__") := by
    apply assignEntries_eq
    · rw [hkeys]
      exact hn
    · rw [hkeys]
      intro key hkey hmem
      rw [List.mem_singleton.1 hmem] at hkey
      exact htype hkey
  refine ⟨(fs.filter (fun f => f.1 ≠ "__proto__")).map (fun f => (f.1, stored json f.2)), ?_, ?_⟩
  · rw [tagged, heq]
    simp
  · intro ds
    rw [← entrywise_restores hall, ← map_schema_decode_iff]
    · simp [map_schema_decode]
    · -- no entry is named like the tag
      rw [← hkeys] at htype
      rw [List.map_map]
      intro hmem
      obtain ⟨f, hf, hkey⟩ := List.mem_map.1 hmem
      exact htype (List.mem_map.2 ⟨f, (List.mem_filter.1 hf).1, hkey⟩)

/-! ## Maps -/

theorem restores_cell (json : Bool) (id : String) (d : Value) : Restores rt json (.cell id) d ↔ d = .cell id := by
  constructor
  · rintro ⟨r, hr, hd⟩
    simp only [encode_entry, Option.some.injEq] at hr
    subst hr
    simpa [encode_cell_reference, make_reference, gun_db_schema_decode, property, string_property, eq_comm] using hd
  · rintro rfl
    refine ⟨encode_cell_reference rt id, rfl, ?_⟩
    simp [encode_cell_reference, make_reference, gun_db_schema_decode, property, string_property]

/-- An entry comes back: a cell as a reference to it, any other value as itself. -/
def EntryRoundTrips (rt : Runtime) (json : Bool) (v : Value) : Prop := ∃ d, Restores rt json v d ∧ Same v d

theorem entry_round_trips_cell (json : Bool) (id : String) : EntryRoundTrips rt json (.cell id) :=
  ⟨.cell id, (restores_cell json id _).2 rfl, .refl _⟩

theorem entry_round_trips_iff {json : Bool} {v : Value} (h : v.is_cell = false) :
    EntryRoundTrips rt json v ↔ RoundTrips rt json v := by
  simp only [EntryRoundTrips, Restores, RoundTrips, encode_entry_of_not_cell h]
  constructor
  · rintro ⟨d, ⟨r, hr, hd⟩, hs⟩
    exact ⟨r, d, hr, hd, hs⟩
  · rintro ⟨r, d, hr, hd, hs⟩
    exact ⟨d, ⟨r, hr, hd⟩, hs⟩

theorem propertyOrder_keys {V : Type} (es : List (String × V)) :
    ((propertyOrder es).map Prod.fst).Perm (es.map Prod.fst) := (propertyOrder_perm es).map _

theorem encode_map_iff {es : List (String × Value)} {r : Record} :
    gun_db_schema_encode rt (.map es) = some r ↔ ∃ fs, map_schema rt es = some fs ∧ r = tagged "MAP" fs := by
  simp [gun_db_schema_encode, tagged, eq_comm]

theorem decode_map_record {gs : List (String × Record)} :
    gun_db_schema_decode rt (.obj (("type", .str "MAP") :: gs)) =
      (map_schema_decode rt (("type", .str "MAP") :: gs)).map (fun es => .map (propertyOrder es)) := by
  rw [gun_db_schema_decode]
  simp [property]

/-- A map comes back if and only if no key is the tag's or sets the prototype,
and every entry comes back. -/
theorem round_trips_map {json : Bool} {es : List (String × Value)} (hn : (es.map Prod.fst).Nodup) :
    RoundTrips rt json (.map es) ↔
      ∀ e ∈ es, e.1 ≠ "type" ∧ e.1 ≠ "__proto__" ∧ EntryRoundTrips rt json e.2 := by
  constructor
  · rintro ⟨r, d, hr, hd, hs⟩
    obtain ⟨fs, hfs, rfl⟩ := encode_map_iff.1 hr
    obtain ⟨ds, rfl, hkeys, hsame⟩ := hs.of_map hn
    have htype : "type" ∉ es.map Prod.fst := by
      intro htype
      obtain ⟨fields, hplain⟩ := decode_tagged_type hn hfs htype
      rw [hplain] at hd
      exact (plain_not_keyed fields).1 ds (Option.some.inj hd)
    obtain ⟨gs, hgs, hread⟩ := stored_tagged json "MAP" hn hfs htype
    rw [hgs, decode_map_record, Option.map_eq_some_iff] at hd
    obtain ⟨ds', hds', heq⟩ := hd
    cases heq
    have hrest := (hread ds').1 hds'
    intro e he
    have hmem : e.1 ∈ es.map Prod.fst := List.mem_map_of_mem he
    have hproto : e.1 ≠ "__proto__" := by
      intro hproto
      have hkey := ((propertyOrder_keys ds').symm.trans hkeys).symm.subset hmem
      rw [hrest.keys_eq] at hkey
      obtain ⟨e', he', hkey'⟩ := List.mem_map.1 hkey
      exact absurd (hkey'.trans hproto) (by simpa using (List.mem_filter.1 he').2)
    have hkept : (e.1, e.2) ∈ es.filter (fun e => e.1 ≠ "__proto__") :=
      List.mem_filter.2 ⟨he, by simpa using hproto⟩
    obtain ⟨d, hd, hrestores⟩ := hrest.right hkept
    refine ⟨fun h => htype (h ▸ hmem), hproto, d, hrestores, ?_⟩
    exact hsame e.1 e.2 d he ((propertyOrder_perm ds').symm.subset hd)
  · intro h
    have htype : "type" ∉ es.map Prod.fst := by
      intro htype
      obtain ⟨e, he, hkey⟩ := List.mem_map.1 htype
      exact (h e he).1 hkey
    have hfilter : es.filter (fun e => e.1 ≠ "__proto__") = es :=
      List.filter_eq_self.2 (fun e he => by simpa using (h e he).2.1)
    obtain ⟨fs, hfs⟩ : ∃ fs, Entrywise (fun v r => encode_entry rt v = some r) es fs := by
      apply entrywise_exists
      intro e he
      obtain ⟨d, ⟨r, hr, -⟩, -⟩ := (h e he).2.2
      exact ⟨r, hr⟩
    obtain ⟨ds, hds⟩ : ∃ ds, Entrywise (fun v d => Restores rt json v d ∧ Same v d) es ds := by
      apply entrywise_exists
      intro e he
      exact (h e he).2.2
    obtain ⟨gs, hgs, hread⟩ := stored_tagged json "MAP" hn (map_schema_iff.2 hfs) htype
    have hrest : Entrywise (Restores rt json) es ds := hds.imp (fun _ _ hd => ⟨hd.1, hd.2.1⟩)
    refine ⟨tagged "MAP" fs, .map (propertyOrder ds), encode_map_iff.2 ⟨fs, map_schema_iff.2 hfs, rfl⟩, ?_, ?_⟩
    · rw [hgs, decode_map_record, (hread ds).2 (by rw [hfilter]; exact hrest)]
      rfl
    · refine .map ((propertyOrder_keys ds).trans (by rw [hds.keys_eq])) ?_
      intro key v d hv hd
      obtain ⟨v', hv', hd'⟩ := hds.left ((propertyOrder_perm ds).subset hd)
      rw [eq_of_mem_of_nodup hn hv hv']
      exact hd'.2

/-! ## Better sets -/

theorem set_schema_eq {ms : List Value} (h : ∀ m ∈ ms, m.is_cell = false) :
    set_schema rt ms = map_schema rt (ms.map (fun m => (rt.identify_by m, m))) := by
  induction ms with
  | nil => simp [set_schema, map_schema]
  | cons m ms ih =>
    rw [List.map_cons, map_schema_cons, encode_entry_of_not_cell (h m (by simp)), set_schema]
    rw [ih (fun m' hm' => h m' (by simp [hm']))]

theorem restores_str (json : Bool) (s : String) (d : Value) : Restores rt json (.str s) d ↔ d = .str s := by
  have hdecode : gun_db_schema_decode rt (stored json (plain_value_schema_encode (.str s))) = some (.str s) := by
    rw [stored_plain, stored_str]
    exact decode_plain_some rfl
  constructor
  · rintro ⟨r, hr, hd⟩
    simp only [encode_entry, gun_db_schema_encode, Option.some.injEq] at hr
    rw [← hr, hdecode] at hd
    exact (Option.some.inj hd).symm
  · rintro rfl
    exact ⟨_, by simp [encode_entry, gun_db_schema_encode], hdecode⟩

theorem foldl_setEntries (ms : List Value) (es : List (String × Value))
    (hn : (es.map Prod.fst ++ ms.map rt.identify_by).Nodup) :
    ms.foldl (fun es v => OrdMap.setEntries (rt.identify_by v) v es) es =
      es ++ ms.map (fun m => (rt.identify_by m, m)) := by
  induction ms generalizing es with
  | nil => simp
  | cons m ms ih =>
    have hnew : rt.identify_by m ∉ es.map Prod.fst := by
      intro hmem
      exact (List.nodup_append.1 hn).2.2 _ hmem _ (by simp) rfl
    rw [List.foldl_cons, OrdMap.setEntries_of_notMem hnew, ih]
    · simp
    · simpa using hn

theorem construct_better_set_eq {ms : List Value} (hn : (ms.map rt.identify_by).Nodup) :
    construct_better_set rt ms = .set ms := by
  rw [construct_better_set, foldl_setEntries ms [] (by simpa using hn)]
  simp [Function.comp_def]

theorem encode_set_iff {ms : List Value} (h : ∀ m ∈ ms, ∃ s, m = .str s) {r : Record} :
    gun_db_schema_encode rt (.set ms) = some r ↔
      ∃ fs, map_schema rt (ms.map (fun m => (rt.identify_by m, m))) = some fs ∧ r = tagged "set" fs := by
  have hcell : ∀ m ∈ ms, m.is_cell = false := by
    intro m hm
    obtain ⟨s, rfl⟩ := h m hm
    rfl
  simp [gun_db_schema_encode, tagged, set_schema_eq hcell, eq_comm]

theorem decode_set_record {gs : List (String × Record)} :
    gun_db_schema_decode rt (.obj (("type", .str "set") :: gs)) =
      (map_schema_decode rt (("type", .str "set") :: gs)).map
        (fun es => construct_better_set rt ((propertyOrder es).map Prod.snd)) := by
  rw [gun_db_schema_decode]
  simp [property]

/-- The members read back: all but one whose identifier sets the prototype. -/
theorem members_restore {json : Bool} {ms : List Value} (h : ∀ m ∈ ms, ∃ s, m = .str s)
    {ds : List (String × Value)} :
    Entrywise (Restores rt json)
        ((ms.map (fun m => (rt.identify_by m, m))).filter (fun e => e.1 ≠ "__proto__")) ds ↔
      ds = (ms.filter (fun m => rt.identify_by m ≠ "__proto__")).map (fun m => (rt.identify_by m, m)) := by
  induction ms generalizing ds with
  | nil => simp [Entrywise]
  | cons m ms ih =>
    have ih := @ih (fun m' hm' => h m' (by simp [hm']))
    obtain ⟨s, rfl⟩ := h m (by simp)
    by_cases hproto : rt.identify_by (.str s) = "__proto__"
    · simpa [hproto] using ih
    · simp only [List.map_cons, hproto, ne_eq, not_false_eq_true, decide_true, List.filter_cons_of_pos]
      constructor
      · intro hds
        cases hds with
        | @cons _ d _ ds' hd hds =>
          obtain ⟨key, v⟩ := d
          obtain ⟨rfl, hd⟩ := hd
          rw [(restores_str json s v).1 hd, ih.1 hds]
      · rintro rfl
        exact .cons ⟨rfl, (restores_str json s _).2 rfl⟩ (ih.2 rfl)

/-- A better set of strings comes back if and only if no identifier is the tag's
or sets the prototype. -/
theorem round_trips_set {json : Bool} {ms : List Value} (hn : (ms.map rt.identify_by).Nodup)
    (hstr : ∀ m ∈ ms, ∃ s, m = .str s) :
    RoundTrips rt json (.set ms) ↔
      ∀ m ∈ ms, rt.identify_by m ≠ "type" ∧ rt.identify_by m ≠ "__proto__" := by
  have hkeys : (ms.map (fun m => (rt.identify_by m, m))).map Prod.fst = ms.map rt.identify_by := by
    simp [Function.comp_def]
  have hn' : ((ms.map (fun m => (rt.identify_by m, m))).map Prod.fst).Nodup := by
    rw [hkeys]
    exact hn
  -- the members without the one that is lost, in property order
  have hmembers : ((propertyOrder ((ms.filter (fun m => rt.identify_by m ≠ "__proto__")).map
      (fun m => (rt.identify_by m, m)))).map Prod.snd).Perm (ms.filter (fun m => rt.identify_by m ≠ "__proto__")) := by
    refine ((propertyOrder_perm _).map Prod.snd).trans ?_
    simp [Function.comp_def]
  have hset := @construct_better_set_eq rt _
    ((hmembers.map rt.identify_by).nodup_iff.2 (hn.sublist (List.filter_sublist.map _)))
  constructor
  · rintro ⟨r, d, hr, hd, hs⟩
    obtain ⟨fs, hfs, rfl⟩ := (encode_set_iff hstr).1 hr
    obtain ⟨ds, rfl, hperm⟩ := hs.of_set
    have htype : "type" ∉ (ms.map (fun m => (rt.identify_by m, m))).map Prod.fst := by
      intro htype
      obtain ⟨fields, hplain⟩ := decode_tagged_type hn' hfs htype
      rw [hplain] at hd
      exact (plain_not_keyed fields).2 ds (Option.some.inj hd)
    obtain ⟨gs, hgs, hread⟩ := stored_tagged json "set" hn' hfs htype
    rw [hgs, decode_set_record, (hread _).2 ((members_restore hstr).2 rfl), Option.map_some, hset,
      Option.some.injEq, Value.set.injEq] at hd
    rw [← hd] at hperm
    intro m hm
    constructor
    · intro h
      apply htype
      rw [hkeys, ← h]
      exact List.mem_map_of_mem hm
    · have hmem := hmembers.subset (hperm.symm.subset hm)
      simpa using (List.mem_filter.1 hmem).2
  · intro h
    have htype : "type" ∉ (ms.map (fun m => (rt.identify_by m, m))).map Prod.fst := by
      rw [hkeys]
      intro htype
      obtain ⟨m, hm, hid⟩ := List.mem_map.1 htype
      exact (h m hm).1 hid
    have hall : ms.filter (fun m => rt.identify_by m ≠ "__proto__") = ms :=
      List.filter_eq_self.2 (fun m hm => by simpa using (h m hm).2)
    obtain ⟨fs, hfs⟩ : ∃ fs, map_schema rt (ms.map (fun m => (rt.identify_by m, m))) = some fs := by
      simp only [map_schema_iff]
      apply entrywise_exists
      intro e he
      obtain ⟨m, hm, rfl⟩ := List.mem_map.1 he
      obtain ⟨s, rfl⟩ := hstr m hm
      obtain ⟨r, hr, -⟩ := (@restores_str rt json s _).2 rfl
      exact ⟨r, hr⟩
    obtain ⟨gs, hgs, hread⟩ := stored_tagged json "set" hn' hfs htype
    refine ⟨tagged "set" fs, _, (encode_set_iff hstr).2 ⟨fs, hfs, rfl⟩, ?_, .set (hmembers.trans (by rw [hall]))⟩
    rw [hgs, decode_set_record, (hread _).2 ((members_restore hstr).2 rfl), Option.map_some, hset]

end LainLang.Serialize
