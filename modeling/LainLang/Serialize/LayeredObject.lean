import LainLang.Serialize.Entries
/-!
# Layered objects

The encoder writes every annotation layer of an object; the decoder recognises
`vector_clock` and `support` and skips every other key, the walltime among them.
The layers and `vector_clock_forward` are the propagator library's, assumed to do
what it documents.
-/
open LainLang.Lib LainLang.Js

namespace LainLang.Serialize

variable {rt : Runtime}

theorem get_name_injective : Function.Injective Layer.get_name := by
  intro a b h
  cases a <;> cases b <;> first | rfl | simp [Layer.get_name] at h

/-- A value and what is read back of it. -/
def Returns (rt : Runtime) (json : Bool) (v d : Value) : Prop :=
  ∃ r, gun_db_schema_encode rt v = some r ∧ gun_db_schema_decode rt (stored json r) = some d

theorem round_trips_of_returns {json : Bool} {v : Value} :
    RoundTrips rt json v ↔ ∃ d, Returns rt json v d ∧ Same v d := by
  constructor
  · rintro ⟨r, d, hr, hd, hs⟩
    exact ⟨d, ⟨r, hr, hd⟩, hs⟩
  · rintro ⟨d, ⟨r, hr, hd⟩, hs⟩
    exact ⟨r, d, hr, hd, hs⟩

/-- The layers of an object under their names. -/
def named (layers : List (Layer × Value)) : List (String × Value) := layers.map (fun l => (l.1.get_name, l.2))

theorem layered_object_schema_iff {ls : List (Layer × Value)} {fs : List (String × Record)} :
    layered_object_schema rt ls = some fs ↔
      Entrywise (fun v r => gun_db_schema_encode rt v = some r) (named ls) fs := by
  induction ls generalizing fs with
  | nil => simp [layered_object_schema, named, Entrywise, eq_comm]
  | cons l ls ih =>
    obtain ⟨layer, v⟩ := l
    constructor
    · intro h
      obtain ⟨r, hr, h⟩ := Option.bind_eq_some_iff.1 h
      obtain ⟨fs', hfs', rfl⟩ := Option.map_eq_some_iff.1 h
      exact .cons ⟨rfl, hr⟩ (ih.1 hfs')
    · intro h
      cases h with
      | @cons _ f _ fs' he hes =>
        obtain ⟨key, r⟩ := f
        obtain ⟨rfl, hr⟩ := he
        simp [layered_object_schema, hr, ih.2 hes]

/-- The layers read back: all but the walltime. -/
theorem layered_object_schema_decode_iff {ls : List (Layer × Value)} {fs : List (String × Record)}
    (h : Entrywise (fun v r => gun_db_schema_encode rt v = some r) (named ls) fs)
    {ds : List (Layer × Value)} :
    layered_object_schema_decode rt (fs.map (fun f => (f.1, stored true f.2))) = some ds ↔
      Entrywise (Returns rt true) (ls.filter (fun l => l.1 ≠ .walltime)) ds := by
  induction ls generalizing fs ds with
  | nil =>
    cases h
    simp [layered_object_schema_decode, Entrywise, eq_comm]
  | cons l ls ih =>
    cases h with
    | @cons _ f _ fs hf hfs =>
      obtain ⟨layer, v⟩ := l
      obtain ⟨key, r⟩ := f
      obtain ⟨rfl, hr⟩ := hf
      -- a layer the decoder recognises
      have hknown : ∀ layer : Layer,
          ((gun_db_schema_decode rt (stored true r)).bind fun v =>
            (layered_object_schema_decode rt (fs.map (fun f => (f.1, stored true f.2)))).map ((layer, v) :: ·)) = some ds ↔
          Entrywise (Returns rt true) ((layer, v) :: ls.filter (fun l => l.1 ≠ .walltime)) ds := by
        intro layer
        constructor
        · intro h
          obtain ⟨d, hd, h⟩ := Option.bind_eq_some_iff.1 h
          obtain ⟨ds', hds', rfl⟩ := Option.map_eq_some_iff.1 h
          exact .cons ⟨rfl, r, hr, hd⟩ ((ih hfs).1 hds')
        · intro h
          cases h with
          | @cons _ d _ ds' hd hds =>
            obtain ⟨layer', d⟩ := d
            obtain ⟨rfl, r', hr', hd⟩ := hd
            cases hr.symm.trans hr'
            simp [hd, (ih hfs).2 hds]
      cases layer with
      | vector_clock => simpa [layered_object_schema_decode, Layer.get_name] using hknown .vector_clock
      | support => simpa [layered_object_schema_decode, Layer.get_name] using hknown .support
      | walltime => simpa [layered_object_schema_decode, Layer.get_name] using ih hfs

theorem decode_layered_record (base : Record) (fs : List (String × Record)) :
    gun_db_schema_decode rt (.obj (("type", .str "layered_object") :: ("base", base) :: fs)) =
      (gun_db_schema_decode rt base).bind fun base =>
        (layered_object_schema_decode rt fs).map fun layers => .layered base layers := by
  simp [gun_db_schema_decode, property, decode_property, layered_object_schema_decode]

/-- The record of a layered object: its layers follow the tag and the base. -/
theorem assign_layers {base : Record} {ls : List (Layer × Value)} {fs : List (String × Record)}
    (hn : (ls.map Prod.fst).Nodup)
    (h : Entrywise (fun v r => gun_db_schema_encode rt v = some r) (named ls) fs) :
    assignEntries [("type", .str "layered_object"), ("base", base)] fs =
      ("type", .str "layered_object") :: ("base", base) :: fs := by
  have hkeys : fs.map Prod.fst = (ls.map Prod.fst).map Layer.get_name := by
    rw [h.keys_eq, named, List.map_map, List.map_map]
    rfl
  have hname : ∀ key ∈ fs.map Prod.fst, key ≠ "type" ∧ key ≠ "base" ∧ key ≠ "__proto__" := by
    rw [hkeys]
    intro key hkey
    obtain ⟨layer, -, rfl⟩ := List.mem_map.1 hkey
    cases layer <;> simp [Layer.get_name]
  rw [assignEntries_eq]
  · have hall : fs.filter (fun f => f.1 ≠ "__proto__") = fs := by
      apply List.filter_eq_self.2
      intro f hf
      simpa using (hname f.1 (List.mem_map_of_mem hf)).2.2
    rw [hall]
    rfl
  · rw [hkeys]
    exact hn.map get_name_injective
  · intro key hkey
    simpa using ⟨(hname key hkey).1, (hname key hkey).2.1⟩

/-- A layered object comes back if and only if it carries no walltime, and its
base and the values of its layers come back. -/
theorem round_trips_layered {json : Bool} {base : Value} {ls : List (Layer × Value)}
    (hn : (ls.map Prod.fst).Nodup) :
    RoundTrips rt json (.layered base ls) ↔
      .walltime ∉ ls.map Prod.fst ∧ RoundTrips rt true base ∧ ∀ l ∈ ls, RoundTrips rt true l.2 := by
  constructor
  · rintro ⟨r, d, hr, hd, hs⟩
    simp only [gun_db_schema_encode, Option.bind_eq_some_iff, Option.map_eq_some_iff] at hr
    obtain ⟨rb, hrb, fs, hfs, rfl⟩ := hr
    have hall := layered_object_schema_iff.1 hfs
    obtain ⟨base', ls', rfl, hbase, hkeys, hsame⟩ := hs.of_layered hn
    rw [assign_layers hn hall, stringify_eq, stored_text, stored_obj, gun_db_schema_decode] at hd
    simp only [List.map_cons, stored_str, decode_layered_record, Option.some.injEq] at hd
    cases hb : gun_db_schema_decode rt (stored true rb) with
    | none => simp [hb, the_nothing] at hd
    | some b =>
      cases hl : layered_object_schema_decode rt (fs.map (fun f => (f.1, stored true f.2))) with
      | none => simp [hb, hl, the_nothing] at hd
      | some ds =>
        simp only [hb, hl, Option.bind_some, Option.map_some, Option.getD_some, Value.layered.injEq] at hd
        obtain ⟨rfl, rfl⟩ := hd
        have hread := (layered_object_schema_decode_iff hall).1 hl
        have hwall : .walltime ∉ ls.map Prod.fst := by
          intro hmem
          have hmem' := hkeys.symm.subset hmem
          rw [hread.keys_eq] at hmem'
          obtain ⟨l, hl', hkey⟩ := List.mem_map.1 hmem'
          exact absurd hkey (by simpa using (List.mem_filter.1 hl').2)
        refine ⟨hwall, ⟨rb, b, hrb, hb, hbase⟩, ?_⟩
        intro l hl'
        have hne : l.1 ≠ .walltime := fun h => hwall (h ▸ List.mem_map_of_mem hl')
        have hkept : (l.1, l.2) ∈ ls.filter (fun l => l.1 ≠ .walltime) :=
          List.mem_filter.2 ⟨hl', by simpa using hne⟩
        obtain ⟨d, hd, hreturns⟩ := hread.right hkept
        exact round_trips_of_returns.2 ⟨d, hreturns, hsame l.1 l.2 d hl' hd⟩
  · rintro ⟨hwall, ⟨rb, b, hrb, hb, hbase⟩, h⟩
    obtain ⟨fs, hfs⟩ : ∃ fs, Entrywise (fun v r => gun_db_schema_encode rt v = some r) (named ls) fs := by
      apply entrywise_exists
      intro e he
      obtain ⟨l, hl, rfl⟩ := List.mem_map.1 he
      obtain ⟨r, -, hr, -⟩ := h l hl
      exact ⟨r, hr⟩
    obtain ⟨ds, hds⟩ : ∃ ds, Entrywise (fun v d => Returns rt true v d ∧ Same v d) ls ds := by
      apply entrywise_exists
      intro l hl
      exact round_trips_of_returns.1 (h l hl)
    have hfilter : ls.filter (fun l => l.1 ≠ .walltime) = ls := by
      apply List.filter_eq_self.2
      intro l hl
      have hne : l.1 ≠ .walltime := fun hw => hwall (hw ▸ List.mem_map_of_mem hl)
      simpa using hne
    have hread : Entrywise (Returns rt true) (ls.filter (fun l => l.1 ≠ .walltime)) ds := by
      rw [hfilter]
      exact hds.imp (fun _ _ hd => ⟨hd.1, hd.2.1⟩)
    refine ⟨stringify (.obj (assignEntries [("type", .str "layered_object"), ("base", rb)] fs)), .layered b ds,
      ?_, ?_, .layered hbase (by rw [hds.keys_eq]) ?_⟩
    · simp only [gun_db_schema_encode, hrb, Option.bind_some, layered_object_schema_iff.2 hfs, Option.map_some]
    · rw [assign_layers hn hfs, stringify_eq, stored_text, stored_obj, gun_db_schema_decode]
      simp [decode_layered_record, hb, (layered_object_schema_decode_iff hfs).2 hread]
    · intro layer v d hv hd
      obtain ⟨v', hv', hd'⟩ := hds.left hd
      rw [eq_of_mem_of_nodup hn hv hv']
      exact hd'.2

/-- Whether a value is a layered object with a value in the layer. -/
def has_layer (layer : Layer) : Value → Bool
  | .layered _ layers => decide (layer ∈ layers.map Prod.fst)
  | _ => false

/-- No layered object that comes back carries a walltime. -/
theorem walltime_lost {json : Bool} {base : Value} {ls : List (Layer × Value)} (hn : (ls.map Prod.fst).Nodup)
    {r : Record} {d : Value} (hr : gun_db_schema_encode rt (.layered base ls) = some r)
    (hd : gun_db_schema_decode rt (stored json r) = some d) : has_layer .walltime d = false := by
  simp only [gun_db_schema_encode, Option.bind_eq_some_iff, Option.map_eq_some_iff] at hr
  obtain ⟨rb, -, fs, hfs, rfl⟩ := hr
  have hall := layered_object_schema_iff.1 hfs
  rw [assign_layers hn hall, stringify_eq, stored_text, stored_obj, gun_db_schema_decode] at hd
  simp only [List.map_cons, stored_str, decode_layered_record, Option.some.injEq] at hd
  cases hb : gun_db_schema_decode rt (stored true rb) with
  | none =>
    rw [← hd, hb]
    rfl
  | some b =>
    cases hl : layered_object_schema_decode rt (fs.map (fun f => (f.1, stored true f.2))) with
    | none =>
      rw [← hd, hb, hl]
      rfl
    | some ds =>
      rw [← hd, hb, hl]
      have hread := (layered_object_schema_decode_iff hall).1 hl
      change decide (Layer.walltime ∈ ds.map Prod.fst) = false
      rw [hread.keys_eq, decide_eq_false_iff_not]
      intro hmem
      obtain ⟨l, hl', hkey⟩ := List.mem_map.1 hmem
      exact absurd hkey (by simpa using (List.mem_filter.1 hl').2)

/-! ## Latest-win values -/

/-- A value with both the clock and the time. -/
def is_latest_win_reactive_value (a : Value) : Bool := has_layer .vector_clock a && has_layer .walltime a

/-- The library's: the counter of one channel goes up by one, or starts at one. -/
def vector_clock_forward (clock : OrdMap String ℕ) (identifier : String) : OrdMap String ℕ :=
  clock.set identifier ((clock.get? identifier).getD 0 + 1)

/-- A vector clock as the value of its layer: a map of counters. -/
def clock_value (clock : OrdMap String ℕ) : Value := .map (clock.entries.map (fun e => (e.1, .num (.ofNat e.2))))

/-- The value `update_specialized_reactive_value` writes at the time `walltime`,
where `strongest` is the vector clock of the cell's strongest value, if that is a
layered object. -/
def update_specialized_reactive_value (strongest : Option (OrdMap String ℕ)) (identifier : String) (value : Value)
    (walltime : JsNumber) : Value :=
  let source := OrdMap.empty.set identifier 0
  let clock := match strongest with
    | some clock => if clock.has identifier then vector_clock_forward clock identifier else source
    | none => source
  .layered value [(.vector_clock, clock_value clock), (.walltime, .num walltime)]

theorem update_latest_win (strongest : Option (OrdMap String ℕ)) (identifier : String) (value : Value)
    (walltime : JsNumber) :
    is_latest_win_reactive_value (update_specialized_reactive_value strongest identifier value walltime) = true := by
  simp [update_specialized_reactive_value, is_latest_win_reactive_value, has_layer]

end LainLang.Serialize
