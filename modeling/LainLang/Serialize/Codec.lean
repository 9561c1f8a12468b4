import LainLang.Serialize.Closure
/-!
# Which values survive

`round_trips_iff` puts the cases together. The results on environment maps, on
closures and on layered objects are instances of it.
-/
open LainLang.Lib LainLang.Js

namespace LainLang.Serialize

variable {rt : Runtime}

/-- The values that come back. A number is printed as JSON where `json` holds. A
cell is kept by its reference in a map; elsewhere its content is encoded too. -/
inductive Survives (rt : Runtime) : Bool → Value → Prop where
  | str (json : Bool) (s : String) : Survives rt json (.str s)
  | text (json : Bool) (r : Record) : Survives rt json (.text r)
  | num {json : Bool} {n : JsNumber} (h : json = true → Printable n) : Survives rt json (.num n)
  | bool (json : Bool) (b : Bool) : Survives rt json (.bool b)
  | element {json : Bool} {type : String} {value : Value} (h : Survives rt json value) :
      Survives rt json (.element type value)
  | cell {json : Bool} {id : String} (h : (rt.cell_contents id).isSome = true) : Survives rt json (.cell id)
  | map {json : Bool} {es : List (String × Value)} (hkeys : ∀ e ∈ es, e.1 ≠ "type" ∧ e.1 ≠ "__proto__")
      (h : ∀ e ∈ es, e.2.is_cell = false → Survives rt json e.2) : Survives rt json (.map es)
  | set {json : Bool} {ms : List Value}
      (h : ∀ m ∈ ms, rt.identify_by m ≠ "type" ∧ rt.identify_by m ≠ "__proto__") : Survives rt json (.set ms)
  | layered {json : Bool} {base : Value} {layers : List (Layer × Value)}
      (hwall : .walltime ∉ layers.map Prod.fst) (hbase : Survives rt true base)
      (h : ∀ l ∈ layers, Survives rt true l.2) : Survives rt json (.layered base layers)
  | closure {json : Bool} {env name : Value} {inputs outputs items : List Value}
      (hname : Survives rt true name) (hinputs : ∀ v ∈ inputs, Survives rt true v)
      (houtputs : ∀ v ∈ outputs, Survives rt true v) (hitems : ∀ v ∈ items, LainElement v)
      (hbody : ∀ v ∈ items, Survives rt true v) :
      Survives rt json (.closure env name inputs outputs [.list items])

theorem datum_round_trips_iff {v : Value} (h : Datum v) (json : Bool) :
    RoundTrips rt json v ↔ Survives rt json v := by
  induction h with
  | str s => exact iff_of_true (round_trips_str json s) (.str json s)
  | text r => exact iff_of_true (round_trips_text json r) (.text json r)
  | bool b => exact iff_of_true (round_trips_bool json b) (.bool json b)
  | num n =>
    rw [round_trips_num]
    constructor
    · exact .num
    · intro h
      cases h with | num h => exact h
  | list h ih =>
    apply iff_of_false (not_round_trips_list json _)
    intro h
    cases h
  | element h ih =>
    rw [round_trips_element, ih]
    constructor
    · exact .element
    · intro h
      cases h with | element h => exact h

theorem round_trips_cell (json : Bool) (id : String) :
    RoundTrips rt json (.cell id) ↔ (rt.cell_contents id).isSome = true := by
  constructor
  · rintro ⟨r, d, hr, -, -⟩
    obtain ⟨contents, hcontents, -⟩ := Option.map_eq_some_iff.1 hr
    exact Option.isSome_iff_exists.2 ⟨contents, hcontents⟩
  · intro h
    obtain ⟨contents, hcontents⟩ := Option.isSome_iff_exists.1 h
    refine ⟨_, .cell id, Option.map_eq_some_iff.2 ⟨contents, hcontents, rfl⟩, ?_, .refl _⟩
    simp [gun_db_schema_decode, property, string_property]

/-- A well-formed value comes back if and only if it is one that survives. -/
theorem round_trips_iff {v : Value} (h : WellFormed rt v) (json : Bool) :
    RoundTrips rt json v ↔ Survives rt json v := by
  induction h generalizing json with
  | datum h => exact datum_round_trips_iff h json
  | element h ih =>
    rw [round_trips_element, ih]
    constructor
    · exact .element
    · intro h
      cases h with | element h => exact h
  | cell id =>
    rw [round_trips_cell]
    constructor
    · exact .cell
    · intro h
      cases h with | cell h => exact h
  | @map es hkeys h ih =>
    rw [round_trips_map hkeys]
    have hentry : ∀ e ∈ es, EntryRoundTrips rt json e.2 ↔ (e.2.is_cell = false → Survives rt json e.2) := by
      intro e he
      cases hcell : e.2.is_cell with
      | false => simpa [hcell] using (entry_round_trips_iff hcell).trans (ih e he json)
      | true =>
        have : EntryRoundTrips rt json e.2 := by
          cases hv : e.2 with
          | cell id => exact entry_round_trips_cell json id
          | _ => simp [hv, Value.is_cell] at hcell
        simpa [hcell] using this
    constructor
    · intro h
      exact .map (fun e he => ⟨(h e he).1, (h e he).2.1⟩) (fun e he => (hentry e he).1 (h e he).2.2)
    · intro h
      cases h with
      | map hk hs => exact fun e he => ⟨(hk e he).1, (hk e he).2, (hentry e he).2 (hs e he)⟩
  | set hids hstr =>
    rw [round_trips_set hids hstr]
    constructor
    · exact .set
    · intro h
      cases h with | set h => exact h
  | layered hkeys hbase h ihbase ih =>
    rw [round_trips_layered hkeys, ihbase]
    constructor
    · rintro ⟨hwall, hb, hl⟩
      exact .layered hwall hb (fun l hl' => (ih l hl' true).1 (hl l hl'))
    · intro h
      cases h with
      | layered hwall hb hl => exact ⟨hwall, hb, fun l hl' => (ih l hl' true).2 (hl l hl')⟩
  | closure id hname hinputs houtputs hbody =>
    rw [round_trips_closure, partsReturn_iff hname hinputs houtputs hbody]
    have helement : ∀ v, LainElement v → (RoundTrips rt true v ↔ Survives rt true v) := by
      rintro v ⟨type, value, rfl, h⟩
      exact datum_round_trips_iff (.element h) true
    constructor
    · rintro ⟨hn, hi, ho, items, rfl, hs⟩
      exact .closure ((helement _ hname).1 hn) (fun v hv => (helement v (hinputs v hv)).1 (hi v hv))
        (fun v hv => (helement v (houtputs v hv)).1 (ho v hv)) (fun v hv => (hs v hv).1)
        (fun v hv => (helement v (hs v hv).1).1 (hs v hv).2)
    · intro h
      cases h with
      | closure hn hi ho hitems hs =>
        exact ⟨(helement _ hname).2 hn, fun v hv => (helement v (hinputs v hv)).2 (hi v hv),
          fun v hv => (helement v (houtputs v hv)).2 (ho v hv), _, rfl,
          fun v hv => ⟨hitems v hv, (helement v (hitems v hv)).2 (hs v hv)⟩⟩

/-! ## Environment maps -/

/-- The values of an environment map: strings, numbers, booleans, elements of the
language, cells and nested maps with distinct keys. -/
inductive EnvValue : Value → Prop where
  | str (s : String) : EnvValue (.str s)
  | text (r : Record) : EnvValue (.text r)
  | num (n : JsNumber) : EnvValue (.num n)
  | bool (b : Bool) : EnvValue (.bool b)
  | element {v : Value} (h : LainElement v) : EnvValue v
  | cell (id : String) : EnvValue (.cell id)
  | map {es : List (String × Value)} (hkeys : (es.map Prod.fst).Nodup) (h : ∀ e ∈ es, EnvValue e.2) :
      EnvValue (.map es)

theorem EnvValue.wellFormed {v : Value} (h : EnvValue v) : WellFormed rt v := by
  induction h with
  | str s => exact .datum (.str s)
  | text r => exact .datum (.text r)
  | num n => exact .datum (.num n)
  | bool b => exact .datum (.bool b)
  | element h =>
    obtain ⟨type, value, rfl, h⟩ := h
    exact .datum (.element h)
  | cell id => exact .cell id
  | map hkeys _ ih => exact .map hkeys ih

theorem EnvValue.keys_nodup {es : List (String × Value)} (h : EnvValue (.map es)) : (es.map Prod.fst).Nodup := by
  cases h with
  | element h =>
    obtain ⟨type, value, heq, -⟩ := h
    cases heq
  | map hkeys _ => exact hkeys

/-- An environment map is decoded to a map with the same keys and the same value
under each, a cell as the cell of its id, if and only if it survives: no map in it
has a key `type` or `__proto__`, and no element in it holds an array. -/
theorem map_round_trip_iff {es : List (String × Value)} (h : EnvValue (.map es)) :
    (∃ r ds, gun_db_schema_encode rt (.map es) = some r ∧ gun_db_schema_decode rt r = some (.map ds) ∧
      (ds.map Prod.fst).Perm (es.map Prod.fst) ∧
      ∀ key v d, (key, v) ∈ es → (key, d) ∈ ds → Same v d) ↔
    Survives rt false (.map es) := by
  rw [← round_trips_iff h.wellFormed]
  constructor
  · rintro ⟨r, ds, hr, hd, hkeys, hsame⟩
    exact ⟨r, .map ds, hr, hd, .map hkeys hsame⟩
  · rintro ⟨r, d, hr, hd, hs⟩
    obtain ⟨ds, rfl, hkeys, hsame⟩ := hs.of_map h.keys_nodup
    exact ⟨r, ds, hr, hd, hkeys, hsame⟩

/-- A runtime whose cells are called by their ids. -/
def plain_runtime : Runtime where
  cell_name := id
  cell_contents := fun _ => none
  identify_by := fun v => match v with
    | .str s => s
    | _ => ""
  throw_error_returns := true

theorem map_round_trip_env :
    (∃ r ds, gun_db_schema_encode plain_runtime (.map [("x", .cell "c1"), ("y", .str "hello")]) = some r ∧
      gun_db_schema_decode plain_runtime r = some (.map ds) ∧
      (ds.map Prod.fst).Perm ([("x", Value.cell "c1"), ("y", .str "hello")].map Prod.fst) ∧
      ∀ key v d, (key, v) ∈ [("x", Value.cell "c1"), ("y", .str "hello")] → (key, d) ∈ ds → Same v d) ↔
    Survives plain_runtime false (.map [("x", .cell "c1"), ("y", .str "hello")]) :=
  map_round_trip_iff (.map (by simp) (by
    intro e he
    rcases List.mem_pair.1 he with rfl | rfl
    · exact .cell "c1"
    · exact .str "hello"))

/-- A variable named `type` replaces the tag of the map: nothing is read back. -/
theorem map_named_type_lost :
    gun_db_schema_encode plain_runtime (.map [("type", .str "person")]) =
        some (.obj [("type", .obj [("value", .str "person")])]) ∧
      gun_db_schema_decode plain_runtime (.obj [("type", .obj [("value", .str "person")])]) = some the_nothing ∧
      ∀ ds, the_nothing ≠ .map ds := by
  refine ⟨?_, ?_, ?_⟩
  · simp [gun_db_schema_encode, map_schema, assignEntries, assign, OrdMap.setEntries, plain_value_schema_encode]
  · simp [gun_db_schema_decode, property, plain_value_schema_decode]
  · simp [the_nothing]

/-! ## Closures -/

/-- A closure of the language comes back with its name, inputs, outputs and body
if and only if the body is one list of elements, and the value of every element in
the closure survives. -/
theorem closure_round_trip_iff {id : String} {name : Value} {inputs outputs body : List Value}
    (hname : LainElement name) (hinputs : ∀ v ∈ inputs, LainElement v) (houtputs : ∀ v ∈ outputs, LainElement v)
    (hbody : ∀ v ∈ body, Datum v) :
    (∃ r env, gun_db_schema_encode rt (.closure (.cell id) name inputs outputs body) = some r ∧
      gun_db_schema_decode rt r = some (.closure env name inputs outputs body)) ↔
    Survives rt true name ∧ (∀ v ∈ inputs, Survives rt true v) ∧ (∀ v ∈ outputs, Survives rt true v) ∧
      ∃ items, body = [.list items] ∧ ∀ v ∈ items, LainElement v ∧ Survives rt true v := by
  have hsurvives : Survives rt false (.closure (.cell id) name inputs outputs body) ↔
      Survives rt true name ∧ (∀ v ∈ inputs, Survives rt true v) ∧ (∀ v ∈ outputs, Survives rt true v) ∧
        ∃ items, body = [.list items] ∧ ∀ v ∈ items, LainElement v ∧ Survives rt true v := by
    constructor
    · intro h
      cases h with
      | closure hn hi ho hitems hs => exact ⟨hn, hi, ho, _, rfl, fun v hv => ⟨hitems v hv, hs v hv⟩⟩
    · rintro ⟨hn, hi, ho, items, rfl, hs⟩
      exact .closure hn hi ho (fun v hv => (hs v hv).1) (fun v hv => (hs v hv).2)
  rw [← hsurvives, ← round_trips_iff (.closure id hname hinputs houtputs hbody)]
  constructor
  · rintro ⟨r, env, hr, hd⟩
    exact round_trips_closure.2 (parts_return false hr hd)
  · intro h
    obtain ⟨r, hr, hd⟩ := closure_returns false (round_trips_closure.1 h) id
    exact ⟨r, .cell id, hr, hd⟩

/-- A symbol as a lain element. -/
def lain_symbol (s : String) : Value := .element "Symbol" (.str s)

theorem datum_symbol (s : String) : LainElement (lain_symbol s) := ⟨"Symbol", .str s, rfl, .str s⟩

theorem closure_round_trip_double :
    (∃ r env, gun_db_schema_encode plain_runtime (.closure (.cell "env") (lain_symbol "double") [lain_symbol "a"]
        [lain_symbol "b"] [.list [lain_symbol "+", lain_symbol "a", lain_symbol "b"]]) = some r ∧
      gun_db_schema_decode plain_runtime r = some (.closure env (lain_symbol "double") [lain_symbol "a"]
        [lain_symbol "b"] [.list [lain_symbol "+", lain_symbol "a", lain_symbol "b"]])) ↔
    Survives plain_runtime true (lain_symbol "double") ∧
      (∀ v ∈ [lain_symbol "a"], Survives plain_runtime true v) ∧
      (∀ v ∈ [lain_symbol "b"], Survives plain_runtime true v) ∧
      ∃ items, [Value.list [lain_symbol "+", lain_symbol "a", lain_symbol "b"]] = [Value.list items] ∧
        ∀ v ∈ items, LainElement v ∧ Survives plain_runtime true v :=
  closure_round_trip_iff (datum_symbol "double")
    (List.forall_mem_singleton.2 (datum_symbol "a")) (List.forall_mem_singleton.2 (datum_symbol "b"))
    (List.forall_mem_singleton.2 (.list (List.forall_mem_cons.2 ⟨.element (.str "+"),
      List.forall_mem_cons.2 ⟨.element (.str "a"), List.forall_mem_singleton.2 (.element (.str "b"))⟩⟩)))

/-- A network with two statements comes back with the first only, and a list within
a statement comes back as an element without a type. -/
theorem closure_second_statement_lost :
    let name := lain_symbol "both"
    let first : Value := .list [lain_symbol "<-", lain_symbol "a", lain_symbol "b"]
    let second : Value := .list [lain_symbol "<-", lain_symbol "a", lain_symbol "c"]
    let nested : Value := .list [lain_symbol "a", .list [lain_symbol "b"]]
    (∃ r, gun_db_schema_encode plain_runtime (.closure (.cell "env") name [lain_symbol "a"] [] [first, second]) = some r ∧
      gun_db_schema_decode plain_runtime r =
        some (.closure (.cell "env") name [lain_symbol "a"] [] [first]) ∧
      ∀ env, (.closure (.cell "env") name [lain_symbol "a"] [] [first] : Value) ≠
        .closure env name [lain_symbol "a"] [] [first, second]) ∧
    ∃ r, gun_db_schema_encode plain_runtime (.closure (.cell "env") name [lain_symbol "a"] [] [nested]) = some r ∧
      gun_db_schema_decode plain_runtime r =
        some (.closure (.cell "env") name [lain_symbol "a"] [] [.list [lain_symbol "a", .untyped the_nothing]]) := by
  intro name first second nested
  have hreturn : ∀ s, ElementReturns plain_runtime (lain_symbol s) := by
    intro s
    exact (elementReturns_iff (.element (.str s))).2 ⟨datum_symbol s, (round_trips_element true _ _).2 (round_trips_str true s)⟩
  have hlist : ∀ ss : List String, ElementsReturn plain_runtime (ss.map lain_symbol) := by
    intro ss
    rw [elementsReturn_iff]
    intro v hv
    obtain ⟨s, -, rfl⟩ := List.mem_map.1 hv
    exact hreturn s
  constructor
  · have hparts : PartsReturn plain_runtime name [lain_symbol "a"] [] [first] :=
      ⟨hreturn "both", hlist ["a"], hlist [], _, rfl, hlist ["<-", "a", "b"]⟩
    obtain ⟨r, hr, hd⟩ := closure_returns false hparts "env"
    refine ⟨r, by rw [encode_closure_head, hr], hd, ?_⟩
    intro env h
    simp at h
  · obtain ⟨rn, hrn, hn⟩ := hreturn "both"
    obtain ⟨ris, hris, hi⟩ := hlist ["a"]
    obtain ⟨ra, hra, ha⟩ := hreturn "a"
    -- The list has no type and no value, and the encoder goes on.
    have hinner : lain_element_schema plain_runtime (.list [lain_symbol "b"]) = some untyped_schema := by
      simp [lain_element_schema, plain_runtime]
    have hitems : lain_element_schemas plain_runtime [lain_symbol "a", .list [lain_symbol "b"]] =
        some [ra, untyped_schema] := by
      simp [lain_element_schemas, hra, hinner]
    have hdecoded : decode_items plain_runtime ([ra, untyped_schema].map (stored true)) =
        some [lain_symbol "a", .untyped the_nothing] :=
      decode_items_iff.2 (.cons ha (.cons decode_untyped_schema .nil))
    have hbody := body_encoded_iff.2 ⟨_, [], _, rfl, hitems, rfl⟩
    refine ⟨_, encode_closure_iff.2 ⟨rn, hrn, ris, hris, [], by rw [lain_element_schemas], _, hbody, rfl⟩, ?_⟩
    refine (@decode_closure_iff plain_runtime false _ _ _ _ _ _).2 ?_
    have hnone : decode_items plain_runtime (([] : List Record).map (stored true)) = some [] := by
      rw [List.map_nil, decode_items]
    rw [hn, hi, hnone, hdecoded]
    rfl

/-! ## Layered objects -/

/-- A layered object comes back with the same base value and the same value in
every annotation layer if and only if it carries no walltime and its base and the
values of its layers survive; and so no value written by
`update_specialized_reactive_value` is a latest-win value when it comes back. -/
theorem layered_round_trip_iff {base : Value} {layers : List (Layer × Value)} (h : WellFormed rt (.layered base layers)) :
    ((∃ r base' layers', gun_db_schema_encode rt (.layered base layers) = some r ∧
        gun_db_schema_decode rt r = some (.layered base' layers') ∧ Same base base' ∧
        (layers'.map Prod.fst).Perm (layers.map Prod.fst) ∧
        ∀ layer v d, (layer, v) ∈ layers → (layer, d) ∈ layers' → Same v d) ↔
      .walltime ∉ layers.map Prod.fst ∧ Survives rt true base ∧ ∀ l ∈ layers, Survives rt true l.2) ∧
    ∀ strongest identifier value walltime r d,
      gun_db_schema_encode rt (update_specialized_reactive_value strongest identifier value walltime) = some r →
      gun_db_schema_decode rt r = some d → is_latest_win_reactive_value d = false := by
  have hkeys : (layers.map Prod.fst).Nodup := by
    cases h with
    | datum h => cases h
    | layered hkeys _ _ => exact hkeys
  have hsurvives : Survives rt false (.layered base layers) ↔
      .walltime ∉ layers.map Prod.fst ∧ Survives rt true base ∧ ∀ l ∈ layers, Survives rt true l.2 := by
    constructor
    · intro h
      cases h with
      | layered hwall hb hl => exact ⟨hwall, hb, hl⟩
    · rintro ⟨hwall, hb, hl⟩
      exact .layered hwall hb hl
  refine ⟨?_, ?_⟩
  · rw [← hsurvives, ← round_trips_iff h]
    constructor
    · rintro ⟨r, base', layers', hr, hd, hb, hk, hl⟩
      exact ⟨r, _, hr, hd, .layered hb hk hl⟩
    · rintro ⟨r, d, hr, hd, hs⟩
      obtain ⟨base', layers', rfl, hb, hk, hl⟩ := hs.of_layered hkeys
      exact ⟨r, base', layers', hr, hd, hb, hk, hl⟩
  · intro strongest identifier value walltime r d hr hd
    have hlost := @walltime_lost rt false _ _ (by simp) r d hr hd
    simp [is_latest_win_reactive_value, hlost]

theorem layered_round_trip_supported :
    let layers : List (Layer × Value) := [(.support, .set [.str "user"])]
    ((∃ r base' layers', gun_db_schema_encode plain_runtime (.layered (.str "on") layers) = some r ∧
        gun_db_schema_decode plain_runtime r = some (.layered base' layers') ∧ Same (.str "on") base' ∧
        (layers'.map Prod.fst).Perm (layers.map Prod.fst) ∧
        ∀ layer v d, (layer, v) ∈ layers → (layer, d) ∈ layers' → Same v d) ↔
      .walltime ∉ layers.map Prod.fst ∧ Survives plain_runtime true (.str "on") ∧
        ∀ l ∈ layers, Survives plain_runtime true l.2) ∧
    ∀ strongest identifier value walltime r d,
      gun_db_schema_encode plain_runtime (update_specialized_reactive_value strongest identifier value walltime) = some r →
      gun_db_schema_decode plain_runtime r = some d → is_latest_win_reactive_value d = false :=
  layered_round_trip_iff (.layered (by simp) (.datum (.str "on"))
    (List.forall_mem_singleton.2 (.set (by simp) (List.forall_mem_singleton.2 ⟨"user", rfl⟩))))

/-- The first value a card writes comes back without its walltime. -/
theorem layered_walltime_lost :
    let written := update_specialized_reactive_value none "card" (.str "on") (.ofNat 100)
    is_latest_win_reactive_value written = true ∧
      ∃ r d, gun_db_schema_encode plain_runtime written = some r ∧ gun_db_schema_decode plain_runtime r = some d ∧
        is_latest_win_reactive_value d = false := by
  intro written
  refine ⟨update_latest_win none "card" (.str "on") (.ofNat 100), ?_⟩
  have hencode : ∃ r, gun_db_schema_encode plain_runtime written = some r := by
    simp [written, update_specialized_reactive_value, clock_value, OrdMap.set, OrdMap.empty, OrdMap.setEntries,
      gun_db_schema_encode, layered_object_schema, map_schema]
  obtain ⟨r, hr⟩ := hencode
  have hdecode : ∃ d, gun_db_schema_decode plain_runtime r = some d := by
    simp only [written, update_specialized_reactive_value, gun_db_schema_encode, Option.bind_eq_some_iff,
      Option.map_eq_some_iff] at hr
    obtain ⟨rb, -, fs, -, rfl⟩ := hr
    simp [stringify, json_copy, gun_db_schema_decode]
  obtain ⟨d, hd⟩ := hdecode
  refine ⟨r, d, hr, hd, ?_⟩
  have hlost := @walltime_lost plain_runtime false _ _ (by simp) r d hr hd
  simp [is_latest_win_reactive_value, hlost]

end LainLang.Serialize
