import LainLang.Serialize.LayeredObject
/-!
# Closures

`closure_schema` maps the first expression of the body, so it throws unless that
is a list, and drops every other expression; a list in that list is stored as an
element without type and value. `closure_schema_decode` wraps the elements in one
list again.
-/
open LainLang.Lib LainLang.Js

namespace LainLang.Serialize

variable {rt : Runtime}

theorem lain_element_schema_element (type : String) (value : Value) :
    lain_element_schema rt (.element type value) = gun_db_schema_encode rt (.element type value) := by
  rw [lain_element_schema, gun_db_schema_encode]

/-- What is stored for no element at all is read back as an element without a type. -/
theorem decode_untyped_schema : gun_db_schema_decode rt (stored true untyped_schema) = some (.untyped the_nothing) := by
  simp [untyped_schema, gun_db_schema_decode, property, decode_property]

theorem decode_items_iff {rs : List Record} {vs : List Value} :
    decode_items rt rs = some vs ↔ List.Forall₂ (fun r v => gun_db_schema_decode rt r = some v) rs vs := by
  induction rs generalizing vs with
  | nil => simp [decode_items, eq_comm]
  | cons r rs ih =>
    constructor
    · intro h
      obtain ⟨v, hv, h⟩ := Option.bind_eq_some_iff.1 h
      obtain ⟨vs', hvs', rfl⟩ := Option.map_eq_some_iff.1 h
      exact .cons hv (ih.1 hvs')
    · intro h
      cases h with
      | cons hv hvs => simp [decode_items, hv, ih.2 hvs]

/-- An element that comes back through JSON. -/
def ElementReturns (rt : Runtime) (v : Value) : Prop :=
  ∃ r, lain_element_schema rt v = some r ∧ gun_db_schema_decode rt (stored true r) = some v

theorem elementReturns_iff {v : Value} (h : Datum v) :
    ElementReturns rt v ↔ LainElement v ∧ RoundTrips rt true v := by
  constructor
  · rintro ⟨r, hr, hd⟩
    cases h with
    | element hvalue =>
      rw [lain_element_schema_element] at hr
      exact ⟨⟨_, _, rfl, hvalue⟩, r, _, hr, hd, .refl _⟩
    | _ =>
      -- Where the encoder does not throw, it stores an element without a type.
      obtain ⟨-, heq⟩ := Option.ite_none_right_eq_some.1 hr
      rw [← Option.some.inj heq, decode_untyped_schema] at hd
      cases hd
  · rintro ⟨⟨type, value, rfl, -⟩, r, d, hr, hd, hs⟩
    rw [h.eq_of_same hs] at hd
    exact ⟨r, by rw [lain_element_schema_element, hr], hd⟩

/-- A list of elements that comes back through JSON. -/
def ElementsReturn (rt : Runtime) (vs : List Value) : Prop :=
  ∃ rs, lain_element_schemas rt vs = some rs ∧ decode_items rt (rs.map (stored true)) = some vs

theorem elementsReturn_iff {vs : List Value} : ElementsReturn rt vs ↔ ∀ v ∈ vs, ElementReturns rt v := by
  induction vs with
  | nil => simp [ElementsReturn, lain_element_schemas, decode_items]
  | cons v vs ih =>
    rw [List.forall_mem_cons, ← ih]
    constructor
    · rintro ⟨rs, hrs, hd⟩
      obtain ⟨r, hr, h⟩ := Option.bind_eq_some_iff.1 hrs
      obtain ⟨rs', hrs', rfl⟩ := Option.map_eq_some_iff.1 h
      cases decode_items_iff.1 hd with
      | cons hv hvs => exact ⟨⟨r, hr, hv⟩, rs', hrs', decode_items_iff.2 hvs⟩
    · rintro ⟨⟨r, hr, hv⟩, rs, hrs, hd⟩
      refine ⟨r :: rs, ?_, ?_⟩
      · simp [lain_element_schemas, hr, hrs]
      · simp [decode_items, hv, hd]

theorem body_encoded_iff {body : List Value} {r : Record} :
    body_encoded rt body = some r ↔
      ∃ items rest rs, body = .list items :: rest ∧ lain_element_schemas rt items = some rs ∧
        r = stringify (.arr rs) := by
  constructor
  · intro h
    cases body with
    | nil => simp [body_encoded] at h
    | cons v rest =>
      cases v <;> simp only [body_encoded, Option.map_eq_some_iff, reduceCtorEq] at h
      case list items =>
        obtain ⟨rs, hrs, rfl⟩ := h
        exact ⟨items, rest, rs, rfl, hrs, rfl⟩
  · rintro ⟨items, rest, rs, rfl, hrs, rfl⟩
    simp [body_encoded, hrs]

theorem decode_list_property_cons_ne {key k : String} (h : k ≠ key) (r : Record) (fs : List (String × Record)) :
    decode_list_property rt key ((k, r) :: fs) = decode_list_property rt key fs := by
  cases r <;> simp [decode_list_property, h]

theorem body_decoded_cons_ne {k : String} (h : k ≠ "body") (r : Record) (fs : List (String × Record)) :
    body_decoded rt ((k, r) :: fs) = body_decoded rt fs := by
  cases r with
  | text r => cases r <;> simp [body_decoded, h]
  | _ => simp [body_decoded, h]

theorem decode_closure_record (env name : Record) (inputs outputs items : List Record) :
    gun_db_schema_decode rt (closure_record env name inputs outputs (.text (.arr items))) =
      (gun_db_schema_decode rt env).bind fun env =>
        (gun_db_schema_decode rt name).bind fun name =>
          (decode_items rt inputs).bind fun inputs =>
            (decode_items rt outputs).bind fun outputs =>
              (decode_items rt items).map fun items => .closure env name inputs outputs [.list items] := by
  simp [closure_record, gun_db_schema_decode, property, decode_property, decode_list_property_cons_ne,
    body_decoded_cons_ne, decode_list_property, body_decoded]

theorem decode_env_reference (id : String) :
    gun_db_schema_decode rt (stored true (encode_cell_reference rt id)) = some (.cell id) := by
  simp [encode_cell_reference, make_reference, gun_db_schema_decode, property, string_property]

/-! ## The closure as a whole -/

theorem encode_closure_iff {id : String} {name : Value} {inputs outputs body : List Value} {r : Record} :
    gun_db_schema_encode rt (.closure (.cell id) name inputs outputs body) = some r ↔
      ∃ rn, lain_element_schema rt name = some rn ∧ ∃ ris, lain_element_schemas rt inputs = some ris ∧
        ∃ ros, lain_element_schemas rt outputs = some ros ∧ ∃ rb, body_encoded rt body = some rb ∧
          stringify (closure_record (encode_cell_reference rt id) rn ris ros rb) = r := by
  simp [gun_db_schema_encode, Value.is_cell, encode_env_reference, Option.bind_eq_some_iff]

/-- Every expression of the body but the first is dropped. -/
theorem encode_closure_head (env name : Value) (inputs outputs : List Value) (first : Value) (rest : List Value) :
    gun_db_schema_encode rt (.closure env name inputs outputs (first :: rest)) =
      gun_db_schema_encode rt (.closure env name inputs outputs [first]) := by
  have hbody : body_encoded rt (first :: rest) = body_encoded rt [first] := by
    cases first <;> rfl
  simp [gun_db_schema_encode, hbody]

/-- What is read back of a stored closure: nothing, where decoding one of its
parts throws. -/
theorem decode_closure_iff {json : Bool} {id : String} {rn : Record} {ris ros rs : List Record} {v : Value} :
    gun_db_schema_decode rt (stored json
        (stringify (closure_record (encode_cell_reference rt id) rn ris ros (stringify (.arr rs))))) = some v ↔
      v = ((gun_db_schema_decode rt (stored true rn)).bind fun name =>
        (decode_items rt (ris.map (stored true))).bind fun inputs =>
          (decode_items rt (ros.map (stored true))).bind fun outputs =>
            (decode_items rt (rs.map (stored true))).map fun items =>
              Value.closure (.cell id) name inputs outputs [.list items]).getD the_nothing := by
  have hrec : stored true (closure_record (encode_cell_reference rt id) rn ris ros (stringify (.arr rs))) =
      closure_record (stored true (encode_cell_reference rt id)) (stored true rn) (ris.map (stored true))
        (ros.map (stored true)) (.text (.arr (rs.map (stored true)))) := by
    simp [closure_record, stringify_eq]
  have htext : ∀ env name inputs outputs body,
      gun_db_schema_decode rt (.text (closure_record env name inputs outputs body)) =
        some ((gun_db_schema_decode rt (closure_record env name inputs outputs body)).getD the_nothing) := by
    intro env name inputs outputs body
    simp [closure_record, gun_db_schema_decode]
  rw [stringify_eq (closure_record _ _ _ _ _), stored_text, hrec, htext, decode_closure_record,
    decode_env_reference, Option.some.injEq, eq_comm]
  rfl

/-- The parts of a closure that come back: its name, inputs and outputs, and a
body of one list of elements. -/
structure PartsReturn (rt : Runtime) (name : Value) (inputs outputs body : List Value) : Prop where
  name : ElementReturns rt name
  inputs : ElementsReturn rt inputs
  outputs : ElementsReturn rt outputs
  body : ∃ items, body = [.list items] ∧ ElementsReturn rt items

theorem closure_returns (json : Bool) {name : Value} {inputs outputs body : List Value}
    (h : PartsReturn rt name inputs outputs body) (id : String) :
    ∃ r, gun_db_schema_encode rt (.closure (.cell id) name inputs outputs body) = some r ∧
      gun_db_schema_decode rt (stored json r) = some (.closure (.cell id) name inputs outputs body) := by
  obtain ⟨⟨rn, hrn, hn⟩, ⟨ris, hris, hi⟩, ⟨ros, hros, ho⟩, items, rfl, rs, hrs, hb⟩ := h
  have hbody := body_encoded_iff.2 ⟨items, [], rs, rfl, hrs, rfl⟩
  refine ⟨_, encode_closure_iff.2 ⟨rn, hrn, ris, hris, ros, hros, _, hbody, rfl⟩, ?_⟩
  rw [decode_closure_iff, hn, hi, ho, hb]
  rfl

/-- What comes back of a closure is a closure with the same name, inputs, outputs
and body only if all of its parts come back. -/
theorem parts_return (json : Bool) {id : String} {name env : Value} {inputs outputs body : List Value} {r : Record}
    (hr : gun_db_schema_encode rt (.closure (.cell id) name inputs outputs body) = some r)
    (hd : gun_db_schema_decode rt (stored json r) = some (.closure env name inputs outputs body)) :
    PartsReturn rt name inputs outputs body := by
  obtain ⟨rn, hrn, ris, hris, ros, hros, rb, hrb, rfl⟩ := encode_closure_iff.1 hr
  obtain ⟨items, rest, rs, rfl, hrs, rfl⟩ := body_encoded_iff.1 hrb
  rw [decode_closure_iff] at hd
  cases hn : gun_db_schema_decode rt (stored true rn) with
  | none => simp [hn, the_nothing] at hd
  | some name' =>
    cases hi : decode_items rt (ris.map (stored true)) with
    | none => simp [hn, hi, the_nothing] at hd
    | some inputs' =>
      cases ho : decode_items rt (ros.map (stored true)) with
      | none => simp [hn, hi, ho, the_nothing] at hd
      | some outputs' =>
        cases hb : decode_items rt (rs.map (stored true)) with
        | none => simp [hn, hi, ho, hb, the_nothing] at hd
        | some items' =>
          simp only [hn, hi, ho, hb, Option.bind_some, Option.map_some, Option.getD_some, Value.closure.injEq,
            List.cons.injEq, Value.list.injEq] at hd
          obtain ⟨-, rfl, rfl, rfl, rfl, rfl⟩ := hd
          exact ⟨⟨rn, hrn, hn⟩, ⟨ris, hris, hi⟩, ⟨ros, hros, ho⟩, items, rfl, rs, hrs, hb⟩

theorem round_trips_closure {json : Bool} {id : String} {name : Value} {inputs outputs body : List Value} :
    RoundTrips rt json (.closure (.cell id) name inputs outputs body) ↔ PartsReturn rt name inputs outputs body := by
  constructor
  · rintro ⟨r, d, hr, hd, hs⟩
    cases hs with
    | refl => exact parts_return json hr hd
  · intro h
    obtain ⟨r, hr, hd⟩ := closure_returns json h id
    exact ⟨r, _, hr, hd, .refl _⟩

/-- The parts of a closure of the language come back if and only if each of its
elements does, and the body is one list of elements. -/
theorem partsReturn_iff {name : Value} {inputs outputs body : List Value} (hname : LainElement name)
    (hinputs : ∀ v ∈ inputs, LainElement v) (houtputs : ∀ v ∈ outputs, LainElement v) (hbody : ∀ v ∈ body, Datum v) :
    PartsReturn rt name inputs outputs body ↔
      RoundTrips rt true name ∧ (∀ v ∈ inputs, RoundTrips rt true v) ∧ (∀ v ∈ outputs, RoundTrips rt true v) ∧
        ∃ items, body = [.list items] ∧ ∀ v ∈ items, LainElement v ∧ RoundTrips rt true v := by
  have hdatum : ∀ v, LainElement v → Datum v := by
    rintro v ⟨type, value, rfl, h⟩
    exact .element h
  have helement : ∀ v, LainElement v → (ElementReturns rt v ↔ RoundTrips rt true v) := by
    intro v h
    rw [elementReturns_iff (hdatum v h)]
    exact and_iff_right h
  have hlist : ∀ vs : List Value, (∀ v ∈ vs, LainElement v) → (ElementsReturn rt vs ↔ ∀ v ∈ vs, RoundTrips rt true v) := by
    intro vs h
    rw [elementsReturn_iff]
    exact forall₂_congr (fun v hv => helement v (h v hv))
  have hitems : ∀ items, body = [.list items] →
      (ElementsReturn rt items ↔ ∀ v ∈ items, LainElement v ∧ RoundTrips rt true v) := by
    rintro items rfl
    cases hbody (.list items) (by simp) with
    | list h =>
      rw [elementsReturn_iff]
      exact forall₂_congr (fun v hv => elementReturns_iff (h v hv))
  constructor
  · rintro ⟨hn, hi, ho, items, hb, hs⟩
    exact ⟨(helement name hname).1 hn, (hlist inputs hinputs).1 hi, (hlist outputs houtputs).1 ho, items, hb,
      (hitems items hb).1 hs⟩
  · rintro ⟨hn, hi, ho, items, hb, hs⟩
    exact ⟨(helement name hname).2 hn, (hlist inputs hinputs).2 hi, (hlist outputs houtputs).2 ho, items, hb,
      (hitems items hb).2 hs⟩

end LainLang.Serialize
