import LainLang.Serialize.Decode
/-!
# When a value comes back

A value is encoded and decoded again, with the record printed as JSON in between
where it stands inside a layered object or a closure (`stored`). `round_trips_iff`
says, for every well-formed value, when what comes back is the value: the names of
a map must not be the tag's, an element must not hold a list, a layered object
must not carry a walltime, a closure must have one flat body expression.
-/
open LainLang.Lib LainLang.Js

namespace LainLang.Serialize

variable {rt : Runtime}

/-! ## Values -/

/-- The values of the language: plain values, and elements and lists of them. -/
inductive Datum : Value → Prop where
  | str (s : String) : Datum (.str s)
  | text (r : Record) : Datum (.text r)
  | num (n : JsNumber) : Datum (.num n)
  | bool (b : Bool) : Datum (.bool b)
  | list {items : List Value} (h : ∀ v ∈ items, Datum v) : Datum (.list items)
  | element {type : String} {value : Value} (h : Datum value) : Datum (.element type value)

/-- An element of the language. -/
def LainElement (v : Value) : Prop := ∃ type value, v = .element type value ∧ Datum value

/-- What the runtime keeps: maps and better sets have distinct keys, a layered
object has one value in each of its layers, and the environment of a closure is a
cell. -/
inductive WellFormed (rt : Runtime) : Value → Prop where
  | datum {v : Value} (h : Datum v) : WellFormed rt v
  | element {type : String} {value : Value} (h : WellFormed rt value) : WellFormed rt (.element type value)
  | cell (id : String) : WellFormed rt (.cell id)
  | map {es : List (String × Value)} (hkeys : (es.map Prod.fst).Nodup) (h : ∀ e ∈ es, WellFormed rt e.2) :
      WellFormed rt (.map es)
  | set {ms : List Value} (hids : (ms.map rt.identify_by).Nodup) (h : ∀ m ∈ ms, ∃ s, m = .str s) :
      WellFormed rt (.set ms)
  | layered {base : Value} {layers : List (Layer × Value)} (hkeys : (layers.map Prod.fst).Nodup)
      (hbase : WellFormed rt base) (h : ∀ l ∈ layers, WellFormed rt l.2) : WellFormed rt (.layered base layers)
  | closure (id : String) {name : Value} {inputs outputs body : List Value} (hname : LainElement name)
      (hinputs : ∀ v ∈ inputs, LainElement v) (houtputs : ∀ v ∈ outputs, LainElement v)
      (hbody : ∀ v ∈ body, Datum v) : WellFormed rt (.closure (.cell id) name inputs outputs body)

/-- The same value: maps, better sets and layered objects by their keys, whatever
the order, and everything else by equality. -/
inductive Same : Value → Value → Prop where
  | refl (v : Value) : Same v v
  | element (type : String) {v d : Value} (h : Same v d) : Same (.element type v) (.element type d)
  | map {es ds : List (String × Value)} (hkeys : (ds.map Prod.fst).Perm (es.map Prod.fst))
      (h : ∀ key v d, (key, v) ∈ es → (key, d) ∈ ds → Same v d) : Same (.map es) (.map ds)
  | set {ms ds : List Value} (h : ds.Perm ms) : Same (.set ms) (.set ds)
  | layered {base base' : Value} {ls ls' : List (Layer × Value)} (hbase : Same base base')
      (hkeys : (ls'.map Prod.fst).Perm (ls.map Prod.fst))
      (h : ∀ layer v d, (layer, v) ∈ ls → (layer, d) ∈ ls' → Same v d) :
      Same (.layered base ls) (.layered base' ls')

theorem Datum.eq_of_same {v d : Value} (h : Datum v) (hs : Same v d) : d = v := by
  induction h generalizing d with
  | str s => cases hs with | refl => rfl
  | text r => cases hs with | refl => rfl
  | num n => cases hs with | refl => rfl
  | bool b => cases hs with | refl => rfl
  | list h ih => cases hs with | refl => rfl
  | element h ih =>
    cases hs with
    | refl => rfl
    | element type hs => rw [ih hs]

theorem Same.of_element {type : String} {v d : Value} (h : Same (.element type v) d) :
    ∃ d', d = .element type d' ∧ Same v d' := by
  cases h with
  | refl => exact ⟨v, rfl, .refl v⟩
  | element _ h => exact ⟨_, rfl, h⟩

/-- In a map with distinct keys, a key has one value. -/
theorem eq_of_mem_of_nodup {K V : Type} {es : List (K × V)} (hn : (es.map Prod.fst).Nodup) {k : K} {v w : V}
    (hv : (k, v) ∈ es) (hw : (k, w) ∈ es) : v = w :=
  congrArg Prod.snd (List.inj_on_of_nodup_map hn hv hw rfl)

theorem Same.of_map {es : List (String × Value)} {d : Value} (hn : (es.map Prod.fst).Nodup)
    (h : Same (.map es) d) :
    ∃ ds, d = .map ds ∧ (ds.map Prod.fst).Perm (es.map Prod.fst) ∧
      ∀ key v d, (key, v) ∈ es → (key, d) ∈ ds → Same v d := by
  cases h with
  | refl =>
    refine ⟨es, rfl, List.Perm.refl _, ?_⟩
    intro key v d hv hd
    rw [eq_of_mem_of_nodup hn hv hd]
    exact .refl d
  | map hkeys h => exact ⟨_, rfl, hkeys, h⟩

theorem Same.of_set {ms : List Value} {d : Value} (h : Same (.set ms) d) : ∃ ds, d = .set ds ∧ ds.Perm ms := by
  cases h with
  | refl => exact ⟨ms, rfl, List.Perm.refl _⟩
  | set h => exact ⟨_, rfl, h⟩

theorem Same.of_layered {base : Value} {ls : List (Layer × Value)} {d : Value}
    (hn : (ls.map Prod.fst).Nodup) (h : Same (.layered base ls) d) :
    ∃ base' ls', d = .layered base' ls' ∧ Same base base' ∧ (ls'.map Prod.fst).Perm (ls.map Prod.fst) ∧
      ∀ layer v d, (layer, v) ∈ ls → (layer, d) ∈ ls' → Same v d := by
  cases h with
  | refl =>
    refine ⟨base, ls, rfl, .refl base, List.Perm.refl _, ?_⟩
    intro layer v d hv hd
    rw [eq_of_mem_of_nodup hn hv hd]
    exact .refl d
  | layered hbase hkeys h => exact ⟨_, _, rfl, hbase, hkeys, h⟩

/-! ## Storing a record -/

/-- What is read back of a record, as it is or through its JSON text. -/
def stored (json : Bool) (r : Record) : Record := if json then json_copy r else r

theorem json_copy_items_eq (rs : List Record) : json_copy_items rs = rs.map json_copy := by
  induction rs with
  | nil => simp [json_copy_items]
  | cons r rs ih => simp [json_copy_items, ih]

theorem json_copy_fields_eq (fs : List (String × Record)) :
    json_copy_fields fs = fs.map (fun f => (f.1, json_copy f.2)) := by
  induction fs with
  | nil => simp [json_copy_fields]
  | cons f fs ih => simp [json_copy_fields, ih]

@[simp] theorem stored_obj (json : Bool) (fs : List (String × Record)) :
    stored json (.obj fs) = .obj (fs.map (fun f => (f.1, stored json f.2))) := by
  cases json with
  | true => simp [stored, json_copy, json_copy_fields_eq]
  | false => simp [stored]

@[simp] theorem stored_arr (json : Bool) (rs : List Record) :
    stored json (.arr rs) = .arr (rs.map (stored json)) := by
  cases json with
  | true =>
    simp only [stored, json_copy, json_copy_items_eq, if_true]
    rfl
  | false =>
    have hid : stored false = id := rfl
    simp [hid]

@[simp] theorem stored_str (json : Bool) (s : String) : stored json (.str s) = .str s := by
  cases json <;> simp [stored, json_copy]

@[simp] theorem stored_text (json : Bool) (r : Record) : stored json (.text r) = .text r := by
  cases json <;> simp [stored, json_copy]

@[simp] theorem stored_bool (json : Bool) (b : Bool) : stored json (.bool b) = .bool b := by
  cases json <;> simp [stored, json_copy]

theorem stringify_eq (r : Record) : stringify r = .text (stored true r) := rfl

/-- A number that JSON prints as it is: finite, and not `-0`. -/
def Printable : JsNumber → Prop
  | .finite d => d.mantissa = 0 → d.negative = false
  | _ => False

/-! ## Round trips -/

/-- `v` is encoded, stored and decoded to the same value. -/
def RoundTrips (rt : Runtime) (json : Bool) (v : Value) : Prop :=
  ∃ r d, gun_db_schema_encode rt v = some r ∧ gun_db_schema_decode rt (stored json r) = some d ∧ Same v d

theorem decode_plain (r : Record) (hr : self_evaluating r = none) :
    gun_db_schema_decode rt (plain_value_schema_encode r) = some the_nothing := by
  simp [plain_value_schema_encode, gun_db_schema_decode, property, plain_value_schema_decode, hr]

theorem decode_plain_some {r : Record} {v : Value} (hr : self_evaluating r = some v) :
    gun_db_schema_decode rt (plain_value_schema_encode r) = some v := by
  simp [plain_value_schema_encode, gun_db_schema_decode, property, plain_value_schema_decode, hr]

@[simp] theorem stored_plain (json : Bool) (r : Record) :
    stored json (plain_value_schema_encode r) = plain_value_schema_encode (stored json r) := by
  simp [plain_value_schema_encode]

theorem round_trips_str (json : Bool) (s : String) : RoundTrips rt json (.str s) :=
  ⟨plain_value_schema_encode (.str s), .str s, by simp [gun_db_schema_encode],
    by simpa using decode_plain_some rfl, .refl _⟩

theorem round_trips_text (json : Bool) (r : Record) : RoundTrips rt json (.text r) :=
  ⟨plain_value_schema_encode (.text r), .text r, by simp [gun_db_schema_encode],
    by simpa using decode_plain_some rfl, .refl _⟩

theorem round_trips_bool (json : Bool) (b : Bool) : RoundTrips rt json (.bool b) :=
  ⟨plain_value_schema_encode (.bool b), .bool b, by simp [gun_db_schema_encode],
    by simpa using decode_plain_some rfl, .refl _⟩

/-- A number with no digits is `0` or `-0`. -/
theorem ofNat_zero_iff (d : Decimal) (hm : d.mantissa = 0) :
    JsNumber.ofNat 0 = .finite d ↔ d.negative = false := by
  have hexp : d.exponent = 0 := by
    rcases d.canonical with h | h
    · simp [hm] at h
    · exact h.2
  have hz : JsNumber.ofNat 0 = .finite ⟨false, 0, 0, by simp⟩ := by simp [JsNumber.ofNat, Decimal.ofNat]
  rw [hz, JsNumber.finite.injEq]
  cases d with
  | mk negative mantissa exponent canonical =>
    simp only at hm hexp
    simp [hm, hexp, eq_comm]

theorem json_copy_num (n : JsNumber) : json_copy (.num n) = .num n ↔ Printable n := by
  cases n with
  | nan => simp [json_copy, Printable]
  | infinity negative => simp [json_copy, Printable]
  | finite d =>
    by_cases hm : d.mantissa = 0
    · simp [json_copy, Printable, hm, ofNat_zero_iff d hm]
    · simp [json_copy, Printable, hm]

theorem self_evaluating_eq_num {r : Record} {n : JsNumber} (h : self_evaluating r = some (.num n)) : r = .num n := by
  cases r <;> simp_all [self_evaluating]

theorem round_trips_num (json : Bool) (n : JsNumber) :
    RoundTrips rt json (.num n) ↔ (json = true → Printable n) := by
  have hdecode : ∀ r, gun_db_schema_decode rt (plain_value_schema_encode r) = some (.num n) ↔ r = .num n := by
    intro r
    cases hr : self_evaluating r with
    | none =>
      rw [decode_plain r hr]
      constructor
      · intro h
        cases h
      · rintro rfl
        cases hr
    | some v =>
      rw [decode_plain_some hr, Option.some.injEq]
      constructor
      · rintro rfl
        exact self_evaluating_eq_num hr
      · rintro rfl
        exact (Option.some.inj hr).symm
  have hstored : stored json (.num n) = .num n ↔ (json = true → Printable n) := by
    cases json with
    | true => simpa [stored] using json_copy_num n
    | false => simp [stored]
  rw [← hstored, ← hdecode, ← stored_plain]
  constructor
  · rintro ⟨r, d, hr, hd, hs⟩
    simp only [gun_db_schema_encode, Option.some.injEq] at hr
    rw [← hr] at hd
    rw [hd, (Datum.num n).eq_of_same hs]
  · intro hd
    exact ⟨_, .num n, by simp [gun_db_schema_encode], hd, .refl _⟩

/-- An array is stored as it is, and no schema reads it back. -/
theorem not_round_trips_list (json : Bool) (items : List Value) : ¬ RoundTrips rt json (.list items) := by
  rintro ⟨r, d, hr, hd, hs⟩
  simp only [gun_db_schema_encode, Option.some.injEq] at hr
  subst hr
  rw [stored_plain, stored_arr, decode_plain _ rfl] at hd
  cases hs with
  | refl => cases hd

theorem stored_element_schema (json : Bool) (type : String) (r : Record) :
    stored json (element_schema type r) = element_schema type (stored json r) := by
  simp [element_schema]

theorem decode_element_schema (type : String) (r : Record) :
    gun_db_schema_decode rt (element_schema type r) = (gun_db_schema_decode rt r).map (.element type) := by
  simp [element_schema, gun_db_schema_decode, property, decode_property]

theorem round_trips_element (json : Bool) (type : String) (v : Value) :
    RoundTrips rt json (.element type v) ↔ RoundTrips rt json v := by
  constructor
  · rintro ⟨r, d, hr, hd, hs⟩
    simp only [gun_db_schema_encode, Option.map_eq_some_iff] at hr
    obtain ⟨r', hr', rfl⟩ := hr
    rw [stored_element_schema, decode_element_schema, Option.map_eq_some_iff] at hd
    obtain ⟨d', hd', rfl⟩ := hd
    obtain ⟨d'', heq, hs'⟩ := hs.of_element
    cases heq
    exact ⟨r', d', hr', hd', hs'⟩
  · rintro ⟨r, d, hr, hd, hs⟩
    refine ⟨element_schema type r, .element type d, ?_, ?_, .element type hs⟩
    · simp [gun_db_schema_encode, hr]
    · rw [stored_element_schema, decode_element_schema, hd]
      rfl

end LainLang.Serialize
