import LainLang.Js.Json
import LainLang.Js.Object
/-!
# What is stored of a runtime value

`Value` is what the runtime encodes: plain values, elements of the language,
environment maps, better sets, layered objects and closures, with a cell known
by its id. `Record` is what the database holds: plain data, told apart by the
field `type`.

`gun_db_schema_encode` dispatches on the class of a value, and at most one of
its handlers takes a value of each constructor. `gun_db_schema_decode` dispatches
on `type`, and every tag is another string, so in both the order in which the
handlers were registered does not matter. Primitives, propagators and neighbors
have schemas of their own and are left out.
-/
open LainLang.Lib LainLang.Js

namespace LainLang.Serialize

/-! ## Records -/

/-- What is stored. `text r` is the string that `JSON.stringify` prints for `r`,
kept as what `JSON.parse` reads back; `str` is any other string. `live` is a
runtime object that stands in stored data as it is. -/
inductive Record where
  | null
  | bool (b : Bool)
  | num (n : JsNumber)
  | str (s : String)
  | text (r : Record)
  | arr (items : List Record)
  | obj (fields : List (String × Record))
  | live

/-- `record[key] = value`. Assigning to `__proto__` sets the prototype, which is
not stored, and no property. -/
def assign (fields : List (String × Record)) (key : String) (value : Record) : List (String × Record) :=
  if key = "__proto__" then fields else OrdMap.setEntries key value fields

/-- `record[key] = value` for every entry of a list, in order. -/
def assignEntries (fields entries : List (String × Record)) : List (String × Record) :=
  entries.foldl (fun fields e => assign fields e.1 e.2) fields

mutual

/-- `JSON.parse(JSON.stringify(record))`: a number that is not finite becomes
`null`, and `-0` becomes `0`. -/
def json_copy : Record → Record
  | .num (.finite d) => if d.mantissa = 0 then .num (.ofNat 0) else .num (.finite d)
  | .num _ => .null
  | .arr items => .arr (json_copy_items items)
  | .obj fields => .obj (json_copy_fields fields)
  | r => r

/-- The items of a record, copied. -/
def json_copy_items : List Record → List Record
  | [] => []
  | r :: rs => json_copy r :: json_copy_items rs

/-- The fields of a record, copied. -/
def json_copy_fields : List (String × Record) → List (String × Record)
  | [] => []
  | (k, r) :: fs => (k, json_copy r) :: json_copy_fields fs

end

/-- `JSON.stringify(record)`. -/
def stringify (r : Record) : Record := .text (json_copy r)

/-! ## Values -/

/-- The annotation layers the runtime attaches. -/
inductive Layer where
  | vector_clock
  | support
  | walltime
deriving DecidableEq, Repr

/-- `layer.get_name()`. -/
def Layer.get_name : Layer → String
  | vector_clock => "vector_clock"
  | support => "support"
  | walltime => "walltime"

/-- A value of the runtime. An element of the language is `{type, value}`, and
`untyped` is one whose type is `undefined`; a list of expressions is a plain array. -/
inductive Value where
  | str (s : String)
  | text (r : Record)
  | num (n : JsNumber)
  | bool (b : Bool)
  | list (items : List Value)
  | element (type : String) (value : Value)
  | untyped (value : Value)
  | cell (id : String)
  | map (entries : List (String × Value))
  | set (members : List Value)
  | layered (base : Value) (layers : List (Layer × Value))
  | closure (env name : Value) (inputs outputs body : List Value)

/-- The content of an empty cell. -/
def the_nothing : Value := .str "&&the_nothing&&"

/-- A value that is a cell. -/
def Value.is_cell : Value → Bool
  | cell _ => true
  | _ => false

/-- What the codec asks of the rest of the runtime: the name of a cell, what the
encoder makes of its content, its strongest value and its neighbors (`none` where
it throws), the identifier of a member of a better set, and whether `throw_error`,
called as the encoder calls it, comes back. -/
structure Runtime where
  cell_name : String → String
  cell_contents : String → Option (Record × Record × Record)
  identify_by : Value → String
  throw_error_returns : Bool

/-! ## Schemas -/

/-- A record under `value`. -/
def plain_value_schema_encode (value : Record) : Record := .obj [("value", value)]

/-- The record of a reference. -/
def make_reference (ref_type id name : String) : Record :=
  .obj [("type", .str "reference"), ("ref_type", .str ref_type), ("id", .str id), ("name", .str name)]

/-- A cell is stored as a reference to it. -/
def encode_cell_reference (rt : Runtime) (id : String) : Record :=
  make_reference "cell" id (rt.cell_name id)

/-- A cell with its contents; none when the cell is not known. -/
def cell_schema_encode (rt : Runtime) (id : String) : Option Record :=
  (rt.cell_contents id).map fun contents =>
    .obj [("type", .str "cell"), ("id", .str id), ("name", .str (rt.cell_name id)),
      ("content", contents.1), ("strongest", contents.2.1), ("neighbors", contents.2.2)]

/-- The schema of an element whose value is encoded. -/
def element_schema (type : String) (value : Record) : Record :=
  .obj [("type", .str "lain_element"), ("element_type", .str type), ("value", value)]

/-- The schema of what has neither a type nor a value: the text of a record has no
fields that are `undefined`. -/
def untyped_schema : Record := .obj [("type", .str "lain_element")]

/-- `closure_schema` on its encoded parts. -/
def closure_record (env name : Record) (inputs outputs : List Record) (body : Record) : Record :=
  .obj [("type", .str "closure"), ("env", env), ("name", name), ("inputs", .arr inputs),
    ("outputs", .arr outputs), ("body", body)]

mutual

/-- A value as plain data: what an array holds that is stored as it is. -/
def raw : Value → Record
  | .str s => .str s
  | .text r => .text r
  | .num n => .num n
  | .bool b => .bool b
  | .list items => .arr (raw_items items)
  | .element type value => .obj [("type", .str type), ("value", raw value)]
  | .untyped value => .obj [("value", raw value)]
  | _ => .live

/-- The items as they are. -/
def raw_items : List Value → List Record
  | [] => []
  | v :: vs => raw v :: raw_items vs

end

mutual

/-- `gun_db_schema_encode`; `none` where it throws. -/
def gun_db_schema_encode (rt : Runtime) : Value → Option Record
  | .str s => some (plain_value_schema_encode (.str s))
  | .text r => some (plain_value_schema_encode (.text r))
  | .num n => some (plain_value_schema_encode (.num n))
  | .bool b => some (plain_value_schema_encode (.bool b))
  -- no schema matches an array: it is stored as it is
  | .list items => some (plain_value_schema_encode (.arr (raw_items items)))
  | .element type value => (gun_db_schema_encode rt value).map (element_schema type)
  -- without a type it is no element, but a plain object
  | .untyped value => some (plain_value_schema_encode (.obj [("value", raw value)]))
  | .cell id => cell_schema_encode rt id
  | .map entries => (map_schema rt entries).map fun es => .obj (assignEntries [("type", .str "MAP")] es)
  | .set members => (set_schema rt members).map fun es => .obj (assignEntries [("type", .str "set")] es)
  | .layered base layers =>
    (gun_db_schema_encode rt base).bind fun base =>
      (layered_object_schema rt layers).map fun es =>
        stringify (.obj (assignEntries [("type", .str "layered_object"), ("base", base)] es))
  | .closure env name inputs outputs body =>
    (if env.is_cell then encode_env_reference rt env else gun_db_schema_encode rt env).bind fun env =>
      (lain_element_schema rt name).bind fun name =>
        (lain_element_schemas rt inputs).bind fun inputs =>
          (lain_element_schemas rt outputs).bind fun outputs =>
            (body_encoded rt body).map fun body => stringify (closure_record env name inputs outputs body)

/-- The reference that stands for a closure's environment. -/
def encode_env_reference (rt : Runtime) : Value → Option Record
  | .cell id => some (encode_cell_reference rt id)
  | _ => none

/-- The entries `map_schema` writes: a cell is written as a reference. -/
def map_schema (rt : Runtime) : List (String × Value) → Option (List (String × Record))
  | [] => some []
  | (key, .cell id) :: es => (map_schema rt es).map ((key, encode_cell_reference rt id) :: ·)
  | (key, value) :: es =>
    (gun_db_schema_encode rt value).bind fun r => (map_schema rt es).map ((key, r) :: ·)

/-- The entries `set_schema_encode` writes. -/
def set_schema (rt : Runtime) : List Value → Option (List (String × Record))
  | [] => some []
  | v :: vs => (gun_db_schema_encode rt v).bind fun r => (set_schema rt vs).map ((rt.identify_by v, r) :: ·)

/-- The layers `layered_object_schema` writes. -/
def layered_object_schema (rt : Runtime) : List (Layer × Value) → Option (List (String × Record))
  | [] => some []
  | (layer, value) :: ls =>
    (gun_db_schema_encode rt value).bind fun r => (layered_object_schema rt ls).map ((layer.get_name, r) :: ·)

/-- `lain_element_schema`. An array has no type and no value: its value is
`undefined` to the encoder, which calls `throw_error` and returns `undefined`. -/
def lain_element_schema (rt : Runtime) : Value → Option Record
  | .element type value => (gun_db_schema_encode rt value).map (element_schema type)
  | .untyped value => (gun_db_schema_encode rt value).map fun r => .obj [("type", .str "lain_element"), ("value", r)]
  | _ => if rt.throw_error_returns then some untyped_schema else none

/-- The elements of a list, in their order. -/
def lain_element_schemas (rt : Runtime) : List Value → Option (List Record)
  | [] => some []
  | v :: vs => (lain_element_schema rt v).bind fun r => (lain_element_schemas rt vs).map (r :: ·)

/-- `body_encoded`: the elements of the first expression of the body. -/
def body_encoded (rt : Runtime) : List Value → Option Record
  | .list items :: _ => (lain_element_schemas rt items).map fun rs => stringify (.arr rs)
  -- `body[0]` is missing, or no array
  | _ => none

end

end LainLang.Serialize
