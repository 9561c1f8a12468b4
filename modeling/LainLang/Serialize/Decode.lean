import LainLang.Serialize.Schemas
/-!
# Decoding

`gun_db_schema_decode` on stored data. A record is decoded by its `type`; data
that no schema matches is a plain value or nothing. A string that is the text of
an object is parsed and decoded, and an error in there is caught.

A reference to a cell is decoded to the cell of that id: the local one, or a
receiver made with the id of the reference.
-/
open LainLang.Lib LainLang.Js

namespace LainLang.Serialize

/-- `is_self_evaluating`, on stored data: the value it is. -/
def self_evaluating : Record → Option Value
  | .str s => some (.str s)
  | .text r => some (.text r)
  | .num n => some (.num n)
  | .bool b => some (.bool b)
  | _ => none

/-- `is_json_string`, on a string that is not the text of an object: one that
looks like it fails to parse. -/
def is_json_string (s : String) : Bool :=
  startsWith (trim s) "\x7b" && endsWith (trim s) "\x7d"

/-- A field that must be a string; `none` where the code makes something else of
the record than the model has a value for. -/
def string_property (fields : List (String × Record)) (key : String) : Option String :=
  match property fields key with
  | some (.str s) => some s
  | _ => none

/-- The handler for what no schema matches. -/
def plain_value_schema_decode (fields : List (String × Record)) : Value :=
  ((property fields "value").bind self_evaluating).getD the_nothing

/-- `construct_better_set` of generic-handler, assumed to do what it documents: a set of
the members by their identifiers, in the order they came. -/
def construct_better_set (rt : Runtime) (members : List Value) : Value :=
  .set ((members.foldl (fun es v => OrdMap.setEntries (rt.identify_by v) v es) []).map Prod.snd)

mutual

/-- `gun_db_schema_decode`; `none` where it throws. -/
def gun_db_schema_decode (rt : Runtime) : Record → Option Value
  | .null => some the_nothing
  | .bool b => some (.bool b)
  | .num n => some (.num n)
  | .str s => some (if is_json_string s then the_nothing else .str s)
  | .text (.obj fields) =>
    -- parsed and decoded; an error is logged and the result is nothing
    some ((gun_db_schema_decode rt (.obj fields)).getD the_nothing)
  | .text r => some (.text r)
  | .arr _ => some the_nothing
  | .live => some the_nothing
  | .obj fields =>
    match property fields "type" with
    | some (.str "cell") => (string_property fields "id").map .cell
    | some (.str "MAP") => (map_schema_decode rt fields).map (fun es => .map (propertyOrder es))
    | some (.str "set") =>
      (map_schema_decode rt fields).map (fun es => construct_better_set rt ((propertyOrder es).map Prod.snd))
    | some (.str "layered_object") =>
      (decode_property rt "base" fields).bind fun base =>
        (layered_object_schema_decode rt fields).map fun layers => .layered base layers
    | some (.str "lain_element") =>
      match property fields "element_type" with
      | some (.str type) => (decode_property rt "value" fields).map (.element type)
      | some _ => none
      | none => (decode_property rt "value" fields).map .untyped
    | some (.str "closure") =>
      (decode_property rt "env" fields).bind fun env =>
        (decode_property rt "name" fields).bind fun name =>
          (decode_list_property rt "inputs" fields).bind fun inputs =>
            (decode_list_property rt "outputs" fields).bind fun outputs =>
              (body_decoded rt fields).map fun items => .closure env name inputs outputs [.list items]
    | some (.str "reference") =>
      match property fields "ref_type" with
      | some (.str "cell") => (string_property fields "id").map .cell
      | _ => some (plain_value_schema_decode fields)
    | _ => some (plain_value_schema_decode fields)

/-- `map_schema_decode`: the entries but the tag. -/
def map_schema_decode (rt : Runtime) : List (String × Record) → Option (List (String × Value))
  | [] => some []
  | (key, r) :: fs =>
    if key = "type" then map_schema_decode rt fs
    else (gun_db_schema_decode rt r).bind fun v => (map_schema_decode rt fs).map ((key, v) :: ·)

/-- The layers `layered_object_schema_decode` recognises; any other is skipped. -/
def layered_object_schema_decode (rt : Runtime) : List (String × Record) → Option (List (Layer × Value))
  | [] => some []
  | (key, r) :: fs =>
    if key = "vector_clock" then
      (gun_db_schema_decode rt r).bind fun v => (layered_object_schema_decode rt fs).map ((.vector_clock, v) :: ·)
    else if key = "support" then
      (gun_db_schema_decode rt r).bind fun v => (layered_object_schema_decode rt fs).map ((.support, v) :: ·)
    else layered_object_schema_decode rt fs

/-- `decode(schema.key)`. -/
def decode_property (rt : Runtime) (key : String) : List (String × Record) → Option Value
  | [] => some the_nothing
  | (k, r) :: fs => if k = key then gun_db_schema_decode rt r else decode_property rt key fs

/-- `schema.key.map(decode)`. -/
def decode_list_property (rt : Runtime) (key : String) : List (String × Record) → Option (List Value)
  | [] => none
  | (k, .arr items) :: fs => if k = key then decode_items rt items else decode_list_property rt key fs
  | (k, _) :: fs => if k = key then none else decode_list_property rt key fs

/-- `body_decoded`, without the array it wraps the result in. -/
def body_decoded (rt : Runtime) : List (String × Record) → Option (List Value)
  | [] => none
  | (k, .text (.arr items)) :: fs => if k = "body" then decode_items rt items else body_decoded rt fs
  | (k, _) :: fs => if k = "body" then none else body_decoded rt fs

/-- The items of an array record, in their order. -/
def decode_items (rt : Runtime) : List Record → Option (List Value)
  | [] => some []
  | r :: rs => (gun_db_schema_decode rt r).bind fun v => (decode_items rt rs).map (v :: ·)

end

end LainLang.Serialize
