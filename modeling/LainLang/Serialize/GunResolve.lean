import LainLang.Js.Json
import LainLang.Lib.OrdMap
import Mathlib.Data.List.Perm.Basic
/-!
# Resolving Gun data

`resolve_gun_object` walks an object, and for every reference reads the node it
names and walks that. The walk runs until it has to wait: up to there it has
marked every reference it met as visited, in order. Then the reads come back in
any order, and each one walks on from its node with the same set of visited
nodes.

`Pending` is the tree of promises of a run: `caught` is the `try` around a read,
`all` a `Promise.all`. `Step` is one read that comes back.
-/
open LainLang.Lib LainLang.Js

namespace LainLang.Serialize

/-! ## Gun data -/

/-- `is_gun_reference`, with the soul it refers to. -/
def gun_reference (fields : List (String × Json)) : Option String :=
  match Js.property fields "#" with
  | some (.str id) => if fields.all (fun f => f.1 = "#" || f.1 = "_") then some id else none
  | _ => none

/-- A node under its own soul. -/
def is_gun_node (key : String) : Json → Bool
  | .obj node =>
    match Js.property node "_" with
    | some (.obj soul) =>
      match Js.property soul "#" with
      | some (.str id) => id = key
      | _ => false
    | _ => false
  | _ => false

/-- At least two fields, all of them nodes under their souls. -/
def is_gun_graph (fields : List (String × Json)) : Bool :=
  2 ≤ fields.length && fields.all (fun f => is_gun_node f.1 f.2)

/-- A field that is walked: all of a graph, and all but the metadata of a node. -/
def is_data (graph : Bool) (key : String) : Bool := graph || key ≠ "_"

/-- What is stored under each soul. -/
abbrev GunStore := OrdMap String Json

/-- `read_gun_node`; `none` is the `null` it resolves to for a node that is
missing or empty. -/
def read_gun_node (gun : GunStore) (id : String) : Option Json :=
  match gun.get? id with
  | none => none
  | some .null => none
  | some (.obj []) => none
  | some (.arr []) => none
  | some data => some data

/-! ## The walk -/

/-- A promise that waits for nothing but a read. -/
inductive Leaf where
  | value (v : Json)
  | failed
  | reading (id : String)
  /-- The `null` returned for a reference that is already visited. -/
  | circular (id : String)

/-- The promises of a run. An array is a `Promise.all` whose keys do not matter. -/
inductive Pending where
  | leaf (l : Leaf)
  | caught (p : Pending)
  | all (array : Bool) (items : List (String × Pending))

/-- `maxDepth = 100`. -/
def maxDepth : ℕ := 100

/-- `resolve_gun_reference`, up to its read. -/
def resolve_gun_reference (visited : List String) (id : String) : Pending × List String :=
  if id ∈ visited then (.leaf (.circular id), visited) else (.leaf (.reading id), id :: visited)

mutual

/-- `resolve_gun_object`, up to its reads. -/
def resolve_gun_object (depth : ℕ) (visited : List String) : Json → Pending × List String
  | .arr items =>
    if maxDepth < depth then (.leaf .failed, visited)
    else ((.all true (resolve_items (depth + 1) visited items).1), (resolve_items (depth + 1) visited items).2)
  | .obj fields =>
    if maxDepth < depth then (.leaf .failed, visited)
    else match gun_reference fields with
      | some id => resolve_gun_reference visited id
      | none =>
        -- the nodes of a graph start at depth 0 again
        let start := if is_gun_graph fields then 0 else depth + 1
        (.all false (resolve_fields (is_gun_graph fields) start visited fields).1,
          (resolve_fields (is_gun_graph fields) start visited fields).2)
  | v => if maxDepth < depth then (.leaf .failed, visited) else (.leaf (.value v), visited)

/-- The items of an array, one after the other. -/
def resolve_items (depth : ℕ) (visited : List String) : List Json → List (String × Pending) × List String
  | [] => ([], visited)
  | v :: vs =>
    let r := resolve_gun_object depth visited v
    let rs := resolve_items depth r.2 vs
    (("", r.1) :: rs.1, rs.2)

/-- The fields of an object, one after the other, with what has been visited. -/
def resolve_fields (graph : Bool) (depth : ℕ) (visited : List String) :
    List (String × Json) → List (String × Pending) × List String
  | [] => ([], visited)
  | (key, v) :: fs =>
    if is_data graph key then
      let r := resolve_gun_object depth visited v
      let rs := resolve_fields graph depth r.2 fs
      ((key, r.1) :: rs.1, rs.2)
    else resolve_fields graph depth visited fs

end

/-- What a read continues with. -/
def continue_reading (gun : GunStore) (visited : List String) (id : String) : Pending × List String :=
  match read_gun_node gun id with
  | none => (.leaf (.value .null), visited)
  | some data => (.caught (resolve_gun_object 0 visited data).1, (resolve_gun_object 0 visited data).2)

/-- A read comes back. -/
inductive Step (gun : GunStore) : List String → Pending → String → List String → Pending → Prop where
  | read (visited : List String) (id : String) :
      Step gun visited (.leaf (.reading id)) id (continue_reading gun visited id).2 (continue_reading gun visited id).1
  | caught {visited visited' : List String} {p p' : Pending} {id : String} (h : Step gun visited p id visited' p') :
      Step gun visited (.caught p) id visited' (.caught p')
  | all {visited visited' : List String} {p p' : Pending} {id : String} (array : Bool)
      (before after : List (String × Pending)) (key : String) (h : Step gun visited p id visited' p') :
      Step gun visited (.all array (before ++ (key, p) :: after)) id visited'
        (.all array (before ++ (key, p') :: after))

/-- The nodes read so far, the visited set and the promises, in a run of
`gun_resolve` on an object. -/
inductive Reaches (gun : GunStore) (obj : Json) : List String → List String → Pending → Prop where
  | start : Reaches gun obj [] (resolve_gun_object 0 [] obj).2 (resolve_gun_object 0 [] obj).1
  | step {ids visited visited' : List String} {p p' : Pending} {id : String} (h : Reaches gun obj ids visited p)
      (hstep : Step gun visited p id visited' p') : Reaches gun obj (ids ++ [id]) visited' p'

/-! ## What a promise is settled with -/

/-- `Promise.all`: rejected as soon as one is, fulfilled when all are. -/
def promise_all (key : String) : Option (Option Json) → Option (Option (List (String × Json))) →
    Option (Option (List (String × Json)))
  | some none, _ => some none
  | _, some none => some none
  | some (some v), some (some vs) => some (some ((key, v) :: vs))
  | _, _ => none

/-- The array or object built of the values: assigning `__proto__` makes no
property. -/
def build (array : Bool) (entries : List (String × Json)) : Json :=
  if array then .arr (entries.map Prod.snd) else .obj (entries.filter (fun e => e.1 ≠ "__proto__"))

mutual

/-- `none` while it waits, `some none` if it is rejected. -/
def outcome : Pending → Option (Option Json)
  | .leaf (.value v) => some (some v)
  | .leaf .failed => some none
  | .leaf (.reading _) => none
  | .leaf (.circular _) => some (some .null)
  | .caught p => (outcome p).map (fun o => some (o.getD .null))
  | .all array items => (outcomes items).map (fun o => o.map (build array))

/-- `Promise.all` over pending fields. -/
def outcomes : List (String × Pending) → Option (Option (List (String × Json)))
  | [] => some (some [])
  | (key, p) :: ps => promise_all key (outcome p) (outcomes ps)

end

end LainLang.Serialize
