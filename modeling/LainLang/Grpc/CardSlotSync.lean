import LainLang.Grpc.Codec
import Mathlib.Data.List.Dedup
/-!
# From slot maps to card events

`diff_slot_maps_to_card_api_events` compares two slot maps and lists the card
operations that lead from one to the other: detaches, removes, adds, connects
and updates, in this order.
-/
open LainLang.Lib LainLang.Js

namespace LainLang.Grpc

def slot_left : String := "::left"
def slot_right : String := "::right"
def slot_above : String := "::above"
def slot_below : String := "::below"
def slot_this : String := "::this"
def slot_code : String := "code"

/-- `StructuralEdge`: a slot of a card that points at a slot of another. -/
structure StructuralEdge where
  from_id : String
  from_slot : String
  to_id : String
  to_slot : String
  deriving DecidableEq

/-- What a diff of slot maps asks the cards to do. -/
inductive CardApiEvent where
  | card_detach (from_id to_id : String)
  | card_remove (card_id : String)
  | card_add (card_id : String)
  | card_connect (from_id from_slot to_id to_slot : String)
  | card_update (card_id : String) (value : Option Json)

/-- The slots that connect. -/
def directional_slots : List String := [slot_left, slot_right, slot_above, slot_below]

/-- The slot on the other side. -/
def inverse_slot (slot : String) : Option String :=
  if slot = slot_left then some slot_right
  else if slot = slot_right then some slot_left
  else if slot = slot_above then some slot_below
  else if slot = slot_below then some slot_above
  else none

/-! ## The card a slot refers to -/

/-- The fields of an object; an array has none of the fields read below. -/
def to_record : Option Json → Option (List (String × Json))
  | some (.obj fields) => some fields
  | some (.arr _) => some []
  | _ => none

/-- A string that is not empty. -/
def nonEmptyString : Option Json → Option String
  | some (.str s) => if s.length > 0 then some s else none
  | _ => none

/-- The ids an object can carry, in the order they are tried. -/
def looseId (obj : List (String × Json)) : Option Json :=
  orElseNullish (property obj "card_id") (orElseNullish (property obj "cardId")
    (orElseNullish (property obj "target_id") (property obj "targetId")))

/-- The id in an object tagged `CardIdRef`. -/
def taggedId (obj : List (String × Json)) : Option Json :=
  let tag := orElseNullish (property obj "kind") (orElseNullish (property obj "type") (property obj "tag"))
  match tag with
  | some (.str "CardIdRef") => orElseNullish (looseId obj) (property obj "id")
  | _ => none

/-- `extract_card_id_ref`: the id in the value before the own id. -/
def extract_card_id_ref (ref : CardRefData) : Option String :=
  let ownId := if ref.id.length > 0 then some ref.id else none
  match ref.value with
  | some (.arr (.str "CardIdRef" :: .str target :: _)) => some target
  | value =>
    match to_record value with
    | some obj => (nonEmptyString (taggedId obj)).or ((nonEmptyString (looseId obj)).or ownId)
    | none => ownId

/-! ## Cards and connections of a slot map -/

/-- Card ids of the slot map's keys, without the empty one. -/
def collect_card_ids (slot_map : CompileRequestData) : List String :=
  (((objectKeys slot_map).map (fun key => (key_to_card_and_slot key).card_id)).filter
    (fun id => decide (id.length > 0))).eraseDups

/-- The key of an edge. -/
def edgeKey (e : StructuralEdge) : String :=
  e.from_id ++ "|" ++ e.from_slot ++ "|" ++ e.to_id ++ "|" ++ e.to_slot

/-- The edge seen from the other card. -/
def reverseEdge (e : StructuralEdge) : StructuralEdge := ⟨e.to_id, e.to_slot, e.from_id, e.from_slot⟩

/-- A connection and its mirror image are filed under the smaller of their keys. -/
def canonical_key (direct : StructuralEdge) : String :=
  if stringLe (edgeKey direct) (edgeKey (reverseEdge direct)) then edgeKey direct else edgeKey (reverseEdge direct)

/-- `canonical_edge`: of the two directions the one with the smaller key. -/
def canonical_edge (direct : StructuralEdge) : StructuralEdge :=
  if stringLe (edgeKey direct) (edgeKey (reverseEdge direct)) then direct else reverseEdge direct

/-- The connection a slot declares, if it is directional and names a card. -/
def declaredEdge (key : String) (ref : CardRefData) : Option StructuralEdge :=
  let parsed := key_to_card_and_slot key
  if parsed.slot ∉ directional_slots then none
  else match extract_card_id_ref ref with
    | none => none
    | some to_id =>
      if to_id.length = 0 then none
      else (inverse_slot parsed.slot).map (fun to_slot => ⟨parsed.card_id, parsed.slot, to_id, to_slot⟩)

/-- The canonical edges that a slot map declares, by their keys. -/
def collect_edges (slot_map : CompileRequestData) : OrdMap String StructuralEdge :=
  (objectEntries slot_map).foldl
    (fun out entry => match declaredEdge entry.1 entry.2 with
      | none => out
      | some direct => out.set (canonical_key direct) (canonical_edge direct))
    .empty

/-! ## The diff -/

/-- Values are compared by the signature. -/
def value_signature : Option Json → String
  | some .null => "object:null"
  | some (.str s) => "string:" ++ s
  | some (.num n) => "number:" ++ n.toText
  | some (.bool b) => "boolean:" ++ (if b then "true" else "false")
  | some value => "json:" ++ stringify value
  | none => "json:undefined"

/-- `sync_code_slots`: an update for each code slot whose value changed. -/
def sync_code_slots (prev_slot_map next_slot_map : CompileRequestData) : List CardApiEvent :=
  (objectEntries next_slot_map).filterMap (fun entry =>
    let parsed := key_to_card_and_slot entry.1
    if parsed.slot ≠ slot_code then none
    else match prev_slot_map.get? entry.1 with
      | some prev =>
        if value_signature prev.value = value_signature entry.2.value then none
        else some (.card_update parsed.card_id entry.2.value)
      | none => some (.card_update parsed.card_id entry.2.value))

/-- Edges that are gone. -/
def detachEvents (prev_edges next_edges : OrdMap String StructuralEdge) : List CardApiEvent :=
  prev_edges.entries.filterMap (fun e =>
    if next_edges.has e.1 then none else some (.card_detach e.2.from_id e.2.to_id))

/-- Cards that are gone. -/
def removeEvents (prev_cards next_cards : List String) : List CardApiEvent :=
  (prev_cards.filter (fun id => id ∉ next_cards)).map .card_remove

/-- Cards that are new, sorted. -/
def addEvents (prev_cards next_cards : List String) : List CardApiEvent :=
  (sortStrings (next_cards.filter (fun id => id ∉ prev_cards))).map .card_add

/-- Edges that are new. -/
def connectEvents (prev_edges next_edges : OrdMap String StructuralEdge) : List CardApiEvent :=
  next_edges.entries.filterMap (fun e =>
    if prev_edges.has e.1 then none
    else some (.card_connect e.2.from_id e.2.from_slot e.2.to_id e.2.to_slot))

/-- `diff_slot_maps_to_card_api_events`: detach, remove, add, connect, update. -/
def diff_slot_maps_to_card_api_events (prev_slot_map next_slot_map : CompileRequestData) : List CardApiEvent :=
  let prev_edges := collect_edges prev_slot_map
  let next_edges := collect_edges next_slot_map
  let prev_cards := collect_card_ids prev_slot_map
  let next_cards := collect_card_ids next_slot_map
  detachEvents prev_edges next_edges ++ removeEvents prev_cards next_cards ++
    addEvents prev_cards next_cards ++ connectEvents prev_edges next_edges ++
    sync_code_slots prev_slot_map next_slot_map

end LainLang.Grpc
