import LainLang.Grpc.Stream
/-!
# The runtime output bridge

Runtime outputs pass two loop guards on their way to the session queue: one
compares with the session's slot map, which only the client's pushes write, the
other with the last output forwarded. `heard` is the client's side of it, what
it pushed and what was forwarded to it, latest first.
-/
open LainLang.Lib LainLang.Js

namespace LainLang.Grpc

/-! ## Signatures -/

/-- A value without layers: data, or another value with what `JSON.stringify`
prints for it, `none` if it throws, and its `String`. -/
inductive BaseValue where
  | data (v : Option Json)
  | other (printed : Option String) (text : String)

/-- The bridge's copy of `value_signature`. -/
def BaseValue.signature : BaseValue → String
  | .data v => value_signature v
  | .other (some printed) _ => "json:" ++ printed
  | .other none text => "string:" ++ text

/-- What the bridge asks of the layer library: the base of a runtime value, and
the JSON it is sent as. -/
structure LayerLibrary where
  Val : Type
  get_base_value : Val → BaseValue
  encode_value : Val → Option Json

variable {lib : LayerLibrary}

/-- The signature of what is under the layers. -/
def base_value_signature (value : lib.Val) : String := (lib.get_base_value value).signature

/-! ## The bridge -/

/-- The slot of every runtime output is `::this`. -/
structure RuntimeCardOutputEvent (lib : LayerLibrary) where
  cardId : String
  value : lib.Val

/-- The traced actions. -/
inductive RuntimeBridgeTrace where
  | runtime_output_skipped_equal_state
  | runtime_output_skipped_equal_outbox
  | runtime_output_forwarded

/-- A value of a key that the client has: its own, or one forwarded to it. -/
inductive Heard (lib : LayerLibrary) where
  | pushed (key : String) (value : Option Json)
  | forwarded (key : String) (value : lib.Val)

/-- The slot key it is about. -/
def Heard.key : Heard lib → String
  | pushed key _ => key
  | forwarded key _ => key

/-- The signature of the value, as it is compared. -/
def Heard.signature : Heard lib → String
  | pushed _ value => value_signature value
  | forwarded _ value => base_value_signature value

/-- The session a runtime output is forwarded to, with the outbox. -/
structure Bridge (lib : LayerLibrary) where
  stream : Stream
  outbox : OrdMap String String
  disposed : Bool
  traced : List (RuntimeBridgeTrace × RuntimeCardOutputEvent lib)
  heard : List (Heard lib)

/-- The latest value of a key known to the client. -/
def Bridge.latest (b : Bridge lib) (key : String) : Option (Heard lib) := b.heard.find? (·.key = key)

/-- The value of the client's last push of a key. -/
def lastPush (key : String) (heard : List (Heard lib)) : Option (Option Json) :=
  heard.findSome? fun
    | .pushed k value => if k = key then some value else none
    | .forwarded .. => none

/-- The value last forwarded for a key. -/
def lastForward (key : String) (heard : List (Heard lib)) : Option lib.Val :=
  heard.findSome? fun
    | .pushed .. => none
    | .forwarded k value => if k = key then some value else none

/-- The slot map has the client's last push of a key, and the outbox the
signature of the value last forwarded. -/
structure Remembers (b : Bridge lib) : Prop where
  live : b.disposed = false
  slots : ∀ cardId, (b.stream.session.slotMap.get? (cardId ++ slot_this)).map (·.value) =
    lastPush (cardId ++ slot_this) b.heard
  outbox : ∀ key, b.outbox.get? key = (lastForward key b.heard).map base_value_signature

end LainLang.Grpc
