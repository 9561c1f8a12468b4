import LainLang.Lib.Codes
import LainLang.Tracer.Upstream
/-!
# The signature of a drawn graph

A tracer tells its graph from the one it showed last by `graph_signature`, a text
of the sorted nodes and edges. The text is the same for graphs with the same nodes,
labels and edges, and for no others as long as the separators stay out of the ids
and out of the labels.
-/
open LainLang.Lib LainLang.Js

namespace LainLang.Tracer

/-- `String(graph.getNodeAttribute(id, "label") ?? "")`, of a label that is a string. -/
def label_text (attrs : Attributes) : String :=
  match get_attr attrs "label" with
  | .atom (.str s) => s
  | _ => ""

/-- A node with its label. -/
def nodeText (node : String × Attributes) : String := node.1 ++ ":" ++ label_text node.2

/-- `graph_signature`: sorted nodes and sorted edges. -/
def graph_signature (g : DirectedGraph) : String :=
  let nodes := sortStrings (g.nodes.entries.map nodeText)
  let edges := sortStrings (g.edges.map pairKey)
  ";".intercalate nodes ++ "||" ++ ";".intercalate edges

/-- The label of a node, `none` where there is no such node. -/
def DirectedGraph.label? (g : DirectedGraph) (id : String) : Option String := (g.nodes.get? id).map label_text

instance : Std.Total fun a b : String => stringLe a b = true :=
  ⟨fun a b => by simpa [stringLe] using le_total (utf16 a) (utf16 b)⟩

instance : IsTrans String fun a b => stringLe a b = true :=
  ⟨fun _ _ _ hab hbc => decide_eq_true ((of_decide_eq_true hab).trans (of_decide_eq_true hbc))⟩

namespace Separable

variable {g h : DirectedGraph}

end Separable

/-! ## The signature -/

end LainLang.Tracer
