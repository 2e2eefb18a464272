/-
Residency/Flow/NodeId.lean

Names of flow-graph nodes: a number or a text.  The number 1 and the text "1" are
different names, and messages show the text in quotation marks.
-/
import Residency.Text.Quoted

namespace Residency

/-- The name of a node. -/
inductive NodeId where
  | number (n : Int)
  | label (s : String)
deriving DecidableEq, Repr

/-- A node's name as messages show it. -/
def NodeId.text : NodeId → Text.Phrase
  | .number n => Text.decimal n
  | .label s => Text.quoted s

end Residency
