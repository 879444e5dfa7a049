import CaveRuntime.Common.Table
import CaveRuntime.Common.Utf8

/-!
# Endpoint selectors

Model of `EndpointSelector` of `cave-net/src/cilium/policy.rs`.
-/

namespace Net
open Utf8

structure LabelSet where
  pairs : List (Bytes × Bytes)

/-- The labels as a map; of pairs with the same key the last one counts. -/
def LabelSet.map (labels : LabelSet) : Table Bytes Bytes := labels.pairs.foldl (fun t p => t.insert p.1 p.2) ∅

inductive SelectorOp
  | isIn
  | notIn
  | exists
  | doesNotExist

structure MatchExpression where
  key : Bytes
  op : SelectorOp
  values : List Bytes

structure EndpointSelector where
  matchLabels : Table Bytes Bytes := ∅
  matchExpressions : List MatchExpression := []

def MatchExpression.holds (me : MatchExpression) (have_ : Option Bytes) : Bool :=
  match me.op with
  | .isIn => have_.elim false fun v => me.values.any (· == v)
  | .notIn => have_.elim true fun v => !me.values.any (· == v)
  | .exists => have_.isSome
  | .doesNotExist => have_.isNone

def EndpointSelector.matches (s : EndpointSelector) (labels : LabelSet) : Bool :=
  (s.matchLabels.entries.all fun e => labels.map.lookup e.1 == some e.2) &&
    s.matchExpressions.all fun me => me.holds (labels.map.lookup me.key)

end Net
