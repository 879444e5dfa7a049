import CaveRuntime.Common.MachineInt
import CaveRuntime.Common.Table
import CaveRuntime.Common.Utf8

/-!
# The streams broker: errors

The part of `StreamsError` of `cave-streams/src/error.rs` that the modelled functions return. An addition
panics on an overflow if the build has overflow checks; `checks` says whether it has.
-/

namespace Streams
open Utf8

inductive StreamsError where
  | groupNotFound (group : Bytes)
  | memberNotFound (group member : Bytes)
  | illegalGeneration (group : Bytes) (expected got : ℤ)
  | producerIdNotFound (producerId : ℤ)
  | duplicateSequenceNumber (producerId : ℤ) (topic : Bytes) (partition : ℤ)
  | invalidTxnState (text : String)
  | internal (text : String)
deriving DecidableEq, Repr

/-- How a call fails. -/
inductive Failure where
  | error (e : StreamsError)
  | panic
deriving DecidableEq, Repr

end Streams
