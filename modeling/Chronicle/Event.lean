/-
  Chronicle.Event — what a series reports about itself.

  One event tells that a series was created; the others tell why a read or wait came to
  nothing. `ReadFault.event` is the event of a fault.
-/

import Chronicle.Fault

namespace Chronicle

inductive Level where
  | debug
  | trace
  deriving DecidableEq, Repr, Inhabited

inductive Event where
  /-- A series with that capacity and first index was created. -/
  | created (capacity : Nat) (start : Int)
  /-- A read found its index evicted. -/
  | rejected (index oldest : Int)
  /-- A wait for an index ran out. -/
  | timedOut (index : Int) (waited : Duration)
  /-- A wait for an index was cancelled. -/
  | cancelled (index : Int)
  deriving DecidableEq, Repr, Inhabited

namespace Event

def level : Event → Level
  | .created .. => .debug
  | _ => .trace

def message : Event → String
  | .created .. => "timeseries created"
  | .rejected .. => "read rejected, index evicted"
  | .timedOut .. => "wait timed out"
  | .cancelled _ => "wait cancelled"

end Event

def ReadFault.event : ReadFault → Event
  | .evicted i o => .rejected i o
  | .timeout i w => .timedOut i w
  | .cancelled i => .cancelled i

end Chronicle
