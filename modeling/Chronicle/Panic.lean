/-
  Chronicle.Panic — the ways a call is abandoned instead of answered.

  A panic is a cause; its wording is `Panic.message`. Abandoning a call leaves the series
  usable: nothing else in this library looks at a panic, it is only reported.
-/

namespace Chronicle

inductive Panic where
  /-- A series was asked for with room for nothing. -/
  | zeroCapacity
  /-- No object has as many bytes as the slots asked for. -/
  | capacityOverflow
  /-- A sum of indices left the index range. -/
  | addOverflow
  /-- A difference of indices left the index range. -/
  | subtractOverflow
  /-- The nanoseconds of a duration carried past the largest number of seconds. -/
  | durationOverflow
  /-- A retained index had no sample in its slot. -/
  | emptySlot (index : Int)
  /-- A wait without limit ended without its index. -/
  | endlessWaitEnded
  deriving DecidableEq, Repr, Inhabited

def Panic.message : Panic → String
  | .zeroCapacity => "capacity must be greater than zero"
  | .capacityOverflow => "capacity overflow"
  | .addOverflow => "attempt to add with overflow"
  | .subtractOverflow => "attempt to subtract with overflow"
  | .durationOverflow => "overflow in Duration::new"
  | .emptySlot i =>
    "internal error: entered unreachable code: retained index " ++ toString i ++ " maps to an empty slot"
  | .endlessWaitEnded => "internal error: entered unreachable code: untimed wait cannot fail"

end Chronicle
