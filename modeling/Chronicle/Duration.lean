/-
  Chronicle.Duration — spans of time in whole nanoseconds, and instants.

  A duration is a 64-bit number of seconds and a part of a second below one; the second
  field cannot reach a whole second, so each span has one form. Building a duration
  from more nanoseconds than a second holds carries them into the seconds, and fails
  only if the seconds run out.

  An instant counts nanoseconds since the start of time and has an end: a limit that
  reaches beyond it names no instant (`Instant.after? = none`), which callers read as
  no limit at all.
-/

namespace Chronicle

/-- A span of time: seconds and a part of a second in nanoseconds. -/
structure Duration where
  secs : UInt64
  nanos : Fin 1000000000
  deriving DecidableEq, Repr, Inhabited

namespace Duration

/-- Nanoseconds in a second. -/
def second : Nat := 1000000000

/-- The duration of so many seconds and nanoseconds, the latter carried into the former;
    `none` if the seconds do not fit. -/
def ofParts? (secs nanos : Nat) : Option Duration :=
  if secs + nanos / second < UInt64.size then
    some ⟨UInt64.ofNat (secs + nanos / second), Fin.ofNat 1000000000 nanos⟩
  else none

def toNanos (d : Duration) : Nat := d.secs.toNat * second + d.nanos.val

/-- The span of so many nanoseconds, as far as the seconds go. -/
def ofNanos (n : Nat) : Duration := ⟨UInt64.ofNat (n / second), Fin.ofNat 1000000000 n⟩

def isZero (d : Duration) : Bool := d.secs == 0 && d.nanos == 0

def millis (n : Nat) : Duration := ofNanos (n * 1000000)

end Duration

namespace Instant

/-- The first point past the last instant: seconds are 63 bits wide. -/
def horizon : Nat := 9223372036854775808 * Duration.second

def after? (t : Nat) (d : Duration) : Option Nat :=
  if t + d.toNanos < horizon then some (t + d.toNanos) else none

/-- The time from `t` to `u`, nothing if `u` is earlier. -/
def since (t u : Nat) : Duration := Duration.ofNanos (u - t)

def earlier : Option Nat → Option Nat → Option Nat
  | some s, some t => some (min s t)
  | some s, none => some s
  | none, t => t

end Instant

end Chronicle
