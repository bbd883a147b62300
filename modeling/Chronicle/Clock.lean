/-
  Chronicle.Clock — sources of stamps.

  A clock answers its n-th reading, in milliseconds; the instant it is taken at is there
  for clocks that follow the time.
-/

import Chronicle.Duration

namespace Chronicle

/-- The n-th reading of a clock, taken at an instant, in milliseconds. -/
abbrev Clock := Nat → Nat → Float

namespace Clock

def seconds (d : Duration) : Float := Float.ofNat d.secs.toNat + Float.ofNat d.nanos.val / 1000000000.0

/-- Readings given in advance; the last one is repeated. -/
def scripted (readings : List Float) : Clock := fun n _ =>
  match readings[n]? with
  | some x => x
  | none => readings.getLastD 0.0

/-- Readings so many milliseconds apart, from zero on. -/
def ticking (period : Float) : Clock := fun n _ => Float.ofNat n * period

/-- The time since an instant. -/
def monotonic (origin : Nat) : Clock := fun _ t => seconds (Instant.since origin t) * 1000.0

/-- The time of day, where the instants began so many nanoseconds after the epoch. -/
def wall (epoch : Nat) : Clock := fun _ t => seconds (Duration.ofNanos (epoch + t)) * 1000.0

end Clock

end Chronicle
