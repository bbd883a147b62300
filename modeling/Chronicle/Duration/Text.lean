/-
  Chronicle.Duration.Text — durations as people read them.

  The unit is the largest of s, ms, µs and ns in which the span has a whole part; the
  rest follows as an exact fraction. Nothing is rounded, so two durations never share a
  text.
-/

import Chronicle.Duration
import Chronicle.Decimal

namespace Chronicle.Duration

/-- Whole part, places and value of the fraction, and unit a duration is written with. -/
def reading (d : Duration) : Nat × Nat × Nat × List Char :=
  if d.secs ≠ 0 then (d.secs.toNat, 9, d.nanos.val, ['s'])
  else if 1000000 ≤ d.nanos.val then (d.nanos.val / 1000000, 6, d.nanos.val % 1000000, ['m', 's'])
  else if 1000 ≤ d.nanos.val then (d.nanos.val / 1000, 3, d.nanos.val % 1000, ['µ', 's'])
  else (d.nanos.val, 0, 0, ['n', 's'])

def chars (d : Duration) : List Char :=
  match d.reading with
  | (whole, width, part, unit) => Decimal.ofNat whole ++ Decimal.fraction width part ++ unit

/-- A duration as text, such as `1.5ms`. -/
def text (d : Duration) : String := String.ofList d.chars

example : (⟨0, 0⟩ : Duration).chars = "0ns".toList := by decide
example : (⟨0, 1500000⟩ : Duration).chars = "1.5ms".toList := by decide
example : (⟨0, 1001⟩ : Duration).chars = "1.001µs".toList := by decide
example : (⟨59, 999999999⟩ : Duration).chars = "59.999999999s".toList := by decide

end Chronicle.Duration
