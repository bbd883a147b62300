/-
  Chronicle.Index — logical indices, and arithmetic that stays within their range.

  An index is a whole number kept within 64 signed bits. The two operations on indices
  are exact or refused: a result outside the range is a panic, never a wrapped number.
-/

import Chronicle.Panic

namespace Chronicle.Index

def least : Int := -9223372036854775808

def greatest : Int := 9223372036854775807

def InRange (i : Int) : Prop := least ≤ i ∧ i ≤ greatest

instance (i : Int) : Decidable (InRange i) := inferInstanceAs (Decidable (_ ∧ _))

/-- The sum, or a panic if it is no index. -/
def sum (a b : Int) : Except Panic Int :=
  if InRange (a + b) then .ok (a + b) else .error .addOverflow

/-- The difference, or a panic if it is no index. -/
def difference (a b : Int) : Except Panic Int :=
  if InRange (a - b) then .ok (a - b) else .error .subtractOverflow

theorem sum_of_inRange {a b : Int} (h : InRange (a + b)) : sum a b = .ok (a + b) := if_pos h

theorem difference_of_inRange {a b : Int} (h : InRange (a - b)) : difference a b = .ok (a - b) :=
  if_pos h

/-- The largest index has no successor. -/
theorem succ_greatest : sum greatest 1 = .error .addOverflow :=
  if_neg (by decide)

end Chronicle.Index
