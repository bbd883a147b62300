/-
  Chronicle.Decimal — whole numbers and decimal fractions as text.

  Whole numbers are written in plain decimal, with a sign only if they are negative. A
  fraction of so many places is written exactly: a point and its digits up to the last
  one that is not zero, and nothing at all if it is zero.
-/

namespace Chronicle.Decimal

def ofNat (n : Nat) : List Char := Nat.toDigits 10 n

def ofInt (i : Int) : List Char := if i < 0 then '-' :: ofNat i.natAbs else ofNat i.natAbs

/-- The digits of `n / 10 ^ places` after the point, up to the last that is not zero;
    `n` lies below `10 ^ places`. -/
def places : Nat → Nat → List Char
  | 0, _ => []
  | k + 1, n =>
    if n = 0 then [] else Nat.digitChar (n / Nat.pow 10 k) :: places k (n % Nat.pow 10 k)

/-- The point and the digits after it, if there are any. -/
def fraction (width n : Nat) : List Char := if n = 0 then [] else '.' :: places width n

/-- The number that a row of decimal digits stands for; `none` if it is empty or holds
    anything else. -/
def toNat? (cs : List Char) : Option Nat :=
  if cs ≠ [] ∧ cs.all Char.isDigit then some (Nat.ofDigitChars 10 cs 0) else none

theorem ofNat_isDigit {n : Nat} {c : Char} (h : c ∈ ofNat n) : c.isDigit :=
  Nat.isDigit_of_mem_toDigits (by omega) (by omega) h

theorem ofNat_ne_nil (n : Nat) : ofNat n ≠ [] := Nat.toDigits_ne_nil

theorem toNat?_ofNat (n : Nat) : toNat? (ofNat n) = some n := by
  have h : ofNat n ≠ [] ∧ (ofNat n).all Char.isDigit :=
    ⟨ofNat_ne_nil n, List.all_eq_true.2 fun _ => ofNat_isDigit⟩
  rw [toNat?, if_pos h]
  exact congrArg some Nat.ofDigitChars_ten_toDigits

end Chronicle.Decimal
