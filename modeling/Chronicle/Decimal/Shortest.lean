/-
  Chronicle.Decimal.Shortest — the shortest decimal that reads back as a given double.

  A positive finite double is `m * 2 ^ e` with whole `m`. The reals that round to it form
  an interval around it, whose ends belong to it if `m` is even. Of the decimals
  `d * 10 ^ k` in the interval, those with the largest `k` have the fewest digits, and
  the nearest of them is the text; of two equally near the larger. Only the two
  neighbours of the double on each decimal grid need to be tried. All of it is exact
  arithmetic on natural numbers.
-/

import Chronicle.Decimal

namespace Chronicle.Decimal

structure Binary where
  m : Nat
  e : Int
  /-- Whether the next smaller double is half as far away as the next larger one. -/
  narrowBelow : Bool
  deriving DecidableEq, Repr

structure Scientific where
  digits : Nat
  power : Int
  deriving DecidableEq, Repr

structure Ratio where
  num : Nat
  den : Nat
  deriving DecidableEq, Repr

/-- The mantissa of a double is below this, the 52nd power of two. -/
def mantissaLimit : Nat := 4503599627370496

namespace Binary

/-- The positive finite double with these exponent and mantissa bits. -/
def ofBits (exponent mantissa : Nat) : Binary :=
  if exponent = 0 then ⟨mantissa, -1074, false⟩
  else ⟨mantissaLimit + mantissa, (exponent : Int) - 1075, mantissa = 0 ∧ exponent ≠ 1⟩

/-- `n` quarters of the last place of a double, divided by `10 ^ k`. -/
def quarters (b : Binary) (n : Nat) (k : Int) : Ratio :=
  ⟨n * Nat.pow 2 (b.e - 2).toNat * Nat.pow 10 (-k).toNat, Nat.pow 2 (2 - b.e).toNat * Nat.pow 10 k.toNat⟩

/-- Whether `d * 10 ^ k` rounds to a double. -/
def covers (b : Binary) (k : Int) (d : Nat) : Bool :=
  let low := b.quarters (4 * b.m - if b.narrowBelow then 1 else 2) k
  let high := b.quarters (4 * b.m + 2) k
  if b.m % 2 = 0 then low.num ≤ d * low.den && d * high.den ≤ high.num
  else low.num < d * low.den && d * high.den < high.num

/-- The nearest of the multiples of `10 ^ k` that round to a double. -/
def onGrid? (b : Binary) (k : Int) : Option Nat :=
  let v := b.quarters (4 * b.m) k
  let d := v.num / v.den
  match b.covers k d, b.covers k (d + 1) with
  | true, true => if 2 * (v.num % v.den) < v.den then some d else some (d + 1)
  | true, false => some d
  | false, true => some (d + 1)
  | false, false => none

def search (b : Binary) : Nat → Int → Option Scientific
  | 0, _ => none
  | n + 1, k =>
    match b.onGrid? k with
    | some d => some ⟨d, k⟩
    | none => b.search n (k - 1)

/-- The coarsest grid tried is that of `10 ^ 309`, the finest that of `10 ^ -324`. -/
def shortest (b : Binary) : Scientific := (b.search 634 309).getD ⟨0, 0⟩

end Binary

/-- How doubles are written: positionally where the leading digit is worth at least
    `10 ^ least` and less than `10 ^ most`, with a point in any case; otherwise as one
    digit, the others after a point, and the power of ten. -/
structure FloatFormat where
  least : Int
  most : Int
  infinity : String
  notANumber : String

namespace FloatFormat

/-- A positional text of a decimal whose digits are `ds` and whose point comes after
    `point` of them. -/
def positional (ds : List Char) (point : Int) : List Char :=
  if point ≤ 0 then '0' :: '.' :: (List.replicate (-point).toNat '0' ++ ds)
  else if (ds.length : Int) ≤ point then ds ++ List.replicate (point.toNat - ds.length) '0' ++ ['.', '0']
  else ds.take point.toNat ++ '.' :: ds.drop point.toNat

/-- The leading digit, the others after a point if there are any, and the power of
    ten. -/
def exponential (ds : List Char) (power : Int) : List Char :=
  ds.take 1 ++ (if ds.length ≤ 1 then [] else '.' :: ds.drop 1) ++ 'e' :: ofInt power

def decimal (f : FloatFormat) (s : Scientific) : List Char :=
  let ds := ofNat s.digits
  let power := s.power + ds.length - 1
  if f.least ≤ power ∧ power < f.most then positional ds (power + 1) else exponential ds power

def ofBits (f : FloatFormat) (bits : UInt64) : List Char :=
  let sign := if bits.toNat / mantissaLimit / 2048 = 1 then ['-'] else []
  let exponent := bits.toNat / mantissaLimit % 2048
  let mantissa := bits.toNat % mantissaLimit
  if exponent = 2047 then
    if mantissa = 0 then sign ++ f.infinity.toList else f.notANumber.toList
  else if exponent = 0 ∧ mantissa = 0 then sign ++ ['0', '.', '0']
  else sign ++ f.decimal (Binary.ofBits exponent mantissa).shortest

end FloatFormat

end Chronicle.Decimal
