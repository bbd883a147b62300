/-
  Chronicle.Json — JSON values.

  A string is the row of its UTF-16 units, since an escape can name half of a surrogate
  pair; `Utf16.paired` says that no half stands alone. A number keeps what its literal
  shows, so that `1`, `1.0` and `1e0` stay apart.
-/

import Chronicle.Decimal

namespace Chronicle

/-- The content of a string, in UTF-16 units. -/
abbrev Utf16 := List UInt16

namespace Utf16

def isLead (u : UInt16) : Bool := 0xD800 ≤ u && u < 0xDC00

def isTrail (u : UInt16) : Bool := 0xDC00 ≤ u && u < 0xE000

/-- The units of a character: one, or the two halves of a surrogate pair. -/
def ofChar (c : Char) : Utf16 :=
  if c.val < 0x10000 then [c.val.toUInt16]
  else
    let v := c.val - 0x10000
    [0xD800 + (v / 0x400).toUInt16, 0xDC00 + (v % 0x400).toUInt16]

def ofChars (cs : List Char) : Utf16 := cs.flatMap ofChar

/-- Every half of a surrogate pair stands beside the other half. -/
def paired : Utf16 → Bool
  | [] => true
  | [u] => !isLead u && !isTrail u
  | u :: v :: rest =>
    if isLead u then isTrail v && paired rest else !isTrail u && paired (v :: rest)

end Utf16

/-- A number as its literal shows it. -/
structure Numeral where
  negative : Bool
  whole : Nat
  /-- The digits after the point; none if there is no point. -/
  fraction : List (Fin 10)
  /-- The power of ten after the `e`, if there is one. -/
  exponent : Option Int
  deriving DecidableEq, Repr, Inhabited

namespace Numeral

def ofInt (i : Int) : Numeral := ⟨i < 0, i.natAbs, [], none⟩

/-- The whole number of a literal without point and exponent. A negative zero is no
    whole number. -/
def toInt? (n : Numeral) : Option Int :=
  if n.fraction = [] ∧ n.exponent = none then
    if n.negative then
      if n.whole = 0 then none else some (-(n.whole : Int))
    else some n.whole
  else none

end Numeral

/-- A JSON value. Members keep their order, and names may repeat. -/
inductive Json where
  | null
  | bool (b : Bool)
  | number (n : Numeral)
  | string (s : Utf16)
  | list (items : List Json)
  | object (members : List (Utf16 × Json))
  deriving Inhabited

end Chronicle
