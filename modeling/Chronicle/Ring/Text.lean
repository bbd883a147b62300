/-
  Chronicle.Ring.Text — a series as text: its capacity, its ends and its mark.
-/

import Chronicle.Ring
import Chronicle.Decimal

namespace Chronicle

inductive Style where
  | line
  | block
  deriving DecidableEq, Repr, Inhabited

namespace Ring

variable {σ : Type}

def fields (r : Ring σ) : List (String × List Char) :=
  [("capacity", Decimal.ofNat r.capacity), ("oldest", Decimal.ofInt r.oldest),
    ("newest", Decimal.ofInt r.newest), ("tagged", Decimal.ofInt r.tagged)]

/-- On one line, or in a block with a line for each field. -/
def describe (r : Ring σ) : Style → String
  | .line =>
    let fields := r.fields.map fun (name, text) => name ++ ": " ++ String.ofList text
    "TimeSeries \x7b " ++ ", ".intercalate fields ++ " \x7d"
  | .block =>
    let fields := r.fields.map fun (name, text) => "    " ++ name ++ ": " ++ String.ofList text ++ ",\n"
    "TimeSeries \x7b\n" ++ String.join fields ++ "\x7d"

end Ring

end Chronicle
