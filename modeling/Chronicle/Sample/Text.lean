/-
  Chronicle.Sample.Text — samples as text.
-/

import Chronicle.Sample
import Chronicle.Decimal.Shortest

namespace Chronicle

namespace Sample

/-- Stamps are written positionally from `10 ^ -4` on and below `10 ^ 16`. -/
def stampFormat : Decimal.FloatFormat := ⟨-4, 16, "inf", "NaN"⟩

def debug (x : Sample Int) : String :=
  "Sample \x7b value: " ++ String.ofList (Decimal.ofInt x.value) ++ ", timestamp_ms: " ++
    String.ofList (stampFormat.ofBits x.stampMs.toBits) ++ " \x7d"

end Sample

end Chronicle
