/-
  Chronicle.Sample — a value together with the time it was appended.
-/

namespace Chronicle

/-- A value and its stamp, the milliseconds its clock showed when it was appended. -/
structure Sample (α : Type) where
  value : α
  stampMs : Float

namespace Sample

def stampS {α : Type} (x : Sample α) : Float := x.stampMs / 1000.0

/-- Equality of value and stamp as numbers: a sample whose stamp is no number equals
    none, itself included. -/
def same {α : Type} [BEq α] (x y : Sample α) : Bool := x.value == y.value && x.stampMs == y.stampMs

end Sample

end Chronicle
