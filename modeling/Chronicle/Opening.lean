/-
  Chronicle.Opening — how a series comes to be.

  Three ways lead to a series: from a capacity, where zero is a panic; from a capacity,
  where zero is a fault like any other; and from settings. All report the creation
  before they make room for the elements, which can still fail: with a panic, or with the
  end of the process.
-/

import Chronicle.System

namespace Chronicle

variable {α : Type}

inductive Opening where
  | insisting (capacity : UInt64)
  | ofCapacity (capacity : UInt64)
  | ofSettings (settings : Settings)
  deriving DecidableEq, Repr, Inhabited

inductive Opened (α : Type) where
  | opened (s : System α)
  | refused (e : SettingsFault)
  | panicked (p : Panic)
  /-- There was no room for the elements, and the process ended. -/
  | aborted

namespace Opening

def settings : Opening → Settings
  | .insisting n | .ofCapacity n => .ofCapacity n
  | .ofSettings s => s

/-- Reports the creation and makes room. -/
def build (settings : Settings) (memory : Memory) (clock : Clock) (now : Nat) : List Event × Opened α :=
  ([.created settings.capacity.toNat settings.start],
    match Ring.empty? memory settings.capacity.toNat settings.start with
    | .ok (some ring) => .opened (.initial settings clock ring now)
    | .ok none => .aborted
    | .error p => .panicked p)

def run (o : Opening) (memory : Memory) (clock : Clock) (now : Nat) : List Event × Opened α :=
  match o with
  | .insisting n => if n = 0 then ([], .panicked .zeroCapacity) else build o.settings memory clock now
  | .ofCapacity _ | .ofSettings _ =>
    match o.settings.fault? with
    | some e => ([], .refused e)
    | none => build o.settings memory clock now

end Opening

end Chronicle
