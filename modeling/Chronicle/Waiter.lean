/-
  Chronicle.Waiter — how a request waits for its index.

  A waiter holds the lock whenever it looks at the series. A look finds the index there,
  or gives up, or sleeps; a cancellable waiter looks at its flag first, and sleeps no
  longer than one poll interval at a time. Sleeping gives the lock up; after waking, a
  waiter takes the lock again, gives up if its time has passed and the index is still
  not there, and looks anew.

  An interval or limit that reaches beyond the last instant counts as none.
-/

import Chronicle.Request
import Chronicle.Clock

namespace Chronicle

/-- A limit, counted from the instant at which the request was made. -/
inductive Patience where
  | forever
  | until (deadline : Nat)
  | cancellable (flag : Nat) (deadline : Option Nat)
  deriving DecidableEq, Repr, Inhabited

/-- A limit without flag, up to a deadline if there is one. -/
def Patience.upTo : Option Nat → Patience
  | some t => .until t
  | none => .forever

def Limit.startingAt (now : Nat) : Limit → Patience
  | .forever => .forever
  | .within d => .upTo (Instant.after? now d)
  | .cancellable f d => .cancellable f (d.bind (Instant.after? now))

structure Waiter where
  target : Int
  patience : Patience
  /-- When the wait began. -/
  started : Nat
  deriving DecidableEq, Repr, Inhabited

namespace Waiter

inductive Outcome where
  /-- The index is there. -/
  | satisfied
  /-- The wait is given up. -/
  | gaveUp (e : ReadFault)
  /-- The flag is down: the next sleep is to be planned. -/
  | plan
  /-- Sleep until woken, at the latest at that instant. -/
  | sleep (wake : Option Nat)
  deriving DecidableEq, Repr

def look (w : Waiter) (newest : Int) (flags : Flags) : Outcome :=
  if w.target ≤ newest then .satisfied
  else
    match w.patience with
    | .forever => .sleep none
    | .until t => .sleep (some t)
    | .cancellable f _ => if flags.isRaised f then .gaveUp (.cancelled w.target) else .plan

/-- When a sleep planned at `now` ends: after one poll interval, or at the deadline. -/
def wakeAt (w : Waiter) (poll : Duration) (now : Nat) : Option Nat :=
  match w.patience with
  | .forever => none
  | .until t => some t
  | .cancellable _ deadline => Instant.earlier deadline (Instant.after? now poll)

/-- Whether a wait whose last sleep ran out has no time left. -/
def expired (w : Waiter) (now : Nat) : Bool :=
  match w.patience with
  | .forever => false
  | .until _ => true
  | .cancellable _ none => false
  | .cancellable _ (some t) => t ≤ now

/-- The fault of a waiter that has the lock again after a sleep, if it gives up. -/
def lapse? (w : Waiter) (newest : Int) (ranOut : Bool) (now : Nat) : Option ReadFault :=
  if ranOut ∧ w.expired now ∧ newest < w.target then
    some (.timeout w.target (Instant.since w.started now))
  else none

end Waiter

end Chronicle
