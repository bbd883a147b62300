/-
  Chronicle.Thread — one thread and the call it is making.

  A call goes through phases; in some of them the thread has the lock of the series
  (`Phase.holds`), in one it is in the wait set. A call that is over leaves a reply, and
  an event if it came to nothing.
-/

import Chronicle.Waiter

namespace Chronicle

variable {α : Type}

structure Call (α : Type) where
  request : Request α
  /-- When it was made. -/
  begun : Nat
  /-- Its limit, counted from there. -/
  patience : Patience

inductive Phase (α : Type) where
  /-- There is none. -/
  | idle
  /-- Made; wants the lock, if it needs it. -/
  | ready (c : Call α)
  /-- Has the lock. -/
  | entered (c : Call α)
  /-- Has the lock and a stamped sample to push. -/
  | stamped (c : Call α) (x : Sample α)
  /-- Has the lock and has pushed. -/
  | pushed (c : Call α) (i : Int)
  /-- Has pushed and released the lock, but not woken the sleepers. -/
  | unlocked (c : Call α) (i : Int)
  /-- Has the lock and is about to look. -/
  | looking (c : Call α) (w : Waiter)
  /-- Has the lock and saw its flag down. -/
  | planning (c : Call α) (w : Waiter)
  /-- In the wait set. -/
  | asleep (c : Call α) (w : Waiter) (wake : Option Nat)
  /-- Out of the wait set; wants the lock. -/
  | woken (c : Call α) (w : Waiter) (ranOut : Bool)
  /-- Has the lock again. -/
  | resumed (c : Call α) (w : Waiter) (ranOut : Bool)

namespace Phase

def holds : Phase α → Bool
  | .entered _ | .stamped .. | .pushed .. | .looking .. | .planning .. | .resumed .. => true
  | _ => false

def isIdle : Phase α → Bool
  | .idle => true
  | _ => false

def wake? : Phase α → Option Nat
  | .asleep _ _ wake => wake
  | _ => none

def notified : Phase α → Phase α
  | .asleep c w _ => .woken c w false
  | p => p

end Phase

structure Reply (α : Type) where
  call : Call α
  answer : Answer α
  /-- When it was over. -/
  ended : Nat

/-- What is known of a thread: replies and events come newest first. -/
structure Thread (α : Type) where
  phase : Phase α := .idle
  replies : List (Reply α) := []
  trace : List Event := []

def Thread.hasFailed (th : Thread α) : Bool := th.replies.head?.any (·.answer.isFailure)

end Chronicle
