/-
  Chronicle.Request — what can be asked of a series, and what it answers.

  Requests that may block carry a limit. `Request.target?` is the index such a request
  waits for: its own, or the first index of the series where any element will do.
-/

import Chronicle.Event
import Chronicle.Flag
import Chronicle.Ring.Text
import Chronicle.Sample

namespace Chronicle

inductive View where
  | value
  | sample
  | stampMs
  | stampS
  deriving DecidableEq, Repr, Inhabited

inductive Limit where
  | forever
  | within (time : Duration)
  /-- Until a flag is raised, and no longer than the time, if one is given. -/
  | cancellable (flag : Nat) (time : Option Duration)
  deriving DecidableEq, Repr, Inhabited

inductive Edge where
  | oldest
  | newest
  deriving DecidableEq, Repr, Inhabited

inductive Request (α : Type) where
  | append (value : α)
  /-- A view of the element at an index. -/
  | read (view : View) (index : Int) (limit : Limit)
  /-- Whether an index came in time. -/
  | await (index : Int) (limit : Limit)
  /-- An end of the history, once there is one. -/
  | edge (which : Edge) (time : Option Duration)
  /-- The newest value, once there is one. -/
  | newestValue
  | length
  | isEmpty
  | capacity
  | start
  /-- Another handle on the series. -/
  | handle
  | countAppended
  | tag (index : Int)
  | changedSinceTag
  | describe (style : Style)
  | flag (action : FlagAction)
  deriving DecidableEq, Inhabited

inductive Answer (α : Type) where
  | done
  | value (v : α)
  | sample (x : Sample α)
  /-- A stamp, in milliseconds or in seconds. -/
  | stampMs (x : Float)
  | stampS (x : Float)
  | index (i : Int)
  | count (n : Nat)
  | truth (b : Bool)
  | text (s : String)
  | failed (e : ReadFault)
  | panicked (p : Panic)

/-- An answer that says why there is none. -/
def Answer.isFailure {α : Type} : Answer α → Bool
  | .failed _ | .panicked _ => true
  | _ => false

namespace View

def answer {α : Type} (x : Sample α) : View → Answer α
  | .value => .value x.value
  | .sample => .sample x
  | .stampMs => .stampMs x.stampMs
  | .stampS => .stampS x.stampS

end View

namespace Limit

def ofTime? : Option Duration → Limit
  | none => .forever
  | some d => .within d

def time? : Limit → Option Duration
  | .forever => none
  | .within d => some d
  | .cancellable _ d => d

end Limit

namespace Request

variable {α : Type}

def limit : Request α → Limit
  | .read _ _ l | .await _ l => l
  | .edge _ d => .ofTime? d
  | _ => .forever

/-- The index that a request waits for in a series that begins at `start`. -/
def target? (start : Int) : Request α → Option Int
  | .read _ i _ | .await i _ => some i
  | .edge .. | .newestValue => some start
  | _ => none

/-- A request whose index must not be evicted when it is made. -/
def guarded : Request α → Bool
  | .read .. | .await .. => true
  | _ => false

def lockFree : Request α → Bool
  | .capacity | .start | .handle | .flag _ => true
  | _ => false

/-- The answer of a request whose wait came to nothing. A wait for an index answers that
    it did not come in time; a request without limit has no answer for this. -/
def refusal : Request α → ReadFault → Answer α
  | .await .., .timeout .. => .truth false
  | .edge _ none, _ | .newestValue, _ => .panicked .endlessWaitEnded
  | _, e => .failed e

end Request

end Chronicle
