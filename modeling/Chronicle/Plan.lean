/-
  Chronicle.Plan — requests that a thread makes in turn, and what came of them.
-/

import Chronicle.Thread

namespace Chronicle

variable {α : Type}

/-- Requests that a thread makes in turn, up to the first that fails. A request that
    cannot even be put together is a panic. -/
structure Plan (α : Type) where
  size : Nat
  request : Nat → Except Panic (Request α)

namespace Plan

def one (r : Except Panic (Request α)) : Plan α := ⟨1, fun _ => r⟩

def appends (n : Nat) (value : Nat → α) : Plan α := ⟨n, fun k => .ok (.append (value k))⟩

def reads (view : View) (first : Int) (n : Nat) : Plan α :=
  ⟨n, fun k => (Index.sum first k).map fun i => .read view i .forever⟩

def retained (view : View) (r : Ring (Sample α)) : Plan α :=
  reads view r.oldest (r.newest + 1 - r.oldest).toNat

/-- The request that cannot be put together once `k` were made, if that is what comes
    next. -/
def panic? (p : Plan α) (k : Nat) : Option Panic :=
  if k < p.size then
    match p.request k with
    | .error e => some e
    | .ok _ => none
  else none

end Plan

/-- What a thread did to work through a plan: the calls it made and what it reported, in
    order, and the request it could not put together. -/
structure Report (α : Type) where
  replies : List (Reply α)
  events : List Event
  panic? : Option Panic

namespace Report

/-- What a thread did between two looks at it. -/
def of (plan : Plan α) (before after : Thread α) : Report α :=
  let made := after.replies.length - before.replies.length
  ⟨(after.replies.take made).reverse,
    (after.trace.take (after.trace.length - before.trace.length)).reverse,
    if 0 < made ∧ after.hasFailed then none else plan.panic? made⟩

/-- The reply that ended the plan, if it failed. -/
def failure? (r : Report α) : Option (Reply α) :=
  match r.replies.getLast? with
  | some last => if last.answer.isFailure then some last else none
  | none => none

def stamps (r : Report α) : List Float :=
  r.replies.filterMap fun reply => match reply.answer with
    | .stampMs x => some x
    | _ => none

def stampsSorted (r : Report α) : Bool := (r.stamps.zip r.stamps.tail).all fun (x, y) => decide (x ≤ y)

end Report

/-- Whether a call was over sooner than its limit asked for. -/
def Reply.early (r : Reply α) : Bool :=
  match r.call.request.limit.time? with
  | some d => r.ended - r.call.begun < d.toNanos
  | none => false

end Chronicle
