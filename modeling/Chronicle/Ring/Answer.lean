/-
  Chronicle.Ring.Answer — what a request is answered from the series as it stands.

  `Ring.serve` answers a request that waits, once its index is there; the index may have
  been evicted since. `Ring.perform` answers a request that needs the series but never
  waits for it, and marks it if that is what is asked.
-/

import Chronicle.Request

namespace Chronicle

variable {α : Type}

/-- What a waiting request answers once its index is there. -/
def Ring.serve (r : Ring (Sample α)) : Request α → Except ReadFault (Answer α)
  | .read view i _ =>
    if r.evicted i then .error (.evicted i r.oldest)
    else .ok (match r.element i with
      | .ok x => view.answer x
      | .error p => .panicked p)
  | .edge .oldest _ => .ok (.index r.oldest)
  | .edge .newest _ => .ok (.index r.newest)
  | .newestValue => .ok (match r.element r.newest with
      | .ok x => .value x.value
      | .error p => .panicked p)
  | .await .. => .ok (.truth true)
  | _ => .ok .done

/-- A number, or the panic of counting it. -/
def Answer.ofCount : Except Panic Nat → Answer α
  | .ok n => .count n
  | .error p => .panicked p

/-- What a request that does not wait does with the lock. -/
def Ring.perform (r : Ring (Sample α)) (start : Int) : Request α → Ring (Sample α) × Answer α
  | .length => (r, .ofCount r.length)
  | .isEmpty => (r, match r.length with
      | .ok n => .truth (n = 0)
      | .error p => .panicked p)
  | .countAppended => (r, .ofCount (r.countPushed start))
  | .tag i => (r.tag i, .done)
  | .changedSinceTag => (r, .truth r.changedSinceTag)
  | .describe style => (r, .text (r.describe style))
  | _ => (r, .done)

end Chronicle
