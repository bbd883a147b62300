/-
  Chronicle.Proofs.Ring.Verdict — what a request is told once its index is there.

  `view.Shows x a` writes out what each view of an element is, and `r.verdict q` is the answer of
  a request whose wait is over, read off the series as it stands.

  Proved, for a window on a log: a read of an index that was evicted meanwhile is told
  so, one of a retained index is shown what the log has there (`Window.verdict_read`); the
  newest value is that of the last element of the log (`Window.verdict_newestValue`).
  `r.Tells` puts the answers of all requests that wait in terms of the log, and the
  verdict is what it says (`Window.tells`).
-/

import Chronicle.Ring.Answer
import Chronicle.Proofs.Ring.Window

namespace Chronicle

variable {α : Type}

/-- A refusal that is a fault is the fault it refuses for. -/
theorem Request.eq_of_refusal {q : Request α} {e e' : ReadFault} (h : q.refusal e = .failed e') : e' = e := by
  unfold refusal at h
  split at h <;> cases h
  rfl

/-- What a view shows of an element: its value, all of it, its stamp, or its stamp in seconds. -/
def View.Shows (x : Sample α) : View → Answer α → Prop
  | .value, a => a = .value x.value
  | .sample, a => a = .sample x
  | .stampMs, a => a = .stampMs x.stampMs
  | .stampS, a => a = .stampS (x.stampMs / 1000.0)

theorem View.shows_answer (view : View) (x : Sample α) : view.Shows x (view.answer x) := by
  cases view <;> rfl

theorem View.Shows.isFailure {view : View} {x : Sample α} {a : Answer α} (h : view.Shows x a) : a.isFailure = false := by
  cases view <;> cases h <;> rfl

namespace Ring

/-- What a waiting request is told once its index is there. -/
def verdict (r : Ring (Sample α)) (q : Request α) : Answer α :=
  match r.serve q with
  | .ok a => a
  | .error e => q.refusal e

variable {r : Ring (Sample α)} {start : Int} {log : List (Sample α)} {i : Int} {view : View} {limit : Limit}

theorem verdict_of_ok {q : Request α} {a : Answer α} (h : r.serve q = .ok a) : r.verdict q = a := by
  simp [verdict, h]

theorem verdict_of_error {q : Request α} {e : ReadFault} (h : r.serve q = .error e) : r.verdict q = q.refusal e := by
  simp [verdict, h]

theorem verdict_evicted (h : i < r.oldest) : r.verdict (.read view i limit) = .failed (.evicted i r.oldest) := by
  simp [verdict, serve, evicted, h, Request.refusal]

/-- A retained index is told with its element of the log. -/
theorem Window.verdict_read (h : r.Window start log) (ho : r.oldest ≤ i) (hn : i ≤ r.newest) (view : View)
    (limit : Limit) :
    ∃ (k : Nat) (x : Sample α), i = start + k ∧ log[k]? = some x ∧ view.Shows x (r.verdict (.read view i limit)) := by
  obtain ⟨k, x, hk, hx, he⟩ := h.element ho hn
  have hev : r.evicted i = false := by simp only [evicted, decide_eq_false_iff_not]; omega
  have hv : r.verdict (.read view i limit) = view.answer x := by simp [verdict, serve, hev, he]
  exact ⟨k, x, hk, hx, hv ▸ view.shows_answer x⟩

/-- The newest value is that of the last element of the log. -/
theorem Window.verdict_newestValue (h : r.Window start log) (hn : start ≤ r.newest) :
    ∃ x, log.getLast? = some x ∧ r.verdict .newestValue = .value x.value := by
  have hlast := h.newest_eq
  have hoe := h.oldest_eq
  have hpos := h.capacity_pos
  obtain ⟨k, x, hk, hx, he⟩ := h.element (i := r.newest) (by omega) (by omega)
  have hk' : k = log.length - 1 := by omega
  exact ⟨x, by rw [List.getLast?_eq_getElem?, ← hk', hx], by simp [verdict, serve, he]⟩

/-- What a request is told by a series that has its index, read off the log; an index a
    whole lap behind the newest is gone. -/
def Tells (r : Ring (Sample α)) (start : Int) (log : List (Sample α)) : Request α → Answer α → Prop
  | .read view i _, a =>
    r.newest < i + r.capacity ∧
        (∃ (k : Nat) (x : Sample α), i = start + k ∧ log[k]? = some x ∧ view.Shows x a) ∨
      i + r.capacity ≤ r.newest ∧ a = .failed (.evicted i (r.newest - r.capacity + 1))
  | .await .., a => a = .truth true
  | .edge .oldest _, a => a = .index r.oldest
  | .edge .newest _, a => a = .index r.newest
  | .newestValue, a => ∃ x, log.getLast? = some x ∧ a = .value x.value
  | _, _ => False

theorem Window.tells (h : r.Window start log) {q : Request α} (ht : q.target? start = some i) (hs : start ≤ i)
    (hn : i ≤ r.newest) : r.Tells start log q (r.verdict q) := by
  cases q with
  | read view j limit =>
    cases ht
    have hoe := h.oldest_eq
    have hne := h.newest_eq
    by_cases hlap : r.newest < i + r.capacity
    · obtain ⟨k, x, hk, hx, hv⟩ := h.verdict_read (by omega) hn view limit
      exact Or.inl ⟨hlap, k, x, hk, hx, hv⟩
    · have ho : r.oldest = r.newest - r.capacity + 1 := by omega
      refine Or.inr ⟨by omega, ?_⟩
      rw [verdict_evicted (by omega), ho]
  | await j limit => exact rfl
  | edge which time => cases which <;> exact rfl
  | newestValue => cases ht; exact h.verdict_newestValue hn
  | _ => cases ht

/-- Only a read is told that its index is evicted, and only if it is a lap behind. -/
theorem Tells.evicted {q : Request α} {oldest : Int} (h : r.Tells start log q (.failed (.evicted i oldest))) :
    q.target? start = some i ∧ i + r.capacity ≤ r.newest ∧ oldest = r.newest - r.capacity + 1 := by
  cases q with
  | read view j limit =>
    rcases h with ⟨-, k, x, -, -, hv⟩ | ⟨hlap, he⟩
    · cases hv.isFailure
    · cases he
      exact ⟨rfl, hlap, rfl⟩
  | edge which time => cases which <;> cases h
  | newestValue => obtain ⟨x, -, he⟩ := h; cases he
  | _ => cases h

end Ring

end Chronicle
