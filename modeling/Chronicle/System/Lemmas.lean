/-
  Chronicle.System.Lemmas — what the parts of a move do to a thread's phase, to the lock
  and to the series.
-/

import Chronicle.System

namespace Chronicle.System

variable {α : Type} (s : System α) (t u : Nat)

/-! ## Threads -/

theorem thread_insert (th : Thread α) :
    { s with threads := s.threads.insert t th }.thread u = if t = u then th else s.thread u := by
  simp [thread, Std.TreeMap.getD_insert]

@[simp] theorem thread_initial (settings : Settings) (clock : Clock) (ring : Ring (Sample α)) (now : Nat) :
    (initial settings clock ring now).thread t = {} := by
  simp [thread, initial]

@[simp] theorem thread_become (p : Phase α) :
    (s.become t p).thread u = if t = u then { s.thread t with phase := p } else s.thread u :=
  thread_insert ..

@[simp] theorem thread_reply (c : Call α) (a : Answer α) (e : Option Event) :
    (s.reply t c a e).thread u =
      if t = u then ⟨.idle, ⟨c, a, s.now⟩ :: (s.thread t).replies, e.toList ++ (s.thread t).trace⟩
      else s.thread u :=
  thread_insert ..

@[simp] theorem thread_release : s.release.thread t = s.thread t := rfl

@[simp] theorem thread_notifyAll :
    s.notifyAll.thread t = { s.thread t with phase := (s.thread t).phase.notified } := by
  simp only [thread, notifyAll, Std.TreeMap.getD_eq_getD_getElem?, Std.TreeMap.getElem?_map]
  cases s.threads[t]? <;> simp [Phase.notified]

@[simp] theorem phase_become (p : Phase α) : (s.become t p).phase u = if t = u then p else s.phase u := by
  simp only [phase, thread_become]
  split <;> rfl

@[simp] theorem phase_reply (c : Call α) (a : Answer α) (e : Option Event) :
    (s.reply t c a e).phase u = if t = u then .idle else s.phase u := by
  simp only [phase, thread_reply]
  split <;> rfl

@[simp] theorem phase_release : s.release.phase t = s.phase t := rfl

@[simp] theorem phase_notifyAll : s.notifyAll.phase t = (s.phase t).notified := by simp [phase]

@[simp] theorem holds_notified (p : Phase α) : p.notified.holds = p.holds := by cases p <;> rfl

/-! ## The lock -/

@[simp] theorem holder_become (p : Phase α) : (s.become t p).holder = s.holder := rfl

@[simp] theorem holder_reply (c : Call α) (a : Answer α) (e : Option Event) :
    (s.reply t c a e).holder = s.holder := rfl

@[simp] theorem holder_release : s.release.holder = none := rfl

@[simp] theorem holder_notifyAll : s.notifyAll.holder = s.holder := rfl

theorem acquire_eq_some {p : Phase α} {s' : System α} :
    s.acquire t p = some s' ↔ s.holder = none ∧ s' = { s with holder := some t }.become t p := by
  unfold acquire
  split <;> simp_all [eq_comm]

/-! ## The series -/

@[simp] theorem ring_become (p : Phase α) : (s.become t p).ring = s.ring := rfl

@[simp] theorem ring_reply (c : Call α) (a : Answer α) (e : Option Event) :
    (s.reply t c a e).ring = s.ring := rfl

@[simp] theorem ring_release : s.release.ring = s.ring := rfl

@[simp] theorem ring_notifyAll : s.notifyAll.ring = s.ring := rfl

@[simp] theorem ring_giveUp (c : Call α) (e : ReadFault) : (s.giveUp t c e).ring = s.ring := rfl

end Chronicle.System
