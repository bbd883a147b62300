/-
  Chronicle.Proofs.System.Told — what a call that waits is told, and in which state.

  A call that waits for the index `i` ends by a step of its own thread, taken with the
  lock. `u.Told t c i a` lists the ways this can go in the state `u` of that step: its
  index was evicted when it entered; it looked and found its index there; it looked and
  saw its flag raised; it had slept past its deadline.

  A call that does not wait is answered without the lock, or with it; and an append returns
  once it has pushed, or fails instead (`Ended`).

  Proved: every call ends in one of these ways (`Coherent.ended`), so a call that waits is
  told one of these (`Coherent.told`), in a state on the way of the run that has the reply
  (`told_of_reached`). Read off the log, a read is told that its index is evicted, or what
  the log has there, or nothing yet (`ReadsOff`, `Told.readsOff`).
-/

import Chronicle.Proofs.System.Coherence
import Chronicle.Proofs.System.Wait

namespace Chronicle

variable {α : Type}

/-! ## Deadlines -/

theorem Limit.of_startingAt_until {l : Limit} {now deadline : Nat} (h : l.startingAt now = .until deadline) :
    ∃ d, l.time? = some d ∧ Instant.after? now d = some deadline := by
  cases l with
  | forever => cases h
  | within d =>
    replace h : Patience.upTo (Instant.after? now d) = .until deadline := h
    refine ⟨d, rfl, ?_⟩
    cases ha : Instant.after? now d with
    | none => rw [ha] at h; cases h
    | some t => rw [ha] at h; cases h; rfl
  | cancellable f d => cases h

theorem Limit.of_startingAt_cancellable {l : Limit} {now f : Nat} {deadline : Option Nat}
    (h : l.startingAt now = .cancellable f deadline) :
    ∃ d, l = .cancellable f d ∧ deadline = d.bind (Instant.after? now) := by
  cases l with
  | forever => cases h
  | within d =>
    replace h : Patience.upTo (Instant.after? now d) = .cancellable f deadline := h
    cases ha : Instant.after? now d with
    | none => rw [ha] at h; cases h
    | some t => rw [ha] at h; cases h
  | cancellable g d =>
    simp only [startingAt, Patience.cancellable.injEq] at h
    obtain ⟨rfl, rfl⟩ := h
    exact ⟨d, rfl, rfl⟩

/-- A wait whose last sleep ran out and that has no time left is past the deadline of its
    request. -/
theorem Waiter.deadline_passed {w : Waiter} {c : Call α} {start : Int} {now planned wake : Nat} {poll : Duration}
    (hf : w.For c start now) (he : w.expired now = true) (hw : w.wakeAt poll planned = some wake) (hle : wake ≤ now) :
    ∃ d deadline, c.request.limit.time? = some d ∧ Instant.after? c.begun d = some deadline ∧ deadline ≤ now := by
  have hp : c.request.limit.startingAt c.begun = w.patience := by rw [hf.patience, hf.dated.patience]
  cases hpat : w.patience with
  | forever => simp [expired, hpat] at he
  | «until» deadline =>
    obtain ⟨d, hd, ha⟩ := Limit.of_startingAt_until (hp.trans hpat)
    simp only [wakeAt, hpat, Option.some.injEq] at hw
    exact ⟨d, deadline, hd, ha, by omega⟩
  | cancellable f deadline =>
    obtain ⟨d, hl, hd⟩ := Limit.of_startingAt_cancellable (hp.trans hpat)
    cases deadline with
    | none => simp [expired, hpat] at he
    | some deadline =>
      simp only [expired, hpat, decide_eq_true_eq] at he
      obtain ⟨d', rfl, ha⟩ := Option.bind_eq_some_iff.mp hd.symm
      exact ⟨d', deadline, by rw [hl]; rfl, ha, he⟩

theorem Waiter.For.cancellable {w : Waiter} {c : Call α} {start : Int} {now f : Nat} {deadline : Option Nat}
    (hf : w.For c start now) (hw : w.patience = .cancellable f deadline) : ∃ d, c.request.limit = .cancellable f d := by
  have hp : c.request.limit.startingAt c.begun = .cancellable f deadline := by
    rw [← hf.dated.patience, ← hf.patience, hw]
  obtain ⟨d, hl, -⟩ := Limit.of_startingAt_cancellable hp
  exact ⟨d, hl⟩

namespace System

/-- What the call `c` of the thread `t`, which waits for the index `i`, is told by a step
    taken in the state `u`. -/
inductive Told (u : System α) (t : Nat) (c : Call α) (i : Int) : Answer α → Prop
  | refused : u.phase t = .entered c → c.request.guarded = true → i < u.ring.oldest →
      Told u t c i (c.request.refusal (.evicted i u.ring.oldest))
  | served (w : Waiter) : u.phase t = .looking c w → u.settings.start ≤ i → i ≤ u.ring.newest →
      Told u t c i (u.ring.verdict c.request)
  | cancelled (w : Waiter) (f : Nat) (d : Option Duration) : u.phase t = .looking c w → u.ring.newest < i →
      c.request.limit = .cancellable f d → u.flags.isRaised f = true →
      Told u t c i (c.request.refusal (.cancelled i))
  | timedOut (w : Waiter) (d : Duration) (deadline : Nat) : u.phase t = .resumed c w true → u.ring.newest < i →
      c.request.limit.time? = some d → Instant.after? c.begun d = some deadline → deadline ≤ u.now →
      Told u t c i (c.request.refusal (.timeout i (Instant.since w.started u.now)))

variable {s u u' : System α} {t : Nat} {c : Call α} {i : Int} {log : List (Sample α)} {moves : List (Move α)}

theorem Told.holder {a : Answer α} (h : u.Told t c i a) (hl : u.Locked) : u.holder = some t := by
  cases h with
  | refused hp | served w hp | cancelled w f d hp | timedOut w d deadline hp => exact (hl t).mpr (by rw [hp]; rfl)

/-- How a call ends by a step taken in the state `u`, and what it is replied. -/
inductive Ended (u : System α) (t : Nat) : Reply α → Prop
  | free (c : Call α) : u.phase t = .ready c → c.request.lockFree = true →
      Ended u t ⟨c, (u.answerFree c.request).2, u.now⟩
  | performed (c : Call α) : u.phase t = .entered c → c.request.lockFree = false → (∀ v, c.request ≠ .append v) →
      c.request.target? u.settings.start = none →
      Ended u t ⟨c, (u.ring.perform u.settings.start c.request).2, u.now⟩
  | failed (c : Call α) (x : Sample α) (p : Panic) {ring : Ring (Sample α)} : u.phase t = .stamped c x →
      c.request = .append x.value → u.ring.push x = .error p ring → Ended u t ⟨c, .panicked p, u.now⟩
  | returned (c : Call α) (v : α) (i : Int) : u.phase t = .unlocked c i → c.request = .append v →
      Ended u t ⟨c, .index i, u.now⟩
  | told (c : Call α) (i : Int) (a : Answer α) : c.request.target? u.settings.start = some i → u.Told t c i a →
      Ended u t ⟨c, a, u.now⟩

/-- A step that ends a call does so in one of these ways. -/
theorem Coherent.ended (h : u.Coherent log) (hs : Step u (.step t) u') {r : Reply α}
    (hr : (u'.thread t).replies = r :: (u.thread t).replies) : u.Ended t r := by
  have hf := h.fits t
  cases hs with
  | free _ c hp hl =>
    rw [thread_reply, if_pos rfl] at hr
    obtain rfl := (List.cons.inj hr).1
    exact .free c hp hl
  | notify _ c j hp =>
    rw [thread_reply, if_pos rfl, thread_notifyAll] at hr
    obtain rfl := (List.cons.inj hr).1
    rw [hp] at hf
    obtain ⟨v, hv⟩ := hf.2.1
    exact .returned c v j hp hv
  | overflow _ c x p r hp he =>
    obtain rfl := (ends_reply _).reply_eq hr
    rw [hp] at hf
    exact .failed c x p hp hf.2 he
  | perform _ c hp hv hn =>
    rw [thread_reply, if_pos rfl] at hr
    obtain rfl := (List.cons.inj hr).1
    rw [hp] at hf
    exact .performed c hp hf.2 hv hn
  | refuse _ c j hp htarget hg he =>
    obtain rfl := (ends_giveUp _).reply_eq hr
    exact .told c j _ htarget (.refused hp hg (by simpa [Ring.evicted] using he))
  | serve _ c w a hp hn hserve =>
    obtain rfl := (ends_reply _).reply_eq hr
    rw [hp] at hf
    rw [← Ring.verdict_of_ok hserve]
    exact .told c w.target _ hf.target (.served w hp hf.start_le hn)
  | lapped _ c w e hp hn hserve =>
    obtain rfl := (ends_giveUp _).reply_eq hr
    rw [hp] at hf
    rw [← Ring.verdict_of_error hserve]
    exact .told c w.target _ hf.target (.served w hp hf.start_le hn)
  | cancel _ c w f deadline hp hn hw hflag =>
    obtain rfl := (ends_giveUp _).reply_eq hr
    rw [hp] at hf
    obtain ⟨d, hl⟩ := hf.cancellable hw
    exact .told c w.target _ hf.target (.cancelled w f d hp hn hl hflag)
  | expire _ c w hp he hn =>
    obtain rfl := (ends_giveUp _).reply_eq hr
    rw [hp] at hf
    obtain ⟨hfor, hslept⟩ := hf
    obtain ⟨planned, -, wake, hle, hwake⟩ := hslept rfl
    obtain ⟨d, deadline, hd, ha, hpassed⟩ := Waiter.deadline_passed hfor he hwake hle
    exact .told c w.target _ hfor.target (.timedOut w d deadline hp hn hd ha hpassed)
  | enter | stamp | begin | push | unlock | plan | sleep | slice | relock | again =>
    exact absurd hr (by simp)

/-- A step that ends a call that waits tells it one of these. -/
theorem Coherent.told (h : u.Coherent log) (hs : Step u (.step t) u') {r : Reply α}
    (hr : (u'.thread t).replies = r :: (u.thread t).replies) (ht : r.call.request.target? u.settings.start = some i) :
    u.Told t r.call i r.answer ∧ r.ended = u.now := by
  cases h.ended hs hr with
  | told c j a htarget hold =>
    obtain rfl : j = i := Option.some.inj (htarget.symm.trans ht)
    exact ⟨hold, rfl⟩
  | free c hp hl =>
    rw [lockFree_of_target? ht] at hl
    cases hl
  | performed c hp hl hv hn =>
    rw [hn] at ht
    cases ht
  | failed c x p hp hq =>
    rw [show c.request = _ from hq] at ht
    cases ht
  | returned c v j hp hq =>
    rw [show c.request = _ from hq] at ht
    cases ht

variable {o : Opening} {memory : Memory} {clock : Clock} {now : Nat} {s₀ : System α}

/-- Whoever waited and is over was told one of these, on the way. -/
theorem told_of_reached (ho : (o.run memory clock now).2 = .opened s₀) (hr : s₀.run? moves = some s) {r : Reply α}
    (hm : r ∈ (s.thread t).replies) (ht : r.call.request.target? o.settings.start = some i) :
    ∃ before u u', s₀.EndedBy t r moves before u u' ∧ u.Told t r.call i r.answer := by
  obtain ⟨before, u, u', hended⟩ := ended_of_reached ho hr hm
  obtain ⟨-, hb, hstep, hrep⟩ := id hended
  rw [← settings_of_reached ho hb] at ht
  exact ⟨before, u, u', hended, ((Coherent.of_reached ho hb).told (step_of_move? hstep) hrep ht).1⟩

/-! ## Reads -/

/-- What a read of the index `i` is told by the series `r`, whose log is known. -/
inductive ReadsOff (r : Ring (Sample α)) (start : Int) (log : List (Sample α)) (view : View) (i : Int) (limit : Limit) :
    Answer α → Prop
  | evicted : i < r.oldest → ReadsOff r start log view i limit (.failed (.evicted i r.oldest))
  | retained (k : Nat) (x : Sample α) (a : Answer α) : r.oldest ≤ i → i ≤ r.newest → i = start + k →
      log[k]? = some x → view.Shows x a → ReadsOff r start log view i limit a
  | notYet (e : ReadFault) : r.newest < i → e.index = i → e.isEvicted = false → limit ≠ .forever →
      ReadsOff r start log view i limit (.failed e)

theorem Told.readsOff {a : Answer α} {view : View} {limit : Limit} (h : u.Told t c i a) (hc : u.Coherent log)
    (hq : c.request = .read view i limit) : ReadsOff u.ring u.settings.start log view i limit a := by
  cases h with
  | refused _ _ hi => rw [hq]; exact .evicted hi
  | served w _ _ hn =>
    rw [hq]
    by_cases hi : i < u.ring.oldest
    · rw [Ring.verdict_evicted hi]
      exact .evicted hi
    · obtain ⟨k, x, hk, hx, hv⟩ := hc.window.verdict_read (i := i) (by omega) hn view limit
      exact .retained k x _ (by omega) hn hk hx hv
  | cancelled w f d _ hn hl =>
    rw [hq] at hl ⊢
    exact .notYet _ hn rfl rfl (by rintro rfl; cases hl)
  | timedOut w d deadline _ hn hl =>
    rw [hq] at hl ⊢
    exact .notYet _ hn rfl rfl (by rintro rfl; cases hl)

/-- A read that has a value was told what the log has at its index. -/
theorem ReadsOff.of_not_isFailure {r : Ring (Sample α)} {start : Int} {view : View} {limit : Limit} {a : Answer α}
    (h : ReadsOff r start log view i limit a) (ha : a.isFailure = false) :
    ∃ (k : Nat) (x : Sample α), r.oldest ≤ i ∧ i ≤ r.newest ∧ i = start + k ∧ log[k]? = some x ∧ view.Shows x a := by
  cases h with
  | evicted | notYet => cases ha
  | retained k x _ ho hn hk hx hv => exact ⟨k, x, ho, hn, hk, hx, hv⟩

end System

end Chronicle
