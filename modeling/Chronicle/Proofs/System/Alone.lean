/-
  Chronicle.Proofs.System.Alone — a sleeper that was woken, and an append, each left alone.

  A sleeper that was woken takes its steps until its call ends or it sleeps anew; which of
  the two is decided by its index, its time and its flag (`rest_served`, `rest_expired`,
  `rest_again`).

  An append pushes one sample, stamped at the time it was made, and wakes all sleepers; at
  the greatest index it pushes none and wakes nobody (`ask?_append`, `ask?_append_full`).
-/

import Chronicle.Proofs.System.Ask

namespace Chronicle

variable {α : Type}

namespace System

variable {s : System α} {t u : Nat} {c : Call α} {w : Waiter}

/-! ## A sleeper that was woken -/

section

variable {ranOut : Bool} (hp : s.phase t = .woken c w ranOut) (hh : s.holder = none)

include hp hh

/-- The thread has the lock again. -/
theorem rest_resumed : ∃ v : System α, s.Untouched t v ∧ v.phase t = .resumed c w ranOut ∧
    (v.thread t).replies = (s.thread t).replies ∧ s.rest t = v.drive t 5 := by
  have hs : s.step? t = some ({ s with holder := some t }.become t (.resumed c w ranOut)) := by
    rw [step?_woken hp]
    exact (acquire_eq_some s t).mpr ⟨hh, rfl⟩
  refine ⟨{ s with holder := some t }.become t (.resumed c w ranOut),
    (untouched_setHolder _).trans (untouched_become _), by simp, by simp, ?_⟩
  rw [rest, mostSteps, drive_step hs]

/-- It looks again. -/
theorem rest_looking (hl : ¬ (ranOut = true ∧ w.expired s.now = true ∧ s.ring.newest < w.target)) :
    ∃ v : System α, s.Untouched t v ∧ v.phase t = .looking c w ∧ (v.thread t).replies = (s.thread t).replies ∧
      s.rest t = v.drive t 4 := by
  obtain ⟨v, hu, hv, hrep, hrest⟩ := rest_resumed hp hh
  have hs : v.step? t = some (v.become t (.looking c w)) := by
    rw [step?_resumed hv, hu.now, hu.ring, if_neg hl]
  exact ⟨v.become t (.looking c w), hu.trans (untouched_become _), by simp, by simp [hrep],
    by rw [hrest, drive_step hs]⟩

/-- Its index is there. -/
theorem rest_served (hn : w.target ≤ s.ring.newest) : s.Ends t c (s.ring.verdict c.request) (s.rest t) := by
  obtain ⟨v, hu, hv, hrep, hrest⟩ := rest_looking hp hh (by omega)
  have hends := look_served (s := v) (t := t) (c := c) (w := w) (by rw [hu.ring]; exact hn)
  rw [hrest, drive_served hv (by rw [hu.ring]; exact hn), ← hu.ring]
  exact hends.of_untouched hu hrep

/-- Its index is not there, and it goes on waiting. -/
theorem rest_again (hn : s.ring.newest < w.target) (hf : w.patience.raised s.flags = false)
    (hl : ¬ (ranOut = true ∧ w.expired s.now = true)) :
    (s.rest t).phase t = .asleep c w (w.wakeAt s.settings.pollInterval s.now) ∧ (s.rest t).holder = none ∧
      ((s.rest t).thread t).replies = (s.thread t).replies := by
  obtain ⟨v, hu, hv, hrep, hrest⟩ := rest_looking hp hh (fun h => hl ⟨h.1, h.2.1⟩)
  have hblocks := drive_blocks (n := 2) hv (by rw [hu.ring]; exact hn) (by rw [hu.flags]; exact hf)
  rw [hu.settings, hu.now, hrep, ← hrest] at hblocks
  exact hblocks

end

/-- Its index is not there, and its time has passed. -/
theorem rest_expired (hp : s.phase t = .woken c w true) (hh : s.holder = none) (hn : s.ring.newest < w.target)
    (he : w.expired s.now = true) :
    s.Ends t c (c.request.refusal (.timeout w.target (Instant.since w.started s.now))) (s.rest t) := by
  obtain ⟨v, hu, hv, hrep, hrest⟩ := rest_resumed hp hh
  have hs : v.step? t = some (v.giveUp t c (.timeout w.target (Instant.since w.started s.now))) := by
    rw [step?_resumed hv, hu.now, hu.ring, if_pos ⟨rfl, he, hn⟩]
  rw [hrest, drive_step hs, drive_stop (step?_idle (by simp))]
  exact ⟨by simp, rfl, hu.ring, by rw [thread_giveUp, if_pos rfl, hrep, hu.now]⟩

/-! ## An append -/

/-- After an append of the thread `u` that was left alone, with this series. -/
structure Appended (s : System α) (u : Nat) (ring : Ring (Sample α)) (s' : System α) : Prop where
  settings : s'.settings = s.settings
  clock : s'.clock = s.clock
  ring : s'.ring = ring
  readings : s'.readings = s.readings + 1
  flags : s'.flags = s.flags
  now : s'.now = s.now
  holder : s'.holder = none
  idle : s'.phase u = .idle
  replies : ∀ t, t ≠ u → (s'.thread t).replies = (s.thread t).replies

def stamp (s : System α) (v : α) : Sample α := ⟨v, s.clock s.readings s.now⟩

variable {v : α}

theorem enter_append (hq : c.request = .append v) :
    s.enter t c = { s with readings := s.readings + 1 }.become t (.stamped c (s.stamp v)) := by
  simp [enter, hq, stamp]

/-- The thread has the lock and a stamped sample. -/
theorem ask?_stamped (hi : s.phase u = .idle) (hh : s.holder = none) :
    ∃ s₁ : System α, s₁.phase u = .stamped (s.callOf (.append v)) (s.stamp v) ∧
      s.ask? u (.append v) = some (s₁.drive u 4) ∧ s₁.ring = s.ring ∧ s₁.readings = s.readings + 1 ∧
      s₁.settings = s.settings ∧ s₁.clock = s.clock ∧ s₁.flags = s.flags ∧ s₁.now = s.now ∧
      ∀ t, t ≠ u → s₁.thread t = s.thread t := by
  have hstep := step?_entered (s := s.entering u (.append v)) phase_entering
  rw [enter_append (v := v) rfl] at hstep
  refine ⟨{ s.entering u (.append v) with readings := s.readings + 1 }.become u
    (.stamped (s.callOf (.append v)) (s.stamp v)), by simp, ?_, rfl, rfl, rfl, rfl, rfl, rfl, ?_⟩
  · rw [ask?_eq hi hh rfl, drive_step hstep]
    rfl
  · intro t ht
    rw [thread_become, if_neg (Ne.symm ht), thread_setReadings]
    unfold entering
    rw [thread_become, if_neg (Ne.symm ht), thread_setHolder, thread_become, if_neg (Ne.symm ht)]

/-- After the push the lock is released and everybody woken. -/
theorem drive_pushed {i : Int} (hp : s.phase u = .pushed c i) (n : Nat) :
    s.drive u (n + 2) = (s.release.become u (.unlocked c i)).notifyAll.reply u c (.index i) none := by
  rw [drive_step (step?_pushed hp), drive_step (step?_unlocked (c := c) (i := i) (by simp)),
    drive_stop (step?_idle (by simp))]

/-- An append that pushes wakes everybody. -/
theorem ask?_append (hi : s.phase u = .idle) (hh : s.holder = none) {r : Ring (Sample α)} {i : Int}
    {d : Option (Sample α)} (he : s.ring.push (s.stamp v) = .ok (i, d) r) :
    ∃ s', s.ask? u (.append v) = some s' ∧ s.Appended u r s' ∧ ∀ t, t ≠ u → s'.phase t = (s.phase t).notified := by
  obtain ⟨s₁, hp, hask, hring, hreadings, hsettings, hclock, hflags, hnow, hothers⟩ := ask?_stamped (v := v) hi hh
  have h₁ : s₁.step? u = some ({ s₁ with ring := r }.become u (.pushed (s.callOf (.append v)) i)) := by
    simp [step?, hp, hring, he]
  refine ⟨(({ s₁ with ring := r }.become u (.pushed (s.callOf (.append v)) i)).release.become u
    (.unlocked (s.callOf (.append v)) i)).notifyAll.reply u (s.callOf (.append v)) (.index i) none, ?_,
    ⟨hsettings, hclock, rfl, hreadings, hflags, hnow, rfl, by simp, ?_⟩, ?_⟩
  · rw [hask, drive_step h₁, drive_pushed (c := s.callOf (.append v)) (i := i) (by simp)]
  · intro t ht
    simp [Ne.symm ht, hothers t ht]
  · intro t ht
    simp [Ne.symm ht, phase, hothers t ht]

/-- An append that does not push wakes nobody. -/
theorem ask?_append_full (hi : s.phase u = .idle) (hh : s.holder = none) {p : Panic} {r : Ring (Sample α)}
    (he : s.ring.push (s.stamp v) = .error p r) :
    ∃ s', s.ask? u (.append v) = some s' ∧ s.Appended u r s' ∧ ∀ t, t ≠ u → s'.phase t = s.phase t := by
  obtain ⟨s₁, hp, hask, hring, hreadings, hsettings, hclock, hflags, hnow, hothers⟩ := ask?_stamped (v := v) hi hh
  have h₁ : s₁.step? u = some ({ s₁ with ring := r }.release.reply u (s.callOf (.append v)) (.panicked p) none) := by
    simp [step?, hp, hring, he]
  refine ⟨{ s₁ with ring := r }.release.reply u (s.callOf (.append v)) (.panicked p) none, ?_,
    ⟨hsettings, hclock, rfl, hreadings, hflags, hnow, rfl, by simp, ?_⟩, ?_⟩
  · rw [hask, drive_step h₁, drive_stop (step?_idle (by simp))]
  · intro t ht
    simp [Ne.symm ht, hothers t ht]
  · intro t ht
    simp [Ne.symm ht, phase, hothers t ht]

end System

end Chronicle
