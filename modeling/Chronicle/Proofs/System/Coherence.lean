/-
  Chronicle.Proofs.System.Coherence — what holds in every reachable state.

  `s.Coherent log`: the lock is with the thread that says so; the series is the window on
  the end of `log`; and every call is as far as its phase says (`Phase.Fits`): its limit
  counts from the instant it was made, it waits for the index it asked for, and it sleeps
  until the instant its limit and the poll interval give.

  Proved: a series that was opened is coherent with the empty log (`Coherent.of_opened`),
  every step keeps coherence with the log it adds to (`Coherent.step`), and so does every
  run (`Coherent.of_run`).
-/

import Chronicle.Opening
import Chronicle.Proofs.Ring.Window
import Chronicle.Proofs.System.Lock

namespace Chronicle

variable {α : Type}

/-! ## Calls and their phases -/

/-- The limit of a call counts from the instant it was made. -/
structure Call.Dated (c : Call α) (now : Nat) : Prop where
  patience : c.patience = c.request.limit.startingAt c.begun
  begun_le : c.begun ≤ now

/-- A wait belongs to its call in a series that begins at `start`. -/
structure Waiter.For (w : Waiter) (c : Call α) (start : Int) (now : Nat) : Prop where
  dated : c.Dated now
  target : c.request.target? start = some w.target
  start_le : start ≤ w.target
  patience : w.patience = c.patience
  started_le : w.started ≤ now

/-- A call is as far as its phase says. -/
def Phase.Fits (s : System α) : Phase α → Prop
  | .idle => True
  | .ready c => c.Dated s.now
  | .entered c => c.Dated s.now ∧ c.request.lockFree = false
  | .stamped c x => c.Dated s.now ∧ c.request = .append x.value
  | .pushed c i => c.Dated s.now ∧ (∃ v, c.request = .append v) ∧ i = s.ring.newest
  | .unlocked c i => c.Dated s.now ∧ (∃ v, c.request = .append v) ∧ i ≤ s.ring.newest
  | .looking c w => w.For c s.settings.start s.now
  | .planning c w =>
    w.For c s.settings.start s.now ∧ s.ring.newest < w.target ∧ ∃ f d, w.patience = .cancellable f d
  | .asleep c w wake =>
    w.For c s.settings.start s.now ∧ ∃ planned ≤ s.now, wake = w.wakeAt s.settings.pollInterval planned
  | .woken c w ranOut | .resumed c w ranOut =>
    w.For c s.settings.start s.now ∧
      (ranOut = true → ∃ planned ≤ s.now, ∃ wake ≤ s.now, w.wakeAt s.settings.pollInterval planned = some wake)

theorem Call.Dated.later {c : Call α} {now now' : Nat} (h : c.Dated now) (hn : now ≤ now') : c.Dated now' :=
  ⟨h.patience, Nat.le_trans h.begun_le hn⟩

theorem Waiter.For.later {w : Waiter} {c : Call α} {start : Int} {now now' : Nat} (h : w.For c start now)
    (hn : now ≤ now') : w.For c start now' :=
  ⟨h.dated.later hn, h.target, h.start_le, h.patience, Nat.le_trans h.started_le hn⟩

theorem Waiter.For.target_eq {w : Waiter} {c : Call α} {start i : Int} {now : Nat} (h : w.For c start now)
    (ht : c.request.target? start = some i) : w.target = i :=
  Option.some.inj (h.target.symm.trans ht)

/-- A phase goes on fitting while time passes and other threads push. -/
theorem Phase.Fits.later {s s' : System α} {p : Phase α} (h : p.Fits s) (hs : s'.settings = s.settings)
    (hn : s.now ≤ s'.now) (hr : s.ring.newest ≤ s'.ring.newest)
    (hh : p.holds = true → s'.ring.newest = s.ring.newest) : p.Fits s' := by
  cases p with
  | idle => trivial
  | ready c => exact Call.Dated.later h hn
  | entered c => exact ⟨h.1.later hn, h.2⟩
  | stamped c x => exact ⟨h.1.later hn, h.2⟩
  | pushed c i => exact ⟨h.1.later hn, h.2.1, by rw [hh rfl]; exact h.2.2⟩
  | unlocked c i => exact ⟨h.1.later hn, h.2.1, Int.le_trans h.2.2 hr⟩
  | looking c w => unfold Fits; rw [hs]; exact Waiter.For.later h hn
  | planning c w => unfold Fits; rw [hs, hh rfl]; exact ⟨h.1.later hn, h.2⟩
  | asleep c w wake =>
    obtain ⟨hw, planned, hp, he⟩ := h
    unfold Fits; rw [hs]
    exact ⟨hw.later hn, planned, Nat.le_trans hp hn, he⟩
  | woken c w ranOut | resumed c w ranOut =>
    unfold Fits; rw [hs]
    refine ⟨h.1.later hn, fun ho => ?_⟩
    obtain ⟨planned, hp, wake, hw, he⟩ := h.2 ho
    exact ⟨planned, Nat.le_trans hp hn, wake, Nat.le_trans hw hn, he⟩

theorem Phase.Fits.notified {s : System α} {p : Phase α} (h : p.Fits s) : p.notified.Fits s := by
  cases p with
  | asleep c w wake => exact ⟨h.1, fun ho => by cases ho⟩
  | _ => exact h

namespace System

variable {s s' : System α} {m : Move α} {log : List (Sample α)} {moves : List (Move α)}

/-! ## The series -/

/-- A request that needs the lock and no wait leaves the series alone, or marks it. -/
theorem perform_ring (r : Ring (Sample α)) (start : Int) (q : Request α) :
    (r.perform start q).1 = r ∨ ∃ i, (r.perform start q).1 = r.tag i := by
  cases q with
  | tag i => exact Or.inr ⟨i, rfl⟩
  | _ => exact Or.inl rfl

/-- A step changes the series by a mark or by a push, and adds to the log by a push that succeeds. -/
theorem Step.ring (h : Step s m s') {start : Int} (hw : s.ring.Window start log) :
    ((s'.ring = s.ring ∨ ∃ i, s'.ring = s.ring.tag i) ∧ s.addition? m = none) ∨
      ∃ t c x i d, m = .step t ∧ s.phase t = .stamped c x ∧ s.ring.push x = .ok (i, d) s'.ring ∧
        s'.phase t = .pushed c i := by
  cases h with
  | push t c x ring i d hp he => exact Or.inr ⟨t, c, x, i, d, rfl, hp, he, by simp⟩
  | overflow t c x p ring hp he =>
    exact Or.inl ⟨Or.inl (hw.eq_of_push_error he), by simp [addition?, hp, he]⟩
  | perform t c hp _ _ => exact Or.inl ⟨perform_ring .., by simp [addition?, hp]⟩
  | call | runOut | stir | elapse => exact Or.inl ⟨Or.inl rfl, rfl⟩
  | free t c hp | enter t c hp | stamp t c v hp | refuse t c i hp | begin t c i hp | unlock t c i hp | notify t c i hp
  | serve t c w a hp | lapped t c w e hp | cancel t c w f d hp | plan t c w f d hp | sleep t c w hp | slice t c w hp
  | relock t c w r hp | expire t c w hp | again t c w r hp =>
    exact Or.inl ⟨Or.inl rfl, by simp [addition?, hp]⟩

/-- Everything that holds in every reachable state. -/
structure Coherent (s : System α) (log : List (Sample α)) : Prop where
  locked : s.Locked
  window : s.ring.Window s.settings.start log
  capacity : s.ring.capacity = s.settings.capacity.toNat
  fits : ∀ t, (s.phase t).Fits s

theorem Coherent.addition_of_push (h : s.Coherent log) {t : Nat} {c : Call α} {x : Sample α}
    (hp : s.phase t = .stamped c x) {ring : Ring (Sample α)} {i : Int} {d : Option (Sample α)}
    (he : s.ring.push x = .ok (i, d) ring) : s.addition? (.step t) = some x := by
  have hf := h.fits t
  rw [hp] at hf
  simp [addition?, hp, hf.2, he]

theorem Coherent.window_step (h : s.Coherent log) (hs : Step s m s') :
    s'.ring.Window s'.settings.start (log ++ (s.addition? m).toList) := by
  rw [hs.settings]
  rcases hs.ring h.window with ⟨hr, ha⟩ | ⟨t, c, x, i, d, rfl, hp, he, -⟩
  · rw [ha, Option.toList_none, List.append_nil]
    rcases hr with hr | ⟨i, hr⟩
    · rw [hr]; exact h.window
    · rw [hr]; exact h.window.tag i
  · rw [h.addition_of_push hp he]
    exact (h.window.push he).1

theorem Coherent.newest_le_step (h : s.Coherent log) (hs : Step s m s') : s.ring.newest ≤ s'.ring.newest := by
  have h₁ := h.window.newest_eq
  have h₂ := (h.window_step hs).newest_eq
  rw [hs.settings, List.length_append] at h₂
  omega

theorem Coherent.capacity_step (h : s.Coherent log) (hs : Step s m s') :
    s'.ring.capacity = s'.settings.capacity.toNat := by
  rw [hs.settings, ← h.capacity]
  rcases hs.ring h.window with ⟨hr | ⟨i, hr⟩, -⟩ | ⟨t, c, x, i, d, rfl, hp, he, -⟩
  · rw [hr]
  · rw [hr]; rfl
  · rw [(h.window.push he).2.1]; rfl

/-- The first index of a series that waits for any element is its start. -/
theorem start_le_of_begin (h : s.Coherent log) {q : Request α} {i : Int} (ht : q.target? s.settings.start = some i)
    (hg : ¬ (q.guarded = true ∧ s.ring.evicted i = true)) : s.settings.start ≤ i := by
  have ho := h.window.start_le_oldest
  cases q with
  | read view j l | await j l =>
    cases ht
    simp only [Request.guarded, Ring.evicted, true_and, decide_eq_true_eq] at hg
    omega
  | edge which time | newestValue => cases ht; exact Int.le_refl _
  | _ => cases ht

/-- A thread that is not moved fits as before: if it has the lock, nothing was pushed. -/
theorem Coherent.fits_other (h : s.Coherent log) (hs : Step s m s') {u : Nat} (hu : m.mover? ≠ some u) :
    (s'.phase u).Fits s' := by
  have hlater : (s.phase u).Fits s' := (h.fits u).later hs.settings hs.now_le (h.newest_le_step hs) fun hh => by
    rw [(hs.frozen h.locked hh fun e => hu (by rw [e]; rfl)).1]
  exact hs.kept_other (P := fun p => p.Fits s') Phase.Fits.notified hu hlater

theorem Coherent.fits_mover (h : s.Coherent log) (hs : Step s m s') {u : Nat} (hu : m.mover? = some u) :
    (s'.phase u).Fits s' := by
  have hf := h.fits u
  cases hs with
  | elapse time => cases hu
  | call t r hp => cases hu; simp only [phase_become, if_true]; exact ⟨rfl, Nat.le_refl _⟩
  | free t c hp | refuse t c i hp | perform t c hp | overflow t c x p r hp | notify t c i hp | serve t c w a hp
  | lapped t c w e hp | cancel t c w f d hp | expire t c w hp =>
    cases hu
    simp only [phase_reply, phase_giveUp, if_true]
    trivial
  | enter t c hp hl => cases hu; rw [hp] at hf; simp only [phase_become, if_true]; exact ⟨hf, hl⟩
  | stamp t c v hp hr => cases hu; rw [hp] at hf; simp only [phase_become, if_true]; exact ⟨hf.1, hr⟩
  | begin t c i hp ht hg =>
    cases hu; rw [hp] at hf; simp only [phase_become, if_true]
    exact ⟨hf.1, ht, start_le_of_begin h ht hg, rfl, Nat.le_refl _⟩
  | push t c x ring i d hp he =>
    cases hu; rw [hp] at hf; simp only [phase_become, if_true]
    refine ⟨hf.1, ⟨_, hf.2⟩, ?_⟩
    obtain ⟨-, hring, hi⟩ := h.window.push he
    have := h.window.newest_eq
    simp only [ring_become, hring, Ring.pushed]
    omega
  | unlock t c i hp =>
    cases hu; rw [hp] at hf; simp only [phase_become, if_true]
    exact ⟨hf.1, hf.2.1, Int.le_of_eq hf.2.2⟩
  | plan t c w f d hp hn hw =>
    cases hu; rw [hp] at hf; simp only [phase_become, if_true]
    exact ⟨hf, hn, f, d, hw⟩
  | sleep t c w hp =>
    cases hu; rw [hp] at hf; simp only [phase_become, if_true]
    exact ⟨hf, s.now, Nat.le_refl _, rfl⟩
  | slice t c w hp =>
    cases hu; rw [hp] at hf; simp only [phase_become, if_true]
    exact ⟨hf.1, s.now, Nat.le_refl _, rfl⟩
  | relock t c w ranOut hp => cases hu; rw [hp] at hf; simp only [phase_become, if_true]; exact hf
  | again t c w ranOut hp => cases hu; rw [hp] at hf; simp only [phase_become, if_true]; exact hf.1
  | runOut t c w wake hp hw =>
    cases hu; rw [hp] at hf; simp only [phase_become, if_true]
    obtain ⟨hf, planned, hle, he⟩ := hf
    exact ⟨hf, fun _ => ⟨planned, hle, wake, hw, he.symm⟩⟩
  | stir t c w wake hp =>
    cases hu; rw [hp] at hf; simp only [phase_become, if_true]
    exact ⟨hf.1, fun ho => by cases ho⟩

theorem Coherent.fits_step (h : s.Coherent log) (hs : Step s m s') (u : Nat) : (s'.phase u).Fits s' := by
  by_cases hu : m.mover? = some u
  · exact h.fits_mover hs hu
  · exact h.fits_other hs hu

theorem Coherent.step (h : s.Coherent log) (hs : Step s m s') : s'.Coherent (log ++ (s.addition? m).toList) :=
  ⟨hs.locked h.locked, h.window_step hs, h.capacity_step hs, h.fits_step hs⟩

theorem Coherent.of_run (h : s.Coherent log) (hr : s.run? moves = some s') : s'.Coherent (log ++ s.log moves) :=
  run_induction (I := fun l u => u.Coherent l) (fun _ _ _ _ _ hs h => h.step hs) h hr

/-- The ends of the series never go back. -/
theorem Coherent.bounds_le (h : s.Coherent log) (hr : s.run? moves = some s') :
    s.ring.oldest ≤ s'.ring.oldest ∧ s.ring.newest ≤ s'.ring.newest := by
  have h' := h.of_run hr
  have ho := h.window.oldest_eq
  have hn := h.window.newest_eq
  have ho' := h'.window.oldest_eq
  have hn' := h'.window.newest_eq
  have hc := h.capacity
  have hc' := h'.capacity
  rw [run_settings hr] at ho' hn' hc'
  rw [List.length_append] at ho' hn'
  omega

end System

/-! ## Opening -/

theorem Settings.fault?_eq_none_iff {s : Settings} :
    s.fault? = none ↔ s.capacity ≠ 0 ∧ s.pollInterval.isZero = false ∧ s.start ≠ Index.least := by
  unfold fault?
  by_cases hc : s.capacity = 0
  · simp [hc]
  by_cases hp : s.pollInterval.isZero
  · simp [hc, hp]
  · simp [hc, hp]

namespace Opening

variable {o : Opening} {memory : Memory} {clock : Clock} {now : Nat} {s₀ : System α}

theorem fault?_of_insisting {n : UInt64} (hn : n ≠ 0) : (Settings.ofCapacity n).fault? = none := by
  refine Settings.fault?_eq_none_iff.mpr ⟨hn, rfl, ?_⟩
  show Settings.default.start ≠ Index.least
  decide

/-- A series that was opened is one that nobody has called, built from settings that
    describe one. -/
theorem eq_initial_of_opened (h : (o.run memory clock now).2 = .opened s₀) :
    o.settings.fault? = none ∧
      ∃ ring, Ring.empty? memory o.settings.capacity.toNat o.settings.start = .ok (some ring) ∧
        s₀ = .initial o.settings clock ring now := by
  have built : ∀ settings, (build settings memory clock now).2 = .opened s₀ →
      ∃ ring, Ring.empty? memory settings.capacity.toNat settings.start = .ok (some ring) ∧
        s₀ = .initial settings clock ring now := by
    intro settings h
    simp only [build] at h
    split at h
    · rename_i ring hr; cases h; exact ⟨ring, hr, rfl⟩
    · cases h
    · cases h
  cases o with
  | insisting n =>
    simp only [run] at h
    split at h
    · cases h
    · rename_i hn; exact ⟨fault?_of_insisting hn, built _ h⟩
  | ofCapacity n | ofSettings settings =>
    simp only [run] at h
    split at h
    · cases h
    · rename_i hf; exact ⟨hf, built _ h⟩

end Opening

namespace System

variable {o : Opening} {memory : Memory} {clock : Clock} {now : Nat} {s₀ s : System α} {moves : List (Move α)}

theorem Coherent.of_opened (h : (o.run memory clock now).2 = .opened s₀) : s₀.Coherent [] := by
  obtain ⟨hf, ring, hr, rfl⟩ := Opening.eq_initial_of_opened h
  obtain ⟨hc, -, hs⟩ := Settings.fault?_eq_none_iff.mp hf
  have hle : o.settings.start < 2 ^ 63 := o.settings.startIndex.toInt_lt
  have hge : -2 ^ 63 ≤ o.settings.start := o.settings.startIndex.le_toInt
  have hc' : 0 < o.settings.capacity.toNat := by
    rcases Nat.eq_zero_or_pos o.settings.capacity.toNat with e | e
    · exact absurd (UInt64.toNat_inj.mp e) hc
    · exact e
  refine ⟨fun t => by simp [initial, phase, thread, Phase.holds], ?_, Ring.capacity_of_empty? hr,
    fun t => by simp [phase, Phase.Fits]⟩
  refine .of_empty? hr hc' ?_ ?_
  · show Index.least < o.settings.start
    unfold Index.least at hs ⊢; omega
  · show o.settings.start ≤ Index.greatest
    unfold Index.greatest; omega

theorem settings_of_opened (h : (o.run memory clock now).2 = .opened s₀) : s₀.settings = o.settings := by
  obtain ⟨-, ring, -, rfl⟩ := Opening.eq_initial_of_opened h
  rfl

theorem settings_of_reached (h : (o.run memory clock now).2 = .opened s₀) (hr : s₀.run? moves = some s) :
    s.settings = o.settings :=
  (run_settings hr).trans (settings_of_opened h)

/-- Every reachable state is coherent with what was appended on the way. -/
theorem Coherent.of_reached (h : (o.run memory clock now).2 = .opened s₀) (hr : s₀.run? moves = some s) :
    s.Coherent (s₀.log moves) :=
  (Coherent.of_opened h).of_run hr

/-- Every reply was made on the way, by a step of its thread. -/
theorem ended_of_reached (h : (o.run memory clock now).2 = .opened s₀) (hr : s₀.run? moves = some s) {t : Nat} {r : Reply α}
    (hm : r ∈ (s.thread t).replies) : ∃ before u u', s₀.EndedBy t r moves before u u' := by
  rcases run_reply hr hm with hold | hended
  · obtain ⟨-, ring, -, rfl⟩ := Opening.eq_initial_of_opened h
    simp at hold
  · exact hended

/-- A small series, just opened: two slots, from −1 on. -/
def small : System Nat := .initial ⟨2, -1, .millis 10⟩ (.scripted []) ⟨2, ∅, -1, -2, -2⟩ 0

theorem small_opened : ((Opening.ofSettings ⟨2, -1, .millis 10⟩).run .ample (.scripted []) 0).2 = .opened small := rfl

/-- The small series, with a clock that shows 10, 20 and 30 ms. -/
def timed : System Nat := .initial ⟨2, -1, .millis 10⟩ (.scripted [10.0, 20.0, 30.0]) ⟨2, ∅, -1, -2, -2⟩ 0

theorem timed_opened :
    ((Opening.ofSettings ⟨2, -1, .millis 10⟩).run .ample (.scripted [10.0, 20.0, 30.0]) 0).2 = .opened timed := rfl

end System

end Chronicle
