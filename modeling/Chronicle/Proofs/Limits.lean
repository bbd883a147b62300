/-
  Chronicle.Proofs.Limits — a wait with a limit comes to an end.

  A sleep of such a wait ends at its deadline, or after one poll interval if that is earlier
  and there is a flag to look at. When the time of a sleep ran out, the wait is over, or one
  more interval has passed before the deadline; so no more sleeps run out than there are
  intervals up to the deadline, and one (`Call.Within`). The phase of the call says what is
  known of the time after so many of them (`Phase.Paced`), and every step keeps it so
  (`Coherent.paced_step`).

  All its other sleeps were ended early, by an append or for no reason. If there are only so
  many of them, the call comes to an end on every course that is fair to its thread.

  Proved: `limited_wait_ends`.
-/

import Mathlib.Algebra.Order.Floor.Div
import Chronicle.Proofs.Slices
import Chronicle.Proofs.System.Rounds

namespace Chronicle

variable {α : Type}

/-- A limit with a flag: a wait up to it is cut into slices. -/
def Patience.sliced : Patience → Bool
  | .cancellable .. => true
  | _ => false

section

variable (c : Call α) (poll : Duration) (deadline : Nat)

/-- So many slices of the call were over before its deadline; there are none without a flag. -/
def Call.Within (n : Nat) : Prop := n = 0 ∨ c.patience.sliced = true ∧ c.begun + n * poll.toNanos < deadline

/-- So many slices were over before the deadline, and their time has passed. -/
def Call.InTime (now n : Nat) : Prop := c.Within poll deadline n ∧ c.begun + n * poll.toNanos ≤ now

/-- Where the call is after `n` sleeps that ran out: all were over before the deadline, or the
    last was not, and then the wait ends as soon as the thread has the lock. -/
def Phase.Paced (newest : Int) (now n : Nat) : Phase α → Prop
  | .looking _ w => c.InTime poll deadline now n ∨ w.target ≤ newest ∧ ∃ k, n = k + 1 ∧ c.Within poll deadline k
  | .planning .. | .woken _ _ false | .resumed _ _ false => c.InTime poll deadline now n
  | .asleep _ _ wake => c.InTime poll deadline now n ∧
      ∃ k, wake = some k ∧ (k = deadline ∨ c.patience.sliced = true ∧ c.begun + (n + 1) * poll.toNanos ≤ k)
  | .woken _ _ true | .resumed _ _ true => ∃ k, n = k + 1 ∧ c.Within poll deadline k ∧
      (deadline ≤ now ∨ c.patience.sliced = true ∧ c.begun + n * poll.toNanos ≤ now)
  | _ => n = 0

end

variable {c : Call α} {w : Waiter} {poll : Duration} {deadline now now' n most : Nat} {newest newest' : Int} {p : Phase α}

/-! ## The time of a call -/

theorem Call.InTime.later (h : c.InTime poll deadline now n) (hle : now ≤ now') : c.InTime poll deadline now' n :=
  ⟨h.1, Nat.le_trans h.2 hle⟩

theorem Phase.Paced.later (h : p.Paced c poll deadline newest now n) (hle : now ≤ now') (hn : newest ≤ newest') :
    p.Paced c poll deadline newest' now' n := by
  cases p with
  | looking c' w => exact h.imp (·.later hle) fun h => ⟨Int.le_trans h.1 hn, h.2⟩
  | planning c' w => exact Call.InTime.later h hle
  | asleep c' w wake => exact ⟨h.1.later hle, h.2⟩
  | woken c' w ranOut | resumed c' w ranOut =>
    cases ranOut with
    | false => exact Call.InTime.later h hle
    | true =>
      obtain ⟨k, hk, hwithin, hpassed⟩ := h
      exact ⟨k, hk, hwithin, hpassed.imp (Nat.le_trans · hle) fun h => ⟨h.1, Nat.le_trans h.2 hle⟩⟩
  | _ => exact h

theorem Phase.Paced.notified (h : p.Paced c poll deadline newest now n) :
    p.notified.Paced c poll deadline newest now n := by
  cases p with
  | asleep c' w wake => exact h.1
  | _ => exact h

/-- How many sleeps have run out, or are to run out, by the phase. -/
theorem Phase.Paced.sleeps_le (h : p.Paced c poll deadline newest now n)
    (hbound : ∀ k, c.Within poll deadline k → k + 1 ≤ most) : n + p.isAsleep.toNat ≤ most := by
  have ended : (∃ k, n = k + 1 ∧ c.Within poll deadline k) → n + 0 ≤ most := by
    rintro ⟨k, rfl, hk⟩
    exact hbound k hk
  have lasting : c.InTime poll deadline now n → n + 1 ≤ most := fun h => hbound n h.1
  cases p with
  | looking c' w => exact h.elim (fun h => Nat.le_of_succ_le (lasting h)) fun h => ended h.2
  | planning c' w => exact Nat.le_of_succ_le (lasting h)
  | asleep c' w wake => exact lasting h.1
  | woken c' w ranOut | resumed c' w ranOut =>
    cases ranOut with
    | false => exact Nat.le_of_succ_le (lasting h)
    | true =>
      obtain ⟨k, hk, hwithin, -⟩ := h
      exact ended ⟨k, hk, hwithin⟩
  | _ =>
    obtain rfl : n = 0 := h
    exact Nat.zero_le _

theorem Limit.startingAt_within {d : Duration} (h : Instant.after? now d = some deadline) :
    (Limit.within d).startingAt now = .until deadline := by
  rw [Limit.startingAt, h, Patience.upTo]

theorem Limit.startingAt_cancellable {d : Duration} (h : Instant.after? now d = some deadline) (f : Nat) :
    (Limit.cancellable f (some d)).startingAt now = .cancellable f (some deadline) := by
  rw [Limit.startingAt, Option.bind_some, h]

/-- Without a flag no slice is over before the deadline, -/
theorem Call.Within.succ_le_one {k : Nat} (h : c.Within poll deadline k) (hp : c.patience.sliced = false) :
    k + 1 ≤ 1 := by
  rcases h with rfl | ⟨hsliced, -⟩
  · exact Nat.le_refl _
  · rw [hp] at hsliced
    cases hsliced

/-- and with one no more than there is time for. -/
theorem Call.Within.succ_le_slices {d : Duration} {k : Nat} (h : c.Within poll deadline k)
    (hd : deadline = c.begun + d.toNanos) (hpoll : 0 < poll.toNanos) : k + 1 ≤ d.toNanos ⌈/⌉ poll.toNanos + 1 := by
  rcases h with rfl | ⟨-, hlt⟩
  · exact Nat.succ_le_succ (Nat.zero_le _)
  · have hk : ¬ d.toNanos ⌈/⌉ poll.toNanos ≤ k := by
      rw [ceilDiv_le_iff_le_mul hpoll, Nat.mul_comm]
      omega
    omega

/-- A sleep that is planned in time ends at the deadline, or with the next slice. -/
theorem Call.InTime.wakeAt (h : c.InTime poll deadline now n) (hd : c.patience.deadline? = some deadline)
    (hw : w.patience = c.patience) :
    ∃ k, w.wakeAt poll now = some k ∧
      (k = deadline ∨ c.patience.sliced = true ∧ c.begun + (n + 1) * poll.toNanos ≤ k) := by
  obtain ⟨k, hk, -, hor⟩ := Waiter.wakeAt_of_deadline poll now (hw ▸ hd)
  refine ⟨k, hk, ?_⟩
  cases hp : c.patience with
  | forever => rw [hp] at hd; cases hd
  | «until» d =>
    rw [hp] at hd hw
    cases hd
    simp only [Waiter.wakeAt, hw, Option.some.injEq] at hk
    exact Or.inl hk.symm
  | cancellable f d =>
    refine hor.imp_right fun hslice => ⟨rfl, ?_⟩
    have hpassed := h.2
    rw [Nat.succ_mul]
    omega

/-- A wait that goes on although a sleep of it ran out is cut into slices, and before its deadline. -/
theorem Waiter.before_deadline (he : ¬ w.expired now = true) (hd : w.patience.deadline? = some deadline) :
    w.patience.sliced = true ∧ now < deadline := by
  unfold expired at he
  cases hp : w.patience with
  | forever => rw [hp] at hd; cases hd
  | «until» d => rw [hp] at he; exact absurd rfl he
  | cancellable f d =>
    rw [hp] at hd he
    obtain rfl : d = some deadline := hd
    simp only [decide_eq_true_eq] at he
    exact ⟨rfl, by omega⟩

namespace System

variable {s s' : System α} {t : Nat} {m : Move α} {log : List (Sample α)} {moves later : List (Move α)}

/-! ## Sleeps that run out -/

/-- A thread that does not move stays where it is after as many sleeps, or is woken early. -/
theorem Coherent.paced_other (h : s.Coherent log) (hs : Step s m s') (hm : m.mover? ≠ some t)
    (hp : (s.phase t).Paced c poll deadline s.ring.newest s.now n) :
    (s'.phase t).Paced c poll deadline s'.ring.newest s'.now
      (n + (Phase.ranOut (s.phase t) (s'.phase t)).toNat) := by
  have hlater := hp.later hs.now_le (h.newest_le_step hs)
  have hnone : ∀ q : Phase α, q.ranOut q = false ∧ q.ranOut q.notified = false := by
    intro q
    cases q <;> exact ⟨rfl, rfl⟩
  rcases hs.phase_other hm with e | e
  · rw [e, (hnone _).1]
    exact hlater
  · rw [e, (hnone _).2]
    exact hlater.notified

theorem Coherent.paced_step (h : s.Coherent log) (hs : Step s m s') (hd : c.patience.deadline? = some deadline)
    (hc : (s.phase t).call? = some c) (hc' : (s'.phase t).call? = some c)
    (hp : (s.phase t).Paced c s.settings.pollInterval deadline s.ring.newest s.now n) :
    (s'.phase t).Paced c s.settings.pollInterval deadline s'.ring.newest s'.now
      (n + (Phase.ranOut (s.phase t) (s'.phase t)).toNat) := by
  by_cases hm : m.mover? ≠ some t
  · exact h.paced_other hs hm hp
  replace hm := Decidable.not_not.mp hm
  have hf := h.fits t
  cases hs with
  | elapse time => cases hm
  | call _ q hu =>
    cases hm
    rw [hu] at hc
    cases hc
  | free _ c' hu | refuse _ c' i hu | perform _ c' hu | overflow _ c' x e r hu | notify _ c' i hu | serve _ c' w a hu
  | lapped _ c' w e hu | cancel _ c' w f d hu | expire _ c' w hu =>
    cases hm
    simp only [phase_reply, phase_giveUp, if_true] at hc'
    cases hc'
  | enter _ c' hu | stamp _ c' v hu | push _ c' x r i d hu | unlock _ c' i hu =>
    cases hm
    rw [hu] at hp
    rw [hu, phase_become, if_pos rfl]
    exact hp
  | begin _ c' i hu ht =>
    cases hm
    rw [hu] at hp hc hf
    cases hc
    obtain rfl : n = 0 := hp
    rw [hu, phase_become, if_pos rfl]
    refine Or.inl ⟨Or.inl rfl, ?_⟩
    show c.begun + 0 * _ ≤ s.now
    rw [Nat.zero_mul]
    exact hf.1.begun_le
  | plan _ c' w f d hu hn hw =>
    cases hm
    rw [hu] at hp
    rw [hu, phase_become, if_pos rfl]
    rcases hp with hp | ⟨hle, -⟩
    · exact hp
    · omega
  | sleep _ c' w hu hn =>
    cases hm
    rw [hu] at hp hc hf
    cases hc
    rw [hu, phase_become, if_pos rfl]
    rcases hp with hp | ⟨hle, -⟩
    · exact ⟨hp, hp.wakeAt hd hf.patience⟩
    · omega
  | slice _ c' w hu =>
    cases hm
    rw [hu] at hp hc hf
    cases hc
    rw [hu, phase_become, if_pos rfl]
    replace hp : c.InTime _ deadline s.now n := hp
    exact ⟨hp, hp.wakeAt hd hf.1.patience⟩
  | relock _ c' w ranOut hu =>
    cases hm
    rw [hu] at hp
    rw [hu, phase_become, if_pos rfl]
    cases ranOut <;> exact hp
  | again _ c' w ranOut hu hgoes =>
    cases hm
    rw [hu] at hp hc hf
    cases hc
    rw [hu, phase_become, if_pos rfl]
    cases ranOut with
    | false => exact Or.inl hp
    | true =>
      obtain ⟨k, hk, hwithin, hpassed⟩ := hp
      -- its index is there, or the deadline is still to come
      by_cases hn : w.target ≤ s.ring.newest
      · exact Or.inr ⟨hn, k, hk, hwithin⟩
      · have hgoes' : ¬ w.expired s.now = true := fun he => hgoes ⟨rfl, he, by omega⟩
        have hbefore := Waiter.before_deadline hgoes' (hf.1.patience ▸ hd)
        rcases hpassed with hover | ⟨hsliced, hle⟩
        · omega
        · exact Or.inl ⟨Or.inr ⟨hsliced, Nat.lt_of_le_of_lt hle hbefore.2⟩, hle⟩
  | runOut _ c' w wake hu hwake =>
    cases hm
    rw [hu] at hp
    rw [hu, phase_become, if_pos rfl]
    obtain ⟨⟨hwithin, -⟩, k, hk, hend⟩ := hp
    cases hk
    refine ⟨n, rfl, hwithin, ?_⟩
    rcases hend with rfl | ⟨hsliced, hle⟩
    · exact Or.inl hwake
    · exact Or.inr ⟨hsliced, Nat.le_trans hle hwake⟩
  | stir _ c' w wake hu =>
    cases hm
    rw [hu] at hp
    rw [hu, phase_become, if_pos rfl]
    exact hp.1

/-- The phase of a call that was made in `s` tells how many of its sleeps ran out. -/
theorem Coherent.paced_of_run (h : s.Coherent log) (hp : s.phase t = .ready c)
    (hd : c.patience.deadline? = some deadline) (hr : s.run? moves = some s')
    (hrep : (s'.thread t).replies = (s.thread t).replies) :
    (s'.phase t).Paced c s.settings.pollInterval deadline s'.ring.newest s'.now (s.transits t Phase.ranOut moves) := by
  have hcall : (s.phase t).call? = some c := by rw [hp]; rfl
  refine run_prefix_induction (I := fun l v => (v.thread t).replies = (s.thread t).replies →
    (v.phase t).Paced c s.settings.pollInterval deadline v.ring.newest v.now (s.transits t Phase.ranOut l))
    (fun _ => by rw [hp]; rfl) ?_ hr hrep
  intro before v m v' _ hb hm ih hrep'
  have hone : v.run? [m] = some v' := by rw [run?_cons_of_move? hm]; rfl
  have hsame := replies_on_way hb hone hrep'
  have hc := call_of_replies hcall hb hsame
  have hc' := call_of_replies hc hone (hrep'.trans hsame.symm)
  have hpaced := ih hsame
  rw [← run_settings hb] at hpaced ⊢
  rw [transits_concat hb hm]
  exact (h.of_run hb).paced_step (step_of_move? hm) hd hc hc' hpaced

/-- A call falls asleep once for each sleep that was ended early, and as often again as its time
    allows. -/
theorem Coherent.sleeps_le (h : s.Coherent log) (hp : s.phase t = .ready c)
    (hd : c.patience.deadline? = some deadline)
    (hbound : ∀ k, c.Within s.settings.pollInterval deadline k → k + 1 ≤ most) (hr : s.run? moves = some s')
    (hrep : (s'.thread t).replies = (s.thread t).replies) :
    s.transits t Phase.fallsAsleep moves ≤ s.transits t Phase.wokenEarly moves + most := by
  have hends := sleeps_eq hr t
  have hran := (h.paced_of_run hp hd hr hrep).sleeps_le hbound
  have hawake : (s.phase t).isAsleep.toNat = 0 := by rw [hp]; rfl
  omega

/-! ## The end of a call -/

/-- On a course that is fair to its thread, a call with a deadline is over some time, unless more
    and more of its sleeps are ended early. -/
theorem Coherent.returns (h : s.Coherent log) (hp : s.phase t = .ready c)
    (hd : c.patience.deadline? = some deadline)
    (hbound : ∀ k, c.Within s.settings.pollInterval deadline k → k + 1 ≤ most) {σ : s.Course} {delay few : Nat}
    (hfair : σ.Fair t delay)
    (hfew : ∀ n, ((σ.state n).thread t).replies = (s.thread t).replies →
      s.transits t Phase.wokenEarly (σ.upTo n) ≤ few) :
    ∃ n newer r, ((σ.state n).thread t).replies = newer ++ r :: (s.thread t).replies ∧ r.call = c := by
  by_contra hnever
  have hcall : (s.phase t).call? = some c := by rw [hp]; rfl
  have hgoes : ∀ n, ((σ.state n).thread t).replies = (s.thread t).replies ∧
      ((σ.state n).phase t).call? = some c := by
    intro n
    rcases call_of_run hcall (σ.run n) with hsame | ⟨newer, r, hrep, hc⟩
    · exact hsame
    · exact absurd ⟨n, newer, r, hrep, hc⟩ hnever
  have hawake : ∀ n, (σ.state n).phase t ≠ .idle := by
    intro n hi
    have := (hgoes n).2
    rw [hi] at this
    cases this
  have hends : ∀ n c' w wake, (σ.state n).phase t = .asleep c' w wake → wake.isSome = true := by
    intro n c' w wake hasleep
    have hpaced := h.paced_of_run hp hd (σ.run n) (hgoes n).1
    rw [hasleep] at hpaced
    obtain ⟨-, k, rfl, -⟩ := hpaced
    rfl
  -- so it comes to more stages than its sleeps allow
  obtain ⟨n, hn⟩ := hfair.stages_unbounded hends hawake (10 + 5 * (few + most) + 1)
  have hstages := stages_le_of_ready hp (σ.run n) (hgoes n).1
  have hsleeps := h.sleeps_le hp hd hbound (σ.run n) (hgoes n).1
  have hearly := hfew n (hgoes n).1
  omega

variable {o : Opening} {memory : Memory} {clock : Clock} {now₀ : Nat} {s₀ : System α}

/-- A wait with a limit falls asleep once more than it is woken early, at most; with a flag to
    look at, as often again as there are poll intervals in its limit. With every sleep it comes to
    five more stages at most, so on every course that is fair to its thread it ends, if it is not
    woken early over and over. -/
theorem limited_wait_ends (ho : (o.run memory clock now₀).2 = .opened s₀) (hr : s₀.run? moves = some s)
    (hp : s.phase t = .ready c) {d : Duration} (ht : c.request.limit.time? = some d)
    (hfits : Instant.after? c.begun d = some deadline) :
    (∀ later s', s.run? later = some s' → (s'.thread t).replies = (s.thread t).replies →
      (c.request.limit = .within d →
        s.transits t Phase.fallsAsleep later ≤ s.transits t Phase.wokenEarly later + 1) ∧
      ∀ f, c.request.limit = .cancellable f (some d) →
        s.transits t Phase.fallsAsleep later ≤
          s.transits t Phase.wokenEarly later + d.toNanos ⌈/⌉ s.settings.pollInterval.toNanos + 1) ∧
    (∀ later s', s.run? later = some s' → (s'.thread t).replies = (s.thread t).replies →
      s.transits t Phase.turns later ≤ 10 + 5 * s.transits t Phase.fallsAsleep later) ∧
    ∀ (σ : s.Course) delay few, σ.Fair t delay →
      (∀ n, ((σ.state n).thread t).replies = (s.thread t).replies →
        s.transits t Phase.wokenEarly (σ.upTo n) ≤ few) →
      ∃ n newer r, ((σ.state n).thread t).replies = newer ++ r :: (s.thread t).replies ∧ r.call = c := by
  have hc := Coherent.of_reached ho hr
  have hdated := hc.fits t
  rw [hp] at hdated
  have hpatience : c.patience = c.request.limit.startingAt c.begun := hdated.patience
  have hpoll := pollInterval_pos ho hr
  have hslices : ∀ k, c.Within s.settings.pollInterval deadline k →
      k + 1 ≤ d.toNanos ⌈/⌉ s.settings.pollInterval.toNanos + 1 :=
    fun k h => h.succ_le_slices (Instant.eq_of_after? hfits) hpoll
  have hd : c.patience.deadline? = some deadline := by
    cases hl : c.request.limit with
    | forever => rw [hl] at ht; cases ht
    | within d' =>
      rw [hl] at ht
      cases ht
      rw [hpatience, hl, Limit.startingAt_within hfits]
      rfl
    | cancellable f d' =>
      rw [hl] at ht
      obtain rfl : d' = some d := ht
      rw [hpatience, hl, Limit.startingAt_cancellable hfits]
      rfl
  refine ⟨fun later s' hl hrep => ⟨?_, ?_⟩, ?_, ?_⟩
  · intro hlimit
    have hwhole : c.patience.sliced = false := by
      rw [hpatience, hlimit, Limit.startingAt_within hfits]
      rfl
    exact hc.sleeps_le hp hd (fun k h => h.succ_le_one hwhole) hl hrep
  · intro f _
    rw [Nat.add_assoc]
    exact hc.sleeps_le hp hd hslices hl hrep
  · intro later s' hl hrep
    exact stages_le_of_ready hp hl hrep
  · intro σ delay few hfair hfew
    exact hc.returns hp hd hslices hfair hfew

/-- A read of the second element of an empty series, with a flag and 25 ms. -/
def patientRead : Request Nat := .read .value 0 (.cancellable 0 (some (.millis 25)))

/-- It sleeps for 10 ms, is woken for no reason, sleeps for 10 ms more and for the 5 ms that are left,
    and has the lock again. -/
def naps : List (Move Nat) :=
  [List.replicate 4 (.step 1), [.elapse 10000000, .runOut 1], List.replicate 4 (.step 1), [.stir 1],
    List.replicate 4 (.step 1), [.elapse 10000000, .runOut 1], List.replicate 4 (.step 1),
    [.elapse 5000000, .runOut 1, .step 1]].flatten

/-- The read falls asleep four times in three poll intervals, as it is woken early once; and on a
    course that begins so it is over. -/
theorem limited_wait_ends_naps :
    ∃ s s' : System Nat, small.run? [.call 1 patientRead] = some s ∧ s.run? naps = some s' ∧
      s.transits 1 Phase.fallsAsleep naps = 4 ∧ s.transits 1 Phase.wokenEarly naps = 1 ∧
      s.transits 1 Phase.fallsAsleep naps ≤ 1 + (Duration.millis 25).toNanos ⌈/⌉ (Duration.millis 10).toNanos + 1 ∧
      ∃ σ : s.Course, σ.Fair 1 0 ∧ ∃ n newer r,
        ((σ.state n).thread 1).replies = newer ++ r :: (s.thread 1).replies ∧ r.call = small.callOf patientRead := by
  have hrun : (small.run? [.call 1 patientRead]).any (fun s => decide ((s.thread 1).replies.length = 0) &&
      decide (s.transits 1 Phase.fallsAsleep naps = 4) && decide (s.transits 1 Phase.wokenEarly naps = 1) &&
      decide (s.transits 1 Phase.wokenEarly (naps ++ [.step 1]) = 1) &&
      s.allMoves (Course.prompt 1 0) (naps ++ [.step 1]) &&
      (s.run? naps).any fun s' => decide ((s'.thread 1).replies.length = 0) &&
        (s'.run? [.step 1]).any fun v => (v.phase 1).isIdle && decide ((v.thread 1).replies.length = 1)) = true := by
    decide +kernel
  obtain ⟨s, hr, hs⟩ := exists_run hrun
  simp only [Bool.and_eq_true, decide_eq_true_eq] at hs
  obtain ⟨⟨⟨⟨⟨hnone, hsleeps⟩, hearly⟩, hwhole⟩, hprompt⟩, hs⟩ := hs
  obtain ⟨s', hl, hs'⟩ := exists_run hs
  simp only [Bool.and_eq_true, decide_eq_true_eq] at hs'
  obtain ⟨v, hv, hend⟩ := exists_run hs'.2
  simp only [Bool.and_eq_true, decide_eq_true_eq] at hend
  have hready : s.phase 1 = .ready (small.callOf patientRead) := by
    have hcall : small.move? (.call 1 patientRead) = some (small.become 1 (.ready (small.callOf patientRead))) := by
      simp [move?, call?, callOf, phase, small]
    rw [run?_cons_of_move? hcall] at hr
    cases hr
    simp
  obtain ⟨hcounts, -, hends⟩ := limited_wait_ends small_opened hr hready rfl
    (show Instant.after? 0 (.millis 25) = some 25000000 by decide)
  have hsame : (s'.thread 1).replies = (s.thread 1).replies := by
    rw [List.eq_nil_of_length_eq_zero hs'.1, List.eq_nil_of_length_eq_zero hnone]
  have hbound := (hcounts naps s' hl hsame).2 0 rfl
  rw [run_settings hr, hearly] at hbound
  have hover : s.run? (naps ++ [.step 1]) = some v := (run?_append_of_run? hl).trans hv
  obtain ⟨σ, hfair, hbegins⟩ := Course.exists_of_run hover (Phase.eq_idle hend.1) hprompt
  refine ⟨s, s', hr, hl, hsleeps, hearly, hbound, σ, hfair, hends σ 0 1 hfair ?_⟩
  intro n hrep
  -- as long as there is no reply, the course has not come to the end of the schedule
  rcases Nat.le_total n (naps ++ [Move.step 1]).length with hle | hle
  · have hpre := σ.upTo_prefix hle
    rw [hbegins] at hpre
    exact Nat.le_trans (transits_le (σ.run n) hpre) (Nat.le_of_eq hwhole)
  · have hpre := σ.upTo_prefix hle
    rw [hbegins] at hpre
    obtain ⟨later, -, hlater⟩ := run_split (σ.run n) hpre hover
    have hlength := congrArg List.length (replies_on_way hover hlater hrep)
    omega

end System

end Chronicle
