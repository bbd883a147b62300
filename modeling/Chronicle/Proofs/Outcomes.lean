/-
  Chronicle.Proofs.Outcomes — when a wait comes to nothing, and what it says then.

  A call that ends does so by a step of its own thread (`run_reply`), with the lock, and
  what it answers is a matter of the state that step is taken in (`FailsSoundly`): it timed
  out only at or after its deadline, was cancelled only by a flag seen raised, and either
  only while its index was not there.

  What takes precedence over what follows from the order in which a thread that has the
  lock looks at things: whether its index is evicted, whether it is there, whether the flag
  is raised; the deadline only after a sleep (`refused_of_run`, `Coherent.answered_of_run`,
  `Coherent.cancelled_of_run`).

  Proved: `failures_sound`.
-/

import Chronicle.Proofs.System.Told

namespace Chronicle

variable {α : Type}

/-! ## Answers of waits that came to nothing -/

namespace Answer

/-- The index did not come in time. -/
def isTimeout : Answer α → Bool
  | .failed (.timeout ..) | .truth false => true
  | _ => false

def isCancelled : Answer α → Bool
  | .failed (.cancelled _) => true
  | _ => false

end Answer

namespace Request

variable {q : Request α} {e : ReadFault} {i : Int}

theorem timeout_of_refusal (h : (q.refusal e).isTimeout = true) : e.isTimeout = true := by
  unfold refusal at h
  split at h
  · rfl
  · cases h
  · cases h
  · cases e <;> first | rfl | cases h

theorem cancelled_of_refusal (h : (q.refusal e).isCancelled = true) : ∃ i, e = .cancelled i := by
  unfold refusal at h
  split at h
  · cases h
  · cases h
  · cases h
  · cases e <;> first | exact ⟨_, rfl⟩ | cases h

theorem refusal_of_cancellable {f : Nat} {d : Option Duration} (h : q.limit = .cancellable f d) :
    q.refusal (.cancelled i) = .failed (.cancelled i) := by
  cases q with
  | edge which time => cases time <;> cases h
  | newestValue => cases h
  | _ => rfl

theorem refusal_of_guarded {oldest : Int} (h : q.guarded = true) :
    q.refusal (.evicted i oldest) = .failed (.evicted i oldest) := by
  cases q <;> first | rfl | cases h

end Request

theorem Ring.Tells.sound {r : Ring (Sample α)} {start i : Int} {log : List (Sample α)} {q : Request α} {a : Answer α}
    (h : r.Tells start log q a) (ht : q.target? start = some i) :
    a.isTimeout = false ∧ a.isCancelled = false ∧ ∀ e, a = .failed e → e.index = i := by
  cases q with
  | read view j limit =>
    cases ht
    rcases h with ⟨-, k, x, -, -, hv⟩ | ⟨-, rfl⟩
    · cases view <;> cases hv <;> exact ⟨rfl, rfl, fun e he => by cases he⟩
    · exact ⟨rfl, rfl, fun e he => by cases he; rfl⟩
  | await j limit => cases h; exact ⟨rfl, rfl, fun e he => by cases he⟩
  | edge which time => cases which <;> cases h <;> exact ⟨rfl, rfl, fun e he => by cases he⟩
  | newestValue => obtain ⟨x, -, rfl⟩ := h; exact ⟨rfl, rfl, fun e he => by cases he⟩
  | _ => cases ht

namespace System

/-- A reply of a request that waited for the index `i`, made by a step in the state `u`: it
    was made with the lock; that the time ran out it says only at or after the deadline of
    its limit, that it was cancelled only if its flag is raised, and either only while the
    index is not there; and a fault names the index. -/
structure FailsSoundly (u : System α) (t : Nat) (r : Reply α) (i : Int) : Prop where
  ended : r.ended = u.now
  holder : u.holder = some t
  timeout : r.answer.isTimeout = true → u.ring.newest < i ∧ (∃ w, u.phase t = .resumed r.call w true) ∧
    ∃ d deadline, r.call.request.limit.time? = some d ∧ Instant.after? r.call.begun d = some deadline ∧
      deadline ≤ r.ended
  cancelled : r.answer.isCancelled = true → u.ring.newest < i ∧
    ∃ f d, r.call.request.limit = .cancellable f d ∧ u.flags.isRaised f = true
  index : ∀ e, r.answer = .failed e → e.index = i

variable {s s' u u' : System α} {t : Nat} {c : Call α} {w : Waiter} {i : Int} {log : List (Sample α)}
  {moves : List (Move α)}

theorem failsSoundly_of_tells (hh : u.holder = some t) {a : Answer α} {start : Int}
    (ha : u.ring.Tells start log c.request a) (ht : c.request.target? start = some i) :
    u.FailsSoundly t ⟨c, a, u.now⟩ i := by
  obtain ⟨htimeout, hcancelled, hindex⟩ := ha.sound ht
  exact ⟨rfl, hh, fun h => absurd h (by simp [htimeout]), fun h => absurd h (by simp [hcancelled]), hindex⟩

theorem failsSoundly_of_refusal (hh : u.holder = some t) {e : ReadFault} (hi : e.index = i)
    (htimeout : e.isTimeout = true → u.ring.newest < i ∧ (∃ w, u.phase t = .resumed c w true) ∧
      ∃ d deadline, c.request.limit.time? = some d ∧ Instant.after? c.begun d = some deadline ∧ deadline ≤ u.now)
    (hcancelled : ∀ j, e = .cancelled j → u.ring.newest < i ∧
      ∃ f d, c.request.limit = .cancellable f d ∧ u.flags.isRaised f = true) :
    u.FailsSoundly t ⟨c, c.request.refusal e, u.now⟩ i := by
  refine ⟨rfl, hh, fun h => htimeout (Request.timeout_of_refusal h), fun h => ?_, fun e' h => ?_⟩
  · obtain ⟨j, hj⟩ := Request.cancelled_of_refusal h
    exact hcancelled j hj
  · rw [Request.eq_of_refusal h, hi]

/-- Every step that ends the call of a request that waits answers soundly. -/
theorem Coherent.failsSoundly (h : u.Coherent log) (hs : Step u (.step t) u') {r : Reply α}
    (hr : (u'.thread t).replies = r :: (u.thread t).replies) (ht : r.call.request.target? u.settings.start = some i) :
    u.FailsSoundly t r i := by
  obtain ⟨htold, hended⟩ := h.told hs hr ht
  have hh := htold.holder h.locked
  obtain ⟨c, a, ended⟩ := r
  cases hended
  replace htold : u.Told t c i a := htold
  cases htold with
  | refused =>
    exact failsSoundly_of_refusal hh rfl (fun h => by cases h) (fun _ h => by cases h)
  | served w hp hs hn =>
    exact failsSoundly_of_tells hh (h.window.tells ht hs hn) ht
  | cancelled w f d hp hn hl hflag =>
    exact failsSoundly_of_refusal hh rfl (fun h => by cases h) fun _ _ => ⟨hn, f, d, hl, hflag⟩
  | timedOut w d deadline hp hn hd ha hpassed =>
    exact failsSoundly_of_refusal hh rfl (fun _ => ⟨hn, ⟨w, hp⟩, d, deadline, hd, ha, hpassed⟩) (fun _ h => by cases h)

/-! ## Precedence -/

/-- An entry that finds its index evicted ends the call. -/
theorem ends_of_refused (hp : u.phase t = .entered c) (ht : c.request.target? u.settings.start = some i)
    (hg : c.request.guarded = true) (he : u.ring.evicted i = true) (hstep : u.step? t = some u') :
    u.Ends t c (.failed (.evicted i u.ring.oldest)) u' := by
  rw [step?_entered hp, enter_refused ht hg he] at hstep
  cases hstep
  rw [← Request.refusal_of_guarded hg]
  exact ends_giveUp _

/-- Whoever enters while its index is evicted is told so, and does not sleep first. -/
theorem refused_of_run (hl : s.Locked) (hp : s.phase t = .entered c)
    (ht : c.request.target? s.settings.start = some i) (hg : c.request.guarded = true) (hi : i < s.ring.oldest)
    (hr : s.run? moves = some s') :
    s'.phase t = .entered c ∨ ∃ newer r, (s'.thread t).replies = newer ++ r :: (s.thread t).replies ∧ r.call = c ∧
      r.answer = .failed (.evicted i s.ring.oldest) := by
  refine (run_section (P := (· = .entered c)) (A := (· = .failed (.evicted i s.ring.oldest))) hl
    (by rintro _ rfl; rfl) ?_ hp hr).imp (fun h => h.2.2) id
  intro before u u' _ hb hring hu hstep
  have he : u.ring.evicted i = true := by rw [hring]; simpa [Ring.evicted] using hi
  exact Or.inr ⟨_, by rw [hring], ends_of_refused hu (run_settings hb ▸ ht) hg he hstep⟩

/-- Whoever has the lock while its index is there neither runs out of time nor is
    cancelled. -/
theorem Coherent.answered_of_run (h : s.Coherent log)
    (hp : s.phase t = .entered c ∨ ∃ w ranOut, s.phase t = .resumed c w ranOut)
    (ht : c.request.target? s.settings.start = some i) (hn : i ≤ s.ring.newest) (hr : s.run? moves = some s')
    {newer : List (Reply α)} {r : Reply α} (hrep : (s'.thread t).replies = newer ++ r :: (s.thread t).replies) :
    r.call = c ∧ r.answer.isTimeout = false ∧ r.answer.isCancelled = false := by
  refine reply_of_section
    (P := fun p => p = .entered c ∨ (∃ w, p = .looking c w) ∨ ∃ w ranOut, p = .resumed c w ranOut)
    (A := fun a => a.isTimeout = false ∧ a.isCancelled = false) h.locked ?_ ?_ ?_ hr hrep
  · rintro _ (rfl | ⟨w, rfl⟩ | ⟨w, ranOut, rfl⟩) <;> rfl
  · intro before u u' _ hb hring hu hstep
    have hc := h.of_run hb
    have hf := hc.fits t
    have htu : c.request.target? u.settings.start = some i := run_settings hb ▸ ht
    rw [← hring] at hn
    rcases hu with hu | ⟨w, hu⟩ | ⟨w, ranOut, hu⟩
    · by_cases hg : c.request.guarded = true ∧ u.ring.evicted i = true
      · exact Or.inr ⟨_, ⟨rfl, rfl⟩, ends_of_refused hu htu hg.1 hg.2 hstep⟩
      · rw [step?_entered hu, enter_looking htu hg] at hstep
        cases hstep
        exact Or.inl ⟨rfl, by simp, Or.inr (Or.inl ⟨_, by simp; rfl⟩)⟩
    · rw [hu] at hf
      obtain rfl : w.target = i := hf.target_eq htu
      rw [step?_looking hu] at hstep
      cases hstep
      obtain ⟨htimeout, hcancelled, -⟩ := (hc.window.tells hf.target hf.start_le hn).sound htu
      exact Or.inr ⟨_, ⟨htimeout, hcancelled⟩, look_served hn⟩
    · rw [hu] at hf
      obtain rfl : w.target = i := hf.1.target_eq htu
      rw [step?_resumed hu, if_neg (by omega)] at hstep
      cases hstep
      exact Or.inl ⟨rfl, by simp, Or.inr (Or.inl ⟨w, by simp⟩)⟩
  · exact hp.imp_right Or.inr

theorem Coherent.not_refused (h : s.Coherent log) (hn : s.ring.newest < i) :
    ¬ (c.request.guarded = true ∧ s.ring.evicted i = true) := by
  have := h.window.oldest_le_newest_succ
  exact not_refused_of_le (by omega)

/-- Whoever enters with its flag raised while its index is not there is cancelled. -/
theorem Coherent.cancelled_of_raised (h : s.Coherent log) (hp : s.phase t = .entered c)
    (ht : c.request.target? s.settings.start = some i) {f : Nat} {d : Option Duration}
    (hlimit : c.request.limit = .cancellable f d) (hn : s.ring.newest < i) (hf : s.flags.isRaised f = true) :
    ∃ s', s.run? [.step t, .step t] = some s' ∧ s.Ends t c (.failed (.cancelled i)) s' := by
  have hfits := h.fits t
  rw [hp] at hfits
  have hw : c.patience = .cancellable f (d.bind (Instant.after? c.begun)) := by
    rw [hfits.1.patience, hlimit]; rfl
  rw [← Request.refusal_of_cancellable hlimit]
  exact run?_cancelled hp ht (h.not_refused hn) hw hn hf

/-- Whoever enters while its index is not there is cancelled if its flag is raised when it
    looks, however little time it has left. -/
theorem Coherent.cancelled_of_run (h : s.Coherent log) (hp : s.phase t = .entered c)
    (ht : c.request.target? s.settings.start = some i) {f : Nat} {d : Option Duration}
    (hlimit : c.request.limit = .cancellable f d) (hn : s.ring.newest < i)
    (hr : s.run? moves = some s')
    (hf : ∀ before u w, before <+: moves → s.run? before = some u → u.phase t = .looking c w →
      u.flags.isRaised f = true)
    {newer : List (Reply α)} {r : Reply α} (hrep : (s'.thread t).replies = newer ++ r :: (s.thread t).replies) :
    r.call = c ∧ r.answer = .failed (.cancelled i) := by
  refine reply_of_section (P := fun p => p = .entered c ∨ ∃ w, p = .looking c w) (A := (· = .failed (.cancelled i)))
    h.locked ?_ ?_ (Or.inl hp) hr hrep
  · rintro _ (rfl | ⟨w, rfl⟩) <;> rfl
  · intro before u u' hpre hb hring hu hstep
    have hc := h.of_run hb
    have hfits := hc.fits t
    have htu : c.request.target? u.settings.start = some i := run_settings hb ▸ ht
    rw [← hring] at hn
    rcases hu with hu | ⟨w, hu⟩
    · rw [step?_entered hu, enter_looking htu (hc.not_refused hn)] at hstep
      cases hstep
      exact Or.inl ⟨rfl, by simp, Or.inr ⟨_, by simp; rfl⟩⟩
    · rw [hu] at hfits
      obtain rfl : w.target = i := hfits.target_eq htu
      have hw : w.patience = .cancellable f (d.bind (Instant.after? c.begun)) := by
        rw [hfits.patience, hfits.dated.patience, hlimit]; rfl
      rw [step?_looking hu, look_cancelled hn hw (hf before u w hpre hb hu)] at hstep
      cases hstep
      refine Or.inr ⟨_, rfl, ?_⟩
      rw [← Request.refusal_of_cancellable hlimit]
      exact ends_giveUp _

variable {o : Opening} {memory : Memory} {clock : Clock} {now : Nat} {s₀ : System α}

/-- The calls that wait come to nothing only with reason, in this order of precedence: an
    index that is evicted on entry, an index that is there, a raised flag, the deadline. -/
theorem failures_sound (ho : (o.run memory clock now).2 = .opened s₀) (hr : s₀.run? moves = some s) :
    (∀ t r i, r ∈ (s.thread t).replies → r.call.request.target? o.settings.start = some i →
      ∃ before u u', s₀.EndedBy t r moves before u u' ∧ u.FailsSoundly t r i) ∧
    (∀ t c i, s.phase t = .entered c → c.request.target? o.settings.start = some i → c.request.guarded = true →
      i < s.ring.oldest →
      (∃ s', s.step? t = some s' ∧ s.Ends t c (.failed (.evicted i s.ring.oldest)) s') ∧
      ∀ later s', s.run? later = some s' →
        s'.phase t = .entered c ∨ ∃ newer r, (s'.thread t).replies = newer ++ r :: (s.thread t).replies ∧
          r.call = c ∧ r.answer = .failed (.evicted i s.ring.oldest)) ∧
    (∀ t c i, (s.phase t = .entered c ∨ ∃ w ranOut, s.phase t = .resumed c w ranOut) →
      c.request.target? o.settings.start = some i → i ≤ s.ring.newest →
      ∀ later s' newer r, s.run? later = some s' → (s'.thread t).replies = newer ++ r :: (s.thread t).replies →
        r.call = c ∧ r.answer.isTimeout = false ∧ r.answer.isCancelled = false) ∧
    (∀ t c i f d, s.phase t = .entered c → c.request.target? o.settings.start = some i →
      c.request.limit = .cancellable f d → s.ring.newest < i →
      (s.flags.isRaised f = true →
        ∃ s', s.run? [.step t, .step t] = some s' ∧ s.Ends t c (.failed (.cancelled i)) s') ∧
      ∀ later s' newer r, s.run? later = some s' →
        (∀ before u w, before <+: later → s.run? before = some u → u.phase t = .looking c w →
          u.flags.isRaised f = true) →
        (s'.thread t).replies = newer ++ r :: (s.thread t).replies →
        r.call = c ∧ r.answer = .failed (.cancelled i)) := by
  have hc := Coherent.of_reached ho hr
  rw [← settings_of_reached ho hr]
  refine ⟨?_, ?_, ?_, ?_⟩
  · intro t r i hmem ht
    rcases run_reply hr hmem with hold | ⟨before, u, u', hpre, hb, hstep, hrep⟩
    · obtain ⟨-, ring, -, rfl⟩ := Opening.eq_initial_of_opened ho
      simp at hold
    · have hu := Coherent.of_reached ho hb
      refine ⟨before, u, u', ⟨hpre, hb, hstep, hrep⟩, hu.failsSoundly (step_of_move? hstep) hrep ?_⟩
      rw [settings_of_reached ho hb, ← settings_of_reached ho hr]
      exact ht
  · intro t c i hp ht hg hi
    refine ⟨⟨_, step?_entered hp, ?_⟩, fun later s' hrun => refused_of_run hc.locked hp ht hg hi hrun⟩
    exact ends_of_refused hp ht hg (by simpa [Ring.evicted] using hi) (step?_entered hp)
  · intro t c i hp ht hn later s' newer r hrun hrep
    exact hc.answered_of_run hp ht hn hrun hrep
  · intro t c i f d hp ht hl hn
    refine ⟨hc.cancelled_of_raised hp ht hl hn, fun later s' newer r hrun hf hrep => ?_⟩
    exact hc.cancelled_of_run hp ht hl hn hrun hf hrep

/-- Nothing was appended: a read whose flag is raised is cancelled although it has no time
    at all, and one that may wait for a millisecond waits for it. -/
theorem failures_sound_empty :
    ∃ (s : System Nat) (r r' : Reply Nat), small.run?
        ([.call 0 (.flag (.raise 0)), .step 0, .call 1 (.read .value 5 (.cancellable 0 (some (.millis 0))))] ++
          List.replicate 3 (.step 1) ++ [.call 2 (.read .value (-1) (.within (.millis 1)))] ++
          List.replicate 3 (.step 2) ++ [.elapse 1000000, .runOut 2, .step 2, .step 2]) = some s ∧
      (s.thread 1).replies = [r] ∧ r.answer = .failed (.cancelled 5) ∧
      (s.thread 2).replies = [r'] ∧ r'.answer = .failed (.timeout (-1) (.millis 1)) ∧
      ∃ deadline, Instant.after? r'.call.begun (.millis 1) = some deadline ∧ deadline ≤ r'.ended := by
  have hrun : (small.run?
        ([.call 0 (.flag (.raise 0)), .step 0, .call 1 (.read .value 5 (.cancellable 0 (some (.millis 0))))] ++
          List.replicate 3 (.step 1) ++ [.call 2 (.read .value (-1) (.within (.millis 1)))] ++
          List.replicate 3 (.step 2) ++ [.elapse 1000000, .runOut 2, .step 2, .step 2])).any
      (fun s => decide ((s.thread 1).replies.map (·.answer.fault?) = [some (.cancelled 5)]) &&
        decide ((s.thread 2).replies.map
            (fun r => (r.answer.fault?, r.call.request.target? (-1), r.call.request.limit.time?)) =
          [(some (.timeout (-1) (.millis 1)), some (-1), some (.millis 1))])) = true := by
    decide +kernel
  obtain ⟨s, hr, hs⟩ := exists_run hrun
  simp only [Bool.and_eq_true, decide_eq_true_eq] at hs
  obtain ⟨r, h1, hfault⟩ := List.map_eq_singleton_iff.mp hs.1
  obtain ⟨r', h2, hall⟩ := List.map_eq_singleton_iff.mp hs.2
  simp only [Prod.mk.injEq] at hall
  obtain ⟨hfault', htarget, htime⟩ := hall
  have hanswer' : r'.answer = .failed (.timeout (-1) (.millis 1)) := Answer.eq_failed hfault'
  obtain ⟨hreplies, -⟩ := failures_sound small_opened hr
  obtain ⟨before, u, u', -, hsound⟩ := hreplies 2 r' (-1) (by rw [h2]; exact List.mem_singleton.mpr rfl) htarget
  obtain ⟨-, -, d, deadline, hd, ha, hle⟩ := hsound.timeout (by rw [hanswer']; rfl)
  obtain rfl : d = .millis 1 := Option.some.inj (hd.symm.trans htime)
  exact ⟨s, r, r', hr, h1, Answer.eq_failed hfault, h2, hanswer', deadline, ha, hle⟩

end System

end Chronicle
