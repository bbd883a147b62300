/-
  Chronicle.Proofs.System.Wait — the next step of a thread whose request waits.

  One equation for each phase says what the thread's next step is; `Ends` says what is left
  when that step ends the call, `Untouched` that nothing but the lock and the thread itself
  was changed, which holds of every step of a wait from its first look on.

  Proved: an entry is refused or goes on to look (`enter_refused`, `enter_looking`); a
  look answers, gives up, or goes to sleep, and which of them is decided by the newest
  index and the flag alone (`look_served`, `look_cancelled`, `look_sleeps`, `look_plans`,
  together `look_cases`); so two steps are enough for a thread that has the lock again and
  finds its index there, and for one that enters with its flag raised and does not
  (`run?_resumed`, `run?_cancelled`). While a thread has the lock nobody else changes the
  series, so what each of its own steps does comes of every run (`run_section`).
-/

import Chronicle.Proofs.Ring.Verdict
import Chronicle.Proofs.System.Lock

namespace Chronicle

variable {α : Type}

/-- The phases of a call that waits, from its first look on, and those between calls. -/
def Phase.bides : Phase α → Bool
  | .idle | .looking .. | .planning .. | .asleep .. | .woken .. | .resumed .. => true
  | _ => false

namespace System

/-- A step ended the thread's call with that answer, with the lock released. -/
structure Ends (s : System α) (t : Nat) (c : Call α) (a : Answer α) (s' : System α) : Prop where
  phase : s'.phase t = .idle
  holder : s'.holder = none
  ring : s'.ring = s.ring
  replies : (s'.thread t).replies = ⟨c, a, s.now⟩ :: (s.thread t).replies

theorem lockFree_of_target? {q : Request α} {start i : Int} (h : q.target? start = some i) : q.lockFree = false := by
  cases q <;> first | rfl | cases h

variable {s s' s'' : System α} {t : Nat} {c : Call α} {w : Waiter} {i : Int} {moves : List (Move α)}

theorem Ends.reply_eq {a : Answer α} (h : s.Ends t c a s') {r : Reply α}
    (hr : (s'.thread t).replies = r :: (s.thread t).replies) : r = ⟨c, a, s.now⟩ :=
  (List.cons.inj (hr.symm.trans h.replies)).1

theorem ends_giveUp (e : ReadFault) : s.Ends t c (c.request.refusal e) (s.giveUp t c e) :=
  ⟨by simp, rfl, rfl, by simp⟩

theorem ends_reply (a : Answer α) : s.Ends t c a (s.release.reply t c a none) :=
  ⟨by simp, rfl, rfl, by rw [thread_reply, if_pos rfl]; rfl⟩

theorem Ends.of_become {p : Phase α} {a : Answer α} (h : (s.become t p).Ends t c a s') : s.Ends t c a s' :=
  ⟨h.phase, h.holder, h.ring, by rw [h.replies, thread_become, if_pos rfl]; rfl⟩

/-! ## What a wait leaves alone -/

/-- Nothing was changed but the lock and what is known of the thread `t`. -/
structure Untouched (s : System α) (t : Nat) (s' : System α) : Prop where
  settings : s'.settings = s.settings
  clock : s'.clock = s.clock
  ring : s'.ring = s.ring
  readings : s'.readings = s.readings
  flags : s'.flags = s.flags
  now : s'.now = s.now
  others : ∀ u, u ≠ t → s'.thread u = s.thread u

theorem Untouched.refl (s : System α) (t : Nat) : s.Untouched t s := ⟨rfl, rfl, rfl, rfl, rfl, rfl, fun _ _ => rfl⟩

theorem Untouched.trans (h : s.Untouched t s') (h' : s'.Untouched t s'') : s.Untouched t s'' :=
  ⟨h'.settings.trans h.settings, h'.clock.trans h.clock, h'.ring.trans h.ring, h'.readings.trans h.readings,
    h'.flags.trans h.flags, h'.now.trans h.now, fun u hu => (h'.others u hu).trans (h.others u hu)⟩

theorem untouched_become (p : Phase α) : s.Untouched t (s.become t p) :=
  ⟨rfl, rfl, rfl, rfl, rfl, rfl, fun u hu => by rw [thread_become, if_neg (Ne.symm hu)]⟩

theorem untouched_reply (c : Call α) (a : Answer α) (e : Option Event) : s.Untouched t (s.release.reply t c a e) :=
  ⟨rfl, rfl, rfl, rfl, rfl, rfl, fun u hu => by rw [thread_reply, if_neg (Ne.symm hu), thread_release]⟩

theorem untouched_setHolder (h : Option Nat) : s.Untouched t { s with holder := h } :=
  ⟨rfl, rfl, rfl, rfl, rfl, rfl, fun _ _ => rfl⟩

/-- A step of a thread that waits. -/
theorem Step.untouched (h : Step s (.step t) s') (hp : (s.phase t).bides = true) :
    s.Untouched t s' ∧ (s'.phase t).bides = true := by
  cases h with
  | free _ c hq | enter _ c hq | stamp _ c v hq | refuse _ c i hq | begin _ c i hq | perform _ c hq | push _ c x r i d hq
  | overflow _ c x p r hq | unlock _ c i hq | notify _ c i hq => rw [hq] at hp; cases hp
  | serve | lapped | cancel | expire => exact ⟨untouched_reply _ _ _, by simp [Phase.bides]⟩
  | plan | again => exact ⟨untouched_become _, by simp [Phase.bides]⟩
  | sleep | slice | relock => exact ⟨(untouched_setHolder _).trans (untouched_become _), by simp [Phase.bides]⟩

/-- A call that ended, as seen from where it had come to. -/
theorem Ends.of_untouched {v : System α} {a : Answer α} (hu : s.Untouched t v)
    (hrep : (v.thread t).replies = (s.thread t).replies) (h : v.Ends t c a s') : s.Ends t c a s' :=
  ⟨h.phase, h.holder, h.ring.trans hu.ring, by rw [h.replies, hrep, hu.now]⟩

/-! ## Which step is next -/

theorem step?_idle (hp : s.phase t = .idle) : s.step? t = none := by simp [step?, hp]

theorem step?_free (hp : s.phase t = .ready c) (hl : c.request.lockFree = true) :
    s.step? t = some ({ s with flags := (s.answerFree c.request).1 }.reply t c (s.answerFree c.request).2 none) := by
  simp [step?, hp, hl]

theorem step?_ready_acquire (hp : s.phase t = .ready c) (hl : c.request.lockFree = false) :
    s.step? t = s.acquire t (.entered c) := by
  simp [step?, hp, hl]

theorem step?_ready (hp : s.phase t = .ready c) (hl : c.request.lockFree = false) (hn : s.holder = none) :
    s.step? t = some ({ s with holder := some t }.become t (.entered c)) := by
  rw [step?_ready_acquire hp hl]
  exact (acquire_eq_some s t).mpr ⟨hn, rfl⟩

theorem step?_entered (hp : s.phase t = .entered c) : s.step? t = some (s.enter t c) := by simp [step?, hp]

theorem step?_pushed (hp : s.phase t = .pushed c i) : s.step? t = some (s.release.become t (.unlocked c i)) := by
  simp [step?, hp]

theorem step?_unlocked (hp : s.phase t = .unlocked c i) :
    s.step? t = some (s.notifyAll.reply t c (.index i) none) := by
  simp [step?, hp]

theorem step?_looking (hp : s.phase t = .looking c w) : s.step? t = some (s.look t c w) := by simp [step?, hp]

theorem step?_planning (hp : s.phase t = .planning c w) :
    s.step? t = some (s.release.become t (.asleep c w (w.wakeAt s.settings.pollInterval s.now))) := by
  simp [step?, hp]

theorem step?_asleep {wake : Option Nat} (hp : s.phase t = .asleep c w wake) : s.step? t = none := by
  simp [step?, hp]

theorem step?_woken {ranOut : Bool} (hp : s.phase t = .woken c w ranOut) :
    s.step? t = s.acquire t (.resumed c w ranOut) := by
  simp [step?, hp]

/-- A waiter that has the lock again gives up only if its sleep ran out, its time has
    passed and its index is not there. -/
theorem step?_resumed {ranOut : Bool} (hp : s.phase t = .resumed c w ranOut) :
    s.step? t = some (if ranOut ∧ w.expired s.now ∧ s.ring.newest < w.target then
      s.giveUp t c (.timeout w.target (Instant.since w.started s.now)) else s.become t (.looking c w)) := by
  by_cases h : ranOut = true ∧ w.expired s.now = true ∧ s.ring.newest < w.target
  · simp [step?, hp, Waiter.lapse?, h]
  · simp only [step?, hp, Waiter.lapse?, h, if_false]

/-! ## Entering -/

theorem enter_refused (ht : c.request.target? s.settings.start = some i) (hg : c.request.guarded = true)
    (he : s.ring.evicted i = true) : s.enter t c = s.giveUp t c (.evicted i s.ring.oldest) := by
  unfold enter
  split
  · rename_i hr; rw [hr] at hg; cases hg
  · simp [ht, hg, he]

theorem not_refused_of_le {q : Request α} (h : s.ring.oldest ≤ i) :
    ¬ (q.guarded = true ∧ s.ring.evicted i = true) := by
  rintro ⟨-, he⟩
  simp only [Ring.evicted, decide_eq_true_eq] at he
  omega

theorem enter_looking (ht : c.request.target? s.settings.start = some i)
    (hg : ¬ (c.request.guarded = true ∧ s.ring.evicted i = true)) :
    s.enter t c = s.become t (.looking c ⟨i, c.patience, s.now⟩) := by
  unfold enter
  split
  · rename_i hr; rw [hr] at ht; cases ht
  · simp only [ht, hg, if_false]

/-! ## Looking -/

/-- A look that finds the index there ends the call with the verdict. -/
theorem look_served (hn : w.target ≤ s.ring.newest) : s.Ends t c (s.ring.verdict c.request) (s.look t c w) := by
  unfold look Waiter.look Ring.verdict
  simp only [hn, if_true]
  cases s.ring.serve c.request with
  | ok a => exact ends_reply a
  | error e => exact ends_giveUp e

/-- A look that does not, with the flag raised, cancels the call. -/
theorem look_cancelled {f : Nat} {d : Option Nat} (hn : s.ring.newest < w.target) (hw : w.patience = .cancellable f d)
    (hf : s.flags.isRaised f = true) : s.look t c w = s.giveUp t c (.cancelled w.target) := by
  have : ¬ w.target ≤ s.ring.newest := by omega
  simp [look, Waiter.look, this, hw, hf]

/-- A look that does not, with no flag to look at, goes to sleep. -/
theorem look_sleeps (hn : s.ring.newest < w.target) (hw : ∀ f d, w.patience ≠ .cancellable f d) :
    s.look t c w = s.release.become t (.asleep c w (w.wakeAt s.settings.pollInterval s.now)) := by
  have : ¬ w.target ≤ s.ring.newest := by omega
  cases hp : w.patience with
  | cancellable f d => exact absurd hp (hw f d)
  | forever | «until» d => simp [look, Waiter.look, Waiter.wakeAt, this, hp]

/-- With the flag down, the sleep is planned. -/
theorem look_plans {f : Nat} {d : Option Nat} (hn : s.ring.newest < w.target) (hw : w.patience = .cancellable f d)
    (hf : s.flags.isRaised f = false) : s.look t c w = s.become t (.planning c w) := by
  have : ¬ w.target ≤ s.ring.newest := by omega
  simp [look, Waiter.look, this, hw, hf]

/-- All that can come of a look. -/
theorem look_cases (s : System α) (t : Nat) (c : Call α) (w : Waiter) :
    w.target ≤ s.ring.newest ∧ s.Ends t c (s.ring.verdict c.request) (s.look t c w) ∨
    s.ring.newest < w.target ∧
      ((∃ f d, w.patience = .cancellable f d ∧ s.flags.isRaised f = true ∧
          s.look t c w = s.giveUp t c (.cancelled w.target)) ∨
        s.look t c w = s.become t (.planning c w) ∨
        ∃ wake, s.look t c w = s.release.become t (.asleep c w wake)) := by
  by_cases hn : w.target ≤ s.ring.newest
  · exact Or.inl ⟨hn, look_served hn⟩
  have hlt : s.ring.newest < w.target := by omega
  refine Or.inr ⟨hlt, ?_⟩
  by_cases hw : ∃ f d, w.patience = .cancellable f d
  · obtain ⟨f, d, hw⟩ := hw
    cases hf : s.flags.isRaised f with
    | true => exact Or.inl ⟨f, d, hw, hf, look_cancelled hlt hw hf⟩
    | false => exact Or.inr (Or.inl (look_plans hlt hw hf))
  · exact Or.inr (Or.inr ⟨_, look_sleeps hlt fun f d h => hw ⟨f, d, h⟩⟩)

/-! ## Two steps -/

/-- A waiter that has the lock again and finds its index there is answered with two steps. -/
theorem run?_resumed {ranOut : Bool} (hp : s.phase t = .resumed c w ranOut) (hn : w.target ≤ s.ring.newest) :
    ∃ s', s.run? [.step t, .step t] = some s' ∧ s.Ends t c (s.ring.verdict c.request) s' := by
  have h₁ : s.move? (.step t) = some (s.become t (.looking c w)) := by
    show s.step? t = _
    rw [step?_resumed hp, if_neg (by omega)]
  have h₂ : (s.become t (.looking c w)).move? (.step t) = some ((s.become t (.looking c w)).look t c w) :=
    step?_looking (by simp)
  have hends := look_served (s := s.become t (.looking c w)) (t := t) (c := c) (w := w) hn
  exact ⟨_, by rw [run?_cons_of_move? h₁, run?_cons_of_move? h₂]; rfl, hends.of_become⟩

/-- One that has just got the lock and does not find its index there is cancelled with two
    steps if its flag is raised. -/
theorem run?_cancelled {f : Nat} {d : Option Nat} (hp : s.phase t = .entered c)
    (ht : c.request.target? s.settings.start = some i) (hg : ¬ (c.request.guarded = true ∧ s.ring.evicted i = true))
    (hw : c.patience = .cancellable f d) (hn : s.ring.newest < i) (hf : s.flags.isRaised f = true) :
    ∃ s', s.run? [.step t, .step t] = some s' ∧ s.Ends t c (c.request.refusal (.cancelled i)) s' := by
  have h₁ : s.move? (.step t) = some (s.become t (.looking c ⟨i, c.patience, s.now⟩)) := by
    show s.step? t = _
    rw [step?_entered hp, enter_looking ht hg]
  have h₂ : (s.become t (.looking c ⟨i, c.patience, s.now⟩)).move? (.step t) = some
      ((s.become t (.looking c ⟨i, c.patience, s.now⟩)).giveUp t c (.cancelled i)) := by
    have hlook := look_cancelled (s := s.become t (.looking c ⟨i, c.patience, s.now⟩)) (t := t) (c := c)
      (w := ⟨i, c.patience, s.now⟩) hn hw hf
    exact (step?_looking (by simp)).trans (congrArg some hlook)
  have hends := ends_giveUp (s := s.become t (.looking c ⟨i, c.patience, s.now⟩)) (t := t) (c := c) (.cancelled i)
  exact ⟨_, by rw [run?_cons_of_move? h₁, run?_cons_of_move? h₂]; rfl, hends.of_become⟩

/-! ## Between taking the lock and the end -/

/-- With the lock, each of a thread's own steps brings its call from one phase of `P` to
    another, or ends it with an answer of `A`. -/
def StepsWithin (s : System α) (t : Nat) (c : Call α) (P : Phase α → Prop) (A : Answer α → Prop)
    (moves : List (Move α)) : Prop :=
  ∀ before u u', before <+: moves → s.run? before = some u → u.ring = s.ring → P (u.phase t) → u.step? t = some u' →
    u'.ring = u.ring ∧ (u'.thread t).replies = (u.thread t).replies ∧ P (u'.phase t) ∨ ∃ a, A a ∧ u.Ends t c a u'

/-- What a thread's own steps do while it has the lock comes of any run of everybody. -/
theorem run_section {P : Phase α → Prop} {A : Answer α → Prop} (hl : s.Locked) (hholds : ∀ p, P p → p.holds = true)
    (own : s.StepsWithin t c P A moves) (hp : P (s.phase t)) (hr : s.run? moves = some s') :
    s'.ring = s.ring ∧ (s'.thread t).replies = (s.thread t).replies ∧ P (s'.phase t) ∨
      ∃ newer r, (s'.thread t).replies = newer ++ r :: (s.thread t).replies ∧ r.call = c ∧ A r.answer := by
  refine run_prefix_induction (I := fun _ v =>
    v.ring = s.ring ∧ (v.thread t).replies = (s.thread t).replies ∧ P (v.phase t) ∨
      ∃ newer r, (v.thread t).replies = newer ++ r :: (s.thread t).replies ∧ r.call = c ∧ A r.answer)
    (Or.inl ⟨rfl, rfl, hp⟩) ?_ hr
  intro before v m v' hpre hb hm ih
  have hs := step_of_move? hm
  rcases ih with ⟨hring, hrep, hv⟩ | ⟨newer, r, hrep, hcall, ha⟩
  · by_cases hself : m = .step t
    · subst hself
      have hpre' : before <+: moves := (List.prefix_append _ _).trans hpre
      rcases own before v v' hpre' hb hring hv hm with ⟨hring', hrep', hv'⟩ | ⟨a, ha, he⟩
      · exact Or.inl ⟨hring'.trans hring, hrep'.trans hrep, hv'⟩
      · exact Or.inr ⟨[], ⟨c, a, v.now⟩, by rw [he.replies, hrep]; rfl, rfl, ha⟩
    · obtain ⟨hring', hthread⟩ := hs.frozen (run_locked hl hb) (hholds _ hv) hself
      refine Or.inl ⟨hring'.trans hring, by rw [hthread, hrep], ?_⟩
      rw [phase, hthread]
      exact hv
  · obtain ⟨newer', hrep'⟩ := hs.replies_newer hrep
    exact Or.inr ⟨newer', r, hrep', hcall, ha⟩

theorem reply_of_section {P : Phase α → Prop} {A : Answer α → Prop} (hl : s.Locked) (hholds : ∀ p, P p → p.holds = true)
    (own : s.StepsWithin t c P A moves) (hp : P (s.phase t)) (hr : s.run? moves = some s') {newer : List (Reply α)}
    {r : Reply α} (hrep : (s'.thread t).replies = newer ++ r :: (s.thread t).replies) : r.call = c ∧ A r.answer := by
  rcases run_section hl hholds own hp hr with ⟨-, hsame, -⟩ | ⟨newer', r', hrep', hcall, ha⟩
  · exact absurd (hsame.symm.trans hrep) ne_of_reply
  · obtain rfl : r' = r := first_reply (hrep'.symm.trans hrep)
    exact ⟨hcall, ha⟩

end System

end Chronicle
