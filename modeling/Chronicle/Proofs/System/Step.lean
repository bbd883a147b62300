/-
  Chronicle.Proofs.System.Step — everything a move can do, case by case.

  `Step s m s'` lists the moves with what allows each and the system after it. It is
  `System.move?` read as a relation (`step_of_move?`); all that follows about runs is
  proved by cases of a `Step`, and unfolds no move again.

  Proved of every step: the settings and the clock stay, time does not go back
  (`Step.settings`, `Step.clock`, `Step.now_le`); a thread that does not move keeps its
  phase, up to being woken (`Step.phase_other`), and so all that a notification preserves
  (`Step.kept_other`); a reply is added only where a thread's own step ends its call, and
  none is taken back (`Step.replies`, `Step.replies_newer`); the flags change only by a call
  about them (`Step.flags`).
-/

import Chronicle.System.Lemmas

namespace Chronicle

variable {α : Type}

/-- The thread a move is made by, if time does not just pass. -/
def Move.mover? : Move α → Option Nat
  | .call t _ | .step t | .runOut t | .stir t => some t
  | .elapse _ => none

namespace System

/-- A move, what allows it, and the system after it. -/
inductive Step (s : System α) : Move α → System α → Prop
  | call (t : Nat) (r : Request α) : s.phase t = .idle →
      Step s (.call t r) (s.become t (.ready ⟨r, s.now, r.limit.startingAt s.now⟩))
  | free (t : Nat) (c : Call α) : s.phase t = .ready c → c.request.lockFree = true →
      Step s (.step t) ({ s with flags := (s.answerFree c.request).1 }.reply t c (s.answerFree c.request).2 none)
  | enter (t : Nat) (c : Call α) : s.phase t = .ready c → c.request.lockFree = false → s.holder = none →
      Step s (.step t) ({ s with holder := some t }.become t (.entered c))
  | stamp (t : Nat) (c : Call α) (v : α) : s.phase t = .entered c → c.request = .append v →
      Step s (.step t)
        ({ s with readings := s.readings + 1 }.become t (.stamped c ⟨v, s.clock s.readings s.now⟩))
  | refuse (t : Nat) (c : Call α) (i : Int) : s.phase t = .entered c →
      c.request.target? s.settings.start = some i → c.request.guarded = true → s.ring.evicted i = true →
      Step s (.step t) (s.giveUp t c (.evicted i s.ring.oldest))
  | begin (t : Nat) (c : Call α) (i : Int) : s.phase t = .entered c →
      c.request.target? s.settings.start = some i → ¬ (c.request.guarded = true ∧ s.ring.evicted i = true) →
      Step s (.step t) (s.become t (.looking c ⟨i, c.patience, s.now⟩))
  | perform (t : Nat) (c : Call α) : s.phase t = .entered c → (∀ v, c.request ≠ .append v) →
      c.request.target? s.settings.start = none →
      Step s (.step t)
        ({ s with ring := (s.ring.perform s.settings.start c.request).1 }.release.reply t c
          (s.ring.perform s.settings.start c.request).2 none)
  | push (t : Nat) (c : Call α) (x : Sample α) (ring : Ring (Sample α)) (i : Int) (d : Option (Sample α)) :
      s.phase t = .stamped c x → s.ring.push x = .ok (i, d) ring →
      Step s (.step t) ({ s with ring }.become t (.pushed c i))
  | overflow (t : Nat) (c : Call α) (x : Sample α) (p : Panic) (ring : Ring (Sample α)) :
      s.phase t = .stamped c x → s.ring.push x = .error p ring →
      Step s (.step t) ({ s with ring }.release.reply t c (.panicked p) none)
  | unlock (t : Nat) (c : Call α) (i : Int) : s.phase t = .pushed c i →
      Step s (.step t) (s.release.become t (.unlocked c i))
  | notify (t : Nat) (c : Call α) (i : Int) : s.phase t = .unlocked c i →
      Step s (.step t) (s.notifyAll.reply t c (.index i) none)
  | serve (t : Nat) (c : Call α) (w : Waiter) (a : Answer α) : s.phase t = .looking c w →
      w.target ≤ s.ring.newest → s.ring.serve c.request = .ok a →
      Step s (.step t) (s.release.reply t c a none)
  | lapped (t : Nat) (c : Call α) (w : Waiter) (e : ReadFault) : s.phase t = .looking c w →
      w.target ≤ s.ring.newest → s.ring.serve c.request = .error e →
      Step s (.step t) (s.giveUp t c e)
  | cancel (t : Nat) (c : Call α) (w : Waiter) (f : Nat) (d : Option Nat) : s.phase t = .looking c w →
      s.ring.newest < w.target → w.patience = .cancellable f d → s.flags.isRaised f = true →
      Step s (.step t) (s.giveUp t c (.cancelled w.target))
  | plan (t : Nat) (c : Call α) (w : Waiter) (f : Nat) (d : Option Nat) : s.phase t = .looking c w →
      s.ring.newest < w.target → w.patience = .cancellable f d → s.flags.isRaised f = false →
      Step s (.step t) (s.become t (.planning c w))
  | sleep (t : Nat) (c : Call α) (w : Waiter) : s.phase t = .looking c w →
      s.ring.newest < w.target → (∀ f d, w.patience ≠ .cancellable f d) →
      Step s (.step t) (s.release.become t (.asleep c w (w.wakeAt s.settings.pollInterval s.now)))
  | slice (t : Nat) (c : Call α) (w : Waiter) : s.phase t = .planning c w →
      Step s (.step t) (s.release.become t (.asleep c w (w.wakeAt s.settings.pollInterval s.now)))
  | relock (t : Nat) (c : Call α) (w : Waiter) (ranOut : Bool) : s.phase t = .woken c w ranOut → s.holder = none →
      Step s (.step t) ({ s with holder := some t }.become t (.resumed c w ranOut))
  | expire (t : Nat) (c : Call α) (w : Waiter) : s.phase t = .resumed c w true →
      w.expired s.now = true → s.ring.newest < w.target →
      Step s (.step t) (s.giveUp t c (.timeout w.target (Instant.since w.started s.now)))
  | again (t : Nat) (c : Call α) (w : Waiter) (ranOut : Bool) : s.phase t = .resumed c w ranOut →
      ¬ (ranOut = true ∧ w.expired s.now = true ∧ s.ring.newest < w.target) →
      Step s (.step t) (s.become t (.looking c w))
  | runOut (t : Nat) (c : Call α) (w : Waiter) (wake : Nat) : s.phase t = .asleep c w (some wake) → wake ≤ s.now →
      Step s (.runOut t) (s.become t (.woken c w true))
  | stir (t : Nat) (c : Call α) (w : Waiter) (wake : Option Nat) : s.phase t = .asleep c w wake →
      Step s (.stir t) (s.become t (.woken c w false))
  | elapse (time : Nat) : Step s (.elapse time) (s.elapse time)

variable {s s' : System α} {m : Move α}

theorem step_of_enter {t : Nat} {c : Call α} (hp : s.phase t = .entered c) : Step s (.step t) (s.enter t c) := by
  unfold enter
  split
  · exact .stamp t c _ hp ‹_›
  · rename_i hr
    split
    · rename_i i ht
      split
      · rename_i h; exact .refuse t c i hp ht h.1 h.2
      · rename_i h; exact .begin t c i hp ht h
    · rename_i ht
      exact .perform t c hp hr ht

theorem step_of_look {t : Nat} {c : Call α} {w : Waiter} (hp : s.phase t = .looking c w) :
    Step s (.step t) (s.look t c w) := by
  unfold look Waiter.look
  by_cases hn : w.target ≤ s.ring.newest
  · simp only [hn, if_true]
    cases hs : s.ring.serve c.request with
    | ok a => exact .serve t c w a hp hn hs
    | error e => exact .lapped t c w e hp hn hs
  · have hn' : s.ring.newest < w.target := by omega
    simp only [hn, if_false]
    cases hw : w.patience with
    | forever =>
      have h := Step.sleep t c w hp hn' (by simp [hw])
      simpa [Waiter.wakeAt, hw] using h
    | «until» d =>
      have h := Step.sleep t c w hp hn' (by simp [hw])
      simpa [Waiter.wakeAt, hw] using h
    | cancellable f d =>
      cases hf : s.flags.isRaised f with
      | true => simpa [hf] using Step.cancel t c w f d hp hn' hw hf
      | false => simpa [hf] using Step.plan t c w f d hp hn' hw hf

/-- A move that is possible is one of the steps. -/
theorem step_of_move? (h : s.move? m = some s') : Step s m s' := by
  cases m with
  | call t r =>
    simp only [move?, call?] at h
    split at h
    · cases h; exact .call t r ‹_›
    · cases h
  | step t =>
    simp only [move?, step?] at h
    split at h
    · cases h
    · cases h
    · rename_i c hp
      split at h
      · cases h; exact .free t c hp ‹_›
      · rename_i hf
        obtain ⟨hh, rfl⟩ := (acquire_eq_some s t).mp h
        exact .enter t c hp (by simpa using hf) hh
    · cases h; exact step_of_enter ‹_›
    · rename_i c x hp
      split at h
      · cases h; exact .push t c x _ _ _ hp ‹_›
      · cases h; exact .overflow t c x _ _ hp ‹_›
    · cases h; exact .unlock t _ _ ‹_›
    · cases h; exact .notify t _ _ ‹_›
    · cases h; exact step_of_look ‹_›
    · cases h; exact .slice t _ _ ‹_›
    · rename_i c w ranOut hp
      obtain ⟨hh, rfl⟩ := (acquire_eq_some s t).mp h
      exact .relock t c w ranOut hp hh
    · rename_i c w ranOut hp
      by_cases hl : ranOut = true ∧ w.expired s.now = true ∧ s.ring.newest < w.target
      · obtain ⟨rfl, he, hn⟩ := hl
        simp only [Waiter.lapse?, he, hn, and_self, if_true, Option.some.injEq] at h
        subst h; exact .expire t c w hp he hn
      · simp only [Waiter.lapse?, hl, if_false, Option.some.injEq] at h
        subst h; exact .again t c w ranOut hp hl
  | runOut t =>
    simp only [move?, runOut?] at h
    split at h
    · rename_i c w wake hp
      split at h
      · cases h; exact .runOut t c w wake hp ‹_›
      · cases h
    · cases h
  | stir t =>
    simp only [move?, stir?] at h
    split at h
    · cases h; exact .stir t _ _ _ ‹_›
    · cases h
  | elapse time => cases h; exact .elapse time

/-! ## What no step changes -/

section Frame

variable (s : System α) (t u : Nat)

@[simp] theorem thread_setRing (r : Ring (Sample α)) : { s with ring := r }.thread u = s.thread u := rfl
@[simp] theorem thread_setFlags (f : Flags) : { s with flags := f }.thread u = s.thread u := rfl
@[simp] theorem thread_setHolder (h : Option Nat) : { s with holder := h }.thread u = s.thread u := rfl
@[simp] theorem thread_setReadings (n : Nat) : { s with readings := n }.thread u = s.thread u := rfl
@[simp] theorem phase_setRing (r : Ring (Sample α)) : { s with ring := r }.phase u = s.phase u := rfl
@[simp] theorem phase_setFlags (f : Flags) : { s with flags := f }.phase u = s.phase u := rfl
@[simp] theorem phase_setHolder (h : Option Nat) : { s with holder := h }.phase u = s.phase u := rfl
@[simp] theorem phase_setReadings (n : Nat) : { s with readings := n }.phase u = s.phase u := rfl
@[simp] theorem thread_elapse (time : Nat) : (s.elapse time).thread u = s.thread u := rfl
@[simp] theorem phase_elapse (time : Nat) : (s.elapse time).phase u = s.phase u := rfl
@[simp] theorem now_release : s.release.now = s.now := rfl
@[simp] theorem now_notifyAll : s.notifyAll.now = s.now := rfl
@[simp] theorem holder_giveUp (c : Call α) (e : ReadFault) : (s.giveUp t c e).holder = none := rfl

@[simp] theorem thread_giveUp (c : Call α) (e : ReadFault) :
    (s.giveUp t c e).thread u =
      if t = u then ⟨.idle, ⟨c, c.request.refusal e, s.now⟩ :: (s.thread t).replies, e.event :: (s.thread t).trace⟩
      else s.thread u :=
  thread_reply ..

@[simp] theorem phase_giveUp (c : Call α) (e : ReadFault) :
    (s.giveUp t c e).phase u = if t = u then .idle else s.phase u :=
  phase_reply ..

end Frame

theorem Step.settings (h : Step s m s') : s'.settings = s.settings := by cases h <;> rfl

theorem Step.clock (h : Step s m s') : s'.clock = s.clock := by cases h <;> rfl

theorem Step.now_le (h : Step s m s') : s.now ≤ s'.now := by
  cases h with
  | elapse time => exact Nat.le_add_right _ _
  | _ => exact Nat.le_refl _

/-- A thread that is not moved keeps its call, unless it sleeps and is woken. -/
theorem Step.phase_other (h : Step s m s') {u : Nat} (hu : m.mover? ≠ some u) :
    s'.phase u = s.phase u ∨ s'.phase u = (s.phase u).notified := by
  cases h with
  | notify t c i hp =>
    have : t ≠ u := fun e => hu (by simp [Move.mover?, e])
    exact Or.inr (by simp [this])
  | elapse time => exact Or.inl rfl
  | call t | free t | enter t | stamp t | refuse t | begin t | perform t | push t | overflow t | unlock t | serve t
  | lapped t | cancel t | plan t | sleep t | slice t | relock t | expire t | again t | runOut t | stir t =>
    have : t ≠ u := fun e => hu (by simp [Move.mover?, e])
    exact Or.inl (by simp [this])

/-- What a notification preserves of a phase is kept while others move. -/
theorem Step.kept_other {P : Phase α → Prop} (hP : ∀ {p}, P p → P p.notified) (h : Step s m s') {u : Nat}
    (hu : m.mover? ≠ some u) (hp : P (s.phase u)) : P (s'.phase u) := by
  rcases h.phase_other hu with e | e
  · rwa [e]
  · rw [e]
    exact hP hp

/-- What a notification does not change of a phase stays as it is while others move. -/
theorem Step.reading_other {β : Type} {f : Phase α → β} (hf : ∀ p, f p.notified = f p) (h : Step s m s') {u : Nat}
    (hu : m.mover? ≠ some u) : f (s'.phase u) = f (s.phase u) :=
  h.kept_other (P := fun p => f p = f (s.phase u)) (fun hp => (hf _).trans hp) hu rfl

/-- A phase that is no wake-up was there before, if others move. -/
theorem Step.phase_before (h : Step s m s') {u : Nat} (hu : m.mover? ≠ some u) {p : Phase α} (hp : s'.phase u = p)
    (hwoken : ∀ c w, p ≠ .woken c w false) : s.phase u = p := by
  rcases h.phase_other hu with e | e
  · exact e.symm.trans hp
  · subst hp
    rw [e] at hwoken ⊢
    cases hs : s.phase u with
    | asleep c w wake =>
      rw [hs] at hwoken
      exact absurd rfl (hwoken c w)
    | _ => rfl

/-- A step adds to a thread's replies only when it ends that thread's call. -/
theorem Step.replies (h : Step s m s') (u : Nat) :
    (s'.thread u).replies = (s.thread u).replies ∨
      ∃ r, m = .step u ∧ r.ended = s.now ∧ s'.phase u = .idle ∧ (s'.thread u).replies = r :: (s.thread u).replies := by
  cases h with
  | elapse time => exact Or.inl rfl
  | free t c | refuse t c | perform t c | overflow t c | notify t c | serve t c | lapped t c | cancel t c
  | expire t c =>
    by_cases e : t = u
    · subst e; exact Or.inr ⟨⟨c, _, s.now⟩, rfl, rfl, by simp, by simp; rfl⟩
    · exact Or.inl (by simp [e])
  | call t | enter t | stamp t | begin t | push t | unlock t | plan t | sleep t | slice t | relock t | again t
  | runOut t | stir t =>
    refine Or.inl ?_
    by_cases e : t = u <;> simp [e]

theorem Step.replies_other (h : Step s m s') {u : Nat} (hu : m ≠ .step u) :
    (s'.thread u).replies = (s.thread u).replies := by
  rcases h.replies u with e | ⟨_, e, _⟩
  · exact e
  · exact absurd e hu

/-- Replies that were given stay. -/
theorem Step.replies_newer (h : Step s m s') {u : Nat} {newer old : List (Reply α)}
    (hrep : (s.thread u).replies = newer ++ old) : ∃ newer', (s'.thread u).replies = newer' ++ old := by
  rcases h.replies u with e | ⟨r, -, -, -, e⟩
  · exact ⟨newer, e.trans hrep⟩
  · exact ⟨r :: newer, by rw [e, hrep]; rfl⟩

/-- A thread that makes a call and does not sleep is moved by its own steps only. -/
theorem Step.eq_step (h : Step s m s') {t : Nat} (hm : m.mover? = some t) (hi : s.phase t ≠ .idle)
    (ha : ∀ c w wake, s.phase t ≠ .asleep c w wake) : m = .step t := by
  cases h with
  | elapse time => cases hm
  | call u r hp => cases hm; exact absurd hp hi
  | runOut u c w wake hp => cases hm; exact absurd hp (ha c w (some wake))
  | stir u c w wake hp => cases hm; exact absurd hp (ha c w wake)
  | _ => cases hm; rfl

/-- The flags change only where a call about them is made. -/
theorem Step.flags (h : Step s m s') :
    s'.flags = s.flags ∨
      ∃ t c a, m = .step t ∧ s.phase t = .ready c ∧ c.request = .flag a ∧ s'.flags = s.flags.after a := by
  cases h with
  | free t c hp =>
    cases hq : c.request with
    | flag a => exact Or.inr ⟨t, c, a, rfl, hp, hq, by simp only [reply, answerFree]⟩
    | _ => exact Or.inl (by simp only [reply, answerFree])
  | _ => exact Or.inl rfl

/-- A call that is made and not yet begun was made just now, or was there before. -/
theorem Step.ready (h : Step s m s') {u : Nat} {c : Call α} (hp : s'.phase u = .ready c) :
    s.phase u = .ready c ∨ m = .call u c.request := by
  by_cases hu : m.mover? ≠ some u
  · exact Or.inl (h.phase_before hu hp (by simp))
  · replace hu := Decidable.not_not.mp hu
    cases h with
    | elapse time => cases hu
    | call t r => cases hu; simp only [phase_become, if_true, Phase.ready.injEq] at hp; subst hp; exact Or.inr rfl
    | free t | refuse t | perform t | overflow t | notify t | serve t | lapped t | cancel t | expire t =>
      cases hu
      simp only [phase_reply, phase_giveUp, if_true] at hp
      cases hp
    | enter t | stamp t | begin t | push t | unlock t | plan t | sleep t | slice t | relock t | again t | runOut t
    | stir t =>
      cases hu
      simp only [phase_become, if_true] at hp
      cases hp

end System

end Chronicle
