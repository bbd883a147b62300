/-
  Chronicle.Proofs.System.Ask — a request that a thread makes and sees through alone.

  `s.ask? t q` makes the request and takes the thread's steps until the call ends or
  sleeps. It is what the request does in the state `s`: `s.Answers t q a` says that it is
  answered at once, `s.Blocks t q` that it goes to sleep.

  Proved, for an idle thread, a free lock and a request that waits for the index `i`:
  evicted on entry it is told so, whatever its limit and its flag (`ask?_refused`,
  `answers_evicted`); an index that is there is served (`ask?_served`, `answers_served`);
  otherwise a raised flag cancels it (`answers_cancelled`), and without one it sleeps
  (`ask?_blocks`, `blocks`). None of this touches the series or another thread. So any request whose index
  was pushed is told the verdict, except a wait for one that is gone (`answers_verdict`).
-/

import Chronicle.Session
import Chronicle.Proofs.System.Wait

namespace Chronicle

variable {α : Type}

def Limit.raised (flags : Flags) : Limit → Bool
  | .cancellable f _ => flags.isRaised f
  | _ => false

def Patience.raised (flags : Flags) : Patience → Bool
  | .cancellable f _ => flags.isRaised f
  | _ => false

theorem raised_startingAt (flags : Flags) (now : Nat) (l : Limit) :
    (l.startingAt now).raised flags = l.raised flags := by
  cases l with
  | within d => show (Patience.upTo _).raised flags = false; cases Instant.after? now d <;> rfl
  | _ => rfl

namespace System

/-- The system after a thread made a request and took its steps alone. -/
def ask? (s : System α) (t : Nat) (q : Request α) : Option (System α) := (s.call? t q).map (·.rest t)

def callOf (s : System α) (q : Request α) : Call α := ⟨q, s.now, q.limit.startingAt s.now⟩

/-- Made now, the request is answered at once. -/
def Answers (s : System α) (t : Nat) (q : Request α) (a : Answer α) : Prop :=
  ∃ s', s.ask? t q = some s' ∧ s'.phase t = .idle ∧
    (s'.thread t).replies = ⟨s.callOf q, a, s.now⟩ :: (s.thread t).replies

/-- Made now, the request goes to sleep, with the lock released. -/
def Blocks (s : System α) (t : Nat) (q : Request α) : Prop :=
  ∃ s' w wake, s.ask? t q = some s' ∧ s'.phase t = .asleep (s.callOf q) w wake ∧ s'.holder = none ∧
    (s'.thread t).replies = (s.thread t).replies

variable {s s' : System α} {t : Nat} {q : Request α} {c : Call α} {w : Waiter} {i : Int}

/-! ## Alone -/

theorem drive_step {n : Nat} (h : s.step? t = some s') : s.drive t (n + 1) = s'.drive t n := by simp [drive, h]

theorem drive_stop (h : s.step? t = none) (n : Nat) : s.drive t n = s := by
  cases n <;> simp [drive, h]

theorem drive_untouched (hp : (s.phase t).bides = true) (n : Nat) : s.Untouched t (s.drive t n) := by
  induction n generalizing s with
  | zero => exact .refl s t
  | succ n ih =>
    cases hs : s.step? t with
    | none => rw [drive_stop hs]; exact .refl s t
    | some s' =>
      obtain ⟨hu, hp'⟩ := (step_of_move? (m := .step t) hs).untouched hp
      rw [drive_step hs]
      exact hu.trans (ih hp')

theorem rest_untouched (hp : (s.phase t).bides = true) : s.Untouched t (s.rest t) := drive_untouched hp mostSteps

theorem rest_stop (h : s.step? t = none) : s.rest t = s := drive_stop h mostSteps

theorem drive_served {n : Nat} (hp : s.phase t = .looking c w) (hn : w.target ≤ s.ring.newest) :
    s.drive t (n + 1) = s.look t c w := by
  rw [drive_step (step?_looking hp), drive_stop (step?_idle (look_served hn).phase)]

theorem drive_cancelled {n f : Nat} {d : Option Nat} (hp : s.phase t = .looking c w) (hn : s.ring.newest < w.target)
    (hw : w.patience = .cancellable f d) (hf : s.flags.isRaised f = true) :
    s.drive t (n + 1) = s.giveUp t c (.cancelled w.target) := by
  rw [drive_step (step?_looking hp), look_cancelled hn hw hf, drive_stop (step?_idle (by simp))]

theorem drive_blocks {n : Nat} (hp : s.phase t = .looking c w) (hn : s.ring.newest < w.target)
    (hf : w.patience.raised s.flags = false) :
    (s.drive t (n + 2)).phase t = .asleep c w (w.wakeAt s.settings.pollInterval s.now) ∧
      (s.drive t (n + 2)).holder = none ∧ ((s.drive t (n + 2)).thread t).replies = (s.thread t).replies := by
  rw [drive_step (step?_looking hp)]
  by_cases hw : ∃ f d, w.patience = .cancellable f d
  · obtain ⟨f, d, hw⟩ := hw
    have hdown : s.flags.isRaised f = false := by simpa only [hw, Patience.raised] using hf
    have hplan : (s.become t (.planning c w)).phase t = .planning c w := by simp
    rw [look_plans hn hw hdown, drive_step (step?_planning hplan),
      drive_stop (step?_asleep (by simp; exact ⟨rfl, rfl, rfl⟩))]
    exact ⟨by simp; rfl, rfl, by simp⟩
  · rw [look_sleeps hn (fun f d h => hw ⟨f, d, h⟩), drive_stop (step?_asleep (by simp; exact ⟨rfl, rfl, rfl⟩))]
    exact ⟨by simp, rfl, by simp⟩

/-- The thread has just got the lock for its request. -/
def entering (s : System α) (t : Nat) (q : Request α) : System α :=
  { s.become t (.ready (s.callOf q)) with holder := some t }.become t (.entered (s.callOf q))

def waiterOf (s : System α) (q : Request α) (i : Int) : Waiter := ⟨i, q.limit.startingAt s.now, s.now⟩

def watching (s : System α) (t : Nat) (q : Request α) (i : Int) : System α :=
  (s.entering t q).become t (.looking (s.callOf q) (s.waiterOf q i))

theorem phase_entering : (s.entering t q).phase t = .entered (s.callOf q) := by simp [entering]

@[simp] theorem replies_entering : ((s.entering t q).thread t).replies = (s.thread t).replies := by
  unfold entering
  rw [thread_become, if_pos rfl, thread_setHolder, thread_become, if_pos rfl]

theorem untouched_entering : s.Untouched t (s.entering t q) :=
  (untouched_become _).trans ((untouched_setHolder _).trans (untouched_become _))

theorem untouched_watching : s.Untouched t (s.watching t q i) := untouched_entering.trans (untouched_become _)

theorem phase_watching : (s.watching t q i).phase t = .looking (s.callOf q) (s.waiterOf q i) := by simp [watching]

@[simp] theorem replies_watching : ((s.watching t q i).thread t).replies = (s.thread t).replies := by
  unfold watching
  rw [thread_become, if_pos rfl, replies_entering]

theorem ask?_eq (hi : s.phase t = .idle) (hh : s.holder = none) (hl : q.lockFree = false) :
    s.ask? t q = some ((s.entering t q).drive t 5) := by
  have hc : s.call? t q = some (s.become t (.ready (s.callOf q))) := by simp [call?, hi, callOf]
  have hs : (s.become t (.ready (s.callOf q))).step? t = some (s.entering t q) := step?_ready (by simp) hl hh
  rw [ask?, hc, Option.map_some, rest, mostSteps, drive_step hs]

section

variable (hi : s.phase t = .idle) (hh : s.holder = none) (ht : q.target? s.settings.start = some i)

include hi hh ht

/-- Evicted on entry, a read or wait for an index is told so. -/
theorem ask?_refused (hg : q.guarded = true) (he : s.ring.evicted i = true) :
    ∃ s', s.ask? t q = some s' ∧ s.Untouched t s' ∧ s.Ends t (s.callOf q) (.failed (.evicted i s.ring.oldest)) s' := by
  have href : q.refusal (.evicted i s.ring.oldest) = .failed (.evicted i s.ring.oldest) := by
    cases q <;> first | rfl | cases hg
  have hstep := step?_entered (s := s.entering t q) phase_entering
  rw [enter_refused (s := s.entering t q) (c := s.callOf q) ht hg he] at hstep
  refine ⟨(s.entering t q).giveUp t (s.callOf q) (.evicted i s.ring.oldest), ?_,
    untouched_entering.trans (untouched_reply _ _ _), ?_⟩
  · rw [ask?_eq hi hh (lockFree_of_target? ht), drive_step hstep, drive_stop (step?_idle (by simp))]
    rfl
  · rw [← href]
    exact (ends_giveUp _).of_untouched untouched_entering replies_entering

theorem answers_evicted (hg : q.guarded = true) (he : s.ring.evicted i = true) :
    s.Answers t q (.failed (.evicted i s.ring.oldest)) := by
  obtain ⟨s', hask, -, hends⟩ := ask?_refused hi hh ht hg he
  exact ⟨s', hask, hends.phase, hends.replies⟩

section

variable (hg : ¬ (q.guarded = true ∧ s.ring.evicted i = true))

include hg

theorem ask?_watching : s.ask? t q = some ((s.watching t q i).drive t 4) := by
  have hstep := step?_entered (s := s.entering t q) phase_entering
  rw [enter_looking (s := s.entering t q) (c := s.callOf q) ht hg] at hstep
  rw [ask?_eq hi hh (lockFree_of_target? ht), drive_step hstep]
  rfl

/-- An index that is there is served. -/
theorem ask?_served (hn : i ≤ s.ring.newest) :
    ∃ s', s.ask? t q = some s' ∧ s.Untouched t s' ∧ s.Ends t (s.callOf q) (s.ring.verdict q) s' := by
  have hends := look_served (s := s.watching t q i) (t := t) (c := s.callOf q) (w := s.waiterOf q i) hn
  refine ⟨_, ask?_watching hi hh ht hg, untouched_watching.trans (drive_untouched (by rw [phase_watching]; rfl) 4), ?_⟩
  rw [drive_served phase_watching hn]
  exact hends.of_untouched untouched_watching replies_watching

theorem answers_served (hn : i ≤ s.ring.newest) : s.Answers t q (s.ring.verdict q) := by
  obtain ⟨s', hask, -, hends⟩ := ask?_served hi hh ht hg hn
  exact ⟨s', hask, hends.phase, hends.replies⟩

/-- An index that is not there is not waited for while the flag is raised, however short
    the time. -/
theorem answers_cancelled {f : Nat} {d : Option Duration} (hn : s.ring.newest < i)
    (hl : q.limit = .cancellable f d) (hf : s.flags.isRaised f = true) :
    s.Answers t q (q.refusal (.cancelled i)) := by
  have hw : (s.waiterOf q i).patience = .cancellable f (d.bind (Instant.after? s.now)) := by
    simp only [waiterOf, hl, Limit.startingAt]
  refine ⟨_, ask?_watching hi hh ht hg, ?_⟩
  rw [drive_cancelled phase_watching hn hw hf]
  exact ⟨by simp, by rw [thread_giveUp, if_pos rfl, replies_watching]; rfl⟩

/-- An index that is not there is waited for, unless the flag is raised. -/
theorem ask?_blocks (hn : s.ring.newest < i) (hf : q.limit.raised s.flags = false) :
    ∃ s', s.ask? t q = some s' ∧ s.Untouched t s' ∧ s'.phase t = .asleep (s.callOf q) (s.waiterOf q i)
      ((s.waiterOf q i).wakeAt s.settings.pollInterval s.now) ∧ s'.holder = none ∧
      (s'.thread t).replies = (s.thread t).replies := by
  have hdown : (s.waiterOf q i).patience.raised (s.watching t q i).flags = false := by
    show (q.limit.startingAt s.now).raised s.flags = false
    rw [raised_startingAt, hf]
  obtain ⟨hp, hh', hr⟩ := drive_blocks (n := 2) phase_watching hn hdown
  exact ⟨_, ask?_watching hi hh ht hg, untouched_watching.trans (drive_untouched (by rw [phase_watching]; rfl) 4), hp,
    hh', hr.trans replies_watching⟩

theorem blocks (hn : s.ring.newest < i) (hf : q.limit.raised s.flags = false) : s.Blocks t q := by
  obtain ⟨s', hask, -, hp, hfree, hrep⟩ := ask?_blocks hi hh ht hg hn hf
  exact ⟨s', _, _, hask, hp, hfree, hrep⟩

end

/-- A request whose index was pushed is told the verdict; only a wait for an index that is
    evicted is told so instead. -/
theorem answers_verdict (hn : i ≤ s.ring.newest) (hq : ∀ j l, q ≠ .await j l) : s.Answers t q (s.ring.verdict q) := by
  by_cases hg : q.guarded = true ∧ s.ring.evicted i = true
  · obtain ⟨hguard, hev⟩ := hg
    cases q with
    | read view j limit =>
      cases ht
      rw [Ring.verdict_evicted (by simpa [Ring.evicted] using hev)]
      exact answers_evicted hi hh rfl rfl hev
    | await j l => exact absurd rfl (hq j l)
    | _ => cases hguard
  · exact answers_served hi hh ht hg hn

end

end System

end Chronicle
