/-
  Chronicle.Proofs.System.Attend — a call that waits through a history, by the clock.

  A history is a list of appends and at most one deadline, each at its instant, in the order
  they happen. A thread attends to it (`Attends`) if it sleeps no longer than it asked to and
  takes the lock again after every append. A slice of its sleep may end at the instant of an
  append, before it or after it; the end of its last slice is the deadline, and has its place
  in the history.

  What becomes of the call is read off the history alone (`fate`): the first append that
  brings its index ends it, or the deadline does, whichever comes first. A sleeper that
  attends comes to its fate, however often it wakes on the way (`Dozes.fate_of_attends`), and
  if its slices are not empty it can attend to any history (`Dozes.exists_attends`).
-/

import Chronicle.Proofs.System.Alone

namespace Chronicle

variable {α : Type}

/-! ## Histories -/

/-- What can happen while a call waits, and when. -/
inductive Occurrence (α : Type) where
  /-- A thread appends a value. -/
  | append (time writer : Nat) (value : α)
  /-- The time of the call is over. -/
  | deadline (time : Nat)

namespace Occurrence

def time : Occurrence α → Nat
  | append time .. | deadline time => time

def writer? : Occurrence α → Option Nat
  | append _ u _ => some u
  | deadline _ => none

end Occurrence

/-- A history from `now` on: time does not go back, and the deadline, if there is one, comes at
    its instant and once; before it nothing is later than it. -/
def Timely : Option Nat → Nat → List (Occurrence α) → Prop
  | _, _, [] => True
  | deadline, now, .append time _ _ :: history =>
    now ≤ time ∧ (∀ d ∈ deadline, time ≤ d) ∧ Timely deadline time history
  | deadline, now, .deadline time :: history => now ≤ time ∧ deadline = some time ∧ Timely none time history

theorem Timely.later {history : List (Occurrence α)} {deadline : Option Nat} {now now' : Nat} (h : Timely deadline now history)
    (hhead : ∀ x ∈ history.head?, now' ≤ x.time) : Timely deadline now' history := by
  cases history with
  | nil => trivial
  | cons x history =>
    have hle := hhead x rfl
    cases x with
    | append time u v => exact ⟨hle, h.2⟩
    | deadline time => exact ⟨hle, h.2⟩

def Patience.deadline? : Patience → Option Nat
  | .forever => none
  | .until d => some d
  | .cancellable _ d => d

def Phase.deadline? : Phase α → Option Nat
  | .asleep _ w _ => w.patience.deadline?
  | _ => none

/-- What comes of a wait for the index `i`: what is found once an append has brought it, or what
    is told at the deadline, and when; nothing if neither happens. -/
def outcome (clock : Clock) (i : Int) (found : Ring (Sample α) → Answer α) (late : Nat → Answer α) :
    Ring (Sample α) → Nat → List (Occurrence α) → Option (Answer α × Nat)
  | _, _, [] => none
  | r, n, .append time _ v :: history =>
    match r.push ⟨v, clock n time⟩ with
    | .ok _ r' => if i ≤ r'.newest then some (found r', time) else outcome clock i found late r' (n + 1) history
    | .error _ r' => outcome clock i found late r' (n + 1) history
  | _, _, .deadline time :: _ => some (late time, time)

/-! ## When a sleep ends -/

theorem Instant.eq_of_after? {now k : Nat} {d : Duration} (h : Instant.after? now d = some k) : k = now + d.toNanos := by
  simp only [Instant.after?, Option.ite_none_right_eq_some, Option.some.injEq] at h
  exact h.2.symm

theorem Instant.earlier_some (d : Nat) (t : Option Nat) : ∃ k, Instant.earlier (some d) t = some k ∧ k ≤ d ∧
    (k = d ∨ t = some k) := by
  cases t with
  | none => exact ⟨d, rfl, Nat.le_refl _, Or.inl rfl⟩
  | some k => exact ⟨min d k, rfl, Nat.min_le_left _ _, by simp only [Option.some.injEq]; omega⟩

theorem Instant.earlier_none (t : Option Nat) : Instant.earlier none t = t := by cases t <;> rfl

namespace Waiter

variable {w : Waiter} {poll : Duration} {planned k d : Nat}

/-- A sleep ends at the deadline, or before it after one poll interval. -/
theorem wakeAt_of_deadline (poll : Duration) (planned : Nat) (hd : w.patience.deadline? = some d) :
    ∃ k, w.wakeAt poll planned = some k ∧ k ≤ d ∧ (k = d ∨ k = planned + poll.toNanos) := by
  unfold wakeAt
  cases hp : w.patience with
  | forever => rw [hp] at hd; cases hd
  | «until» d' => rw [hp] at hd; cases hd; exact ⟨d, rfl, Nat.le_refl _, Or.inl rfl⟩
  | cancellable f d' =>
    rw [hp] at hd
    obtain rfl : d' = some d := hd
    obtain ⟨k, hk, hle, hor⟩ := Instant.earlier_some d (Instant.after? planned poll)
    exact ⟨k, hk, hle, hor.imp_right Instant.eq_of_after?⟩

/-- Without a deadline it ends after one poll interval, if at all. -/
theorem wakeAt_of_no_deadline (hk : w.wakeAt poll planned = some k) (hd : w.patience.deadline? = none) :
    k = planned + poll.toNanos := by
  unfold wakeAt at hk
  cases hp : w.patience with
  | forever => rw [hp] at hk; cases hk
  | «until» d' => rw [hp] at hd; cases hd
  | cancellable f d' =>
    rw [hp] at hd hk
    obtain rfl : d' = none := hd
    replace hk : Instant.earlier none (Instant.after? planned poll) = some k := hk
    rw [Instant.earlier_none] at hk
    exact Instant.eq_of_after? hk

theorem wakeAt_le_deadline (hk : w.wakeAt poll planned = some k) (hd : w.patience.deadline? = some d) : k ≤ d := by
  obtain ⟨k', hk', hle, -⟩ := wakeAt_of_deadline poll planned hd
  obtain rfl : k = k' := Option.some.inj (hk.symm.trans hk')
  exact hle

/-- A sleep that does not end at the deadline ends after one poll interval. -/
theorem wakeAt_of_ne_deadline (hk : w.wakeAt poll planned = some k) (hne : w.patience.deadline? ≠ some k) :
    k = planned + poll.toNanos := by
  cases hd : w.patience.deadline? with
  | none => exact wakeAt_of_no_deadline hk hd
  | some d =>
    obtain ⟨k', hk', -, hor⟩ := wakeAt_of_deadline poll planned hd
    obtain rfl : k = k' := Option.some.inj (hk.symm.trans hk')
    exact hor.resolve_left fun e => hne (by rw [hd, e])

/-- The time of a wait is over at its deadline. -/
theorem expired_of_deadline (hd : w.patience.deadline? = some d) : w.expired d = true := by
  unfold expired
  cases hp : w.patience with
  | forever => rw [hp] at hd; cases hd
  | «until» d' => rfl
  | cancellable f d' =>
    rw [hp] at hd
    obtain rfl : d' = some d := hd
    simp

/-- And not when a sleep ends before it. -/
theorem not_expired_of_ne_deadline (hk : w.wakeAt poll planned = some k) (hne : w.patience.deadline? ≠ some k) :
    w.expired k = false := by
  unfold expired
  cases hp : w.patience with
  | forever => rfl
  | «until» d' => simp only [wakeAt, hp] at hk; rw [hp] at hne; exact absurd hk hne
  | cancellable f d' =>
    cases d' with
    | none => rfl
    | some d =>
      have hd : w.patience.deadline? = some d := by rw [hp]; rfl
      have hle := wakeAt_le_deadline hk hd
      rw [hd] at hne
      replace hne : d ≠ k := fun e => hne (congrArg some e)
      simp only [decide_eq_false_iff_not]
      omega

/-- A sleep does not end before it begins. -/
theorem le_wakeAt (hk : w.wakeAt poll planned = some k) (hd : ∀ d ∈ w.patience.deadline?, planned ≤ d) :
    planned ≤ k := by
  by_cases h : w.patience.deadline? = some k
  · exact hd k h
  · have := wakeAt_of_ne_deadline hk h
    omega

end Waiter

namespace System

def upTo (s : System α) (time : Nat) : System α := s.elapse (time - s.now)

/-- A thread whose sleep has run out wakes, and takes its steps until it ends or sleeps anew. -/
def rouse (s : System α) (t : Nat) : System α := ((s.runOut? t).getD s).rest t

inductive Attends (t : Nat) : System α → List (Occurrence α) → System α → Prop
  | finish (s : System α) : Attends t s [] s
  /-- A slice of its sleep ends, not after the next occurrence. -/
  | slice {s s' : System α} {history : List (Occurrence α)} (k : Nat) :
      (s.phase t).wake? = some k → (s.phase t).deadline? ≠ some k → (∀ x ∈ history.head?, k ≤ x.time) →
      Attends t ((s.upTo k).rouse t) history s' → Attends t s history s'
  /-- A thread appends, and `t`, if it was woken, takes the lock before anybody else. -/
  | append {s s₁ s' : System α} {history : List (Occurrence α)} (time u : Nat) (v : α) :
      (∀ k, (s.phase t).wake? = some k → time ≤ k) → (s.upTo time).ask? u (.append v) = some s₁ →
      Attends t (s₁.rest t) history s' → Attends t s (.append time u v :: history) s'
  /-- The deadline has come. -/
  | deadline {s s' : System α} {history : List (Occurrence α)} (time : Nat) :
      (∀ k, (s.phase t).wake? = some k → time ≤ k) →
      Attends t ((s.upTo time).rouse t) history s' → Attends t s (.deadline time :: history) s'

/-- The call `c` of the thread `t`, which had these replies before, came to this: it was answered
    at some instant, or it is asleep. -/
def CameTo (s : System α) (t : Nat) (c : Call α) (old : List (Reply α)) : Option (Answer α × Nat) → Prop
  | some (a, time) => s.phase t = .idle ∧ (s.thread t).replies = ⟨c, a, time⟩ :: old
  | none => (∃ w wake, s.phase t = .asleep c w wake) ∧ (s.thread t).replies = old

/-- Made now by a thread that attends to the history, the request comes to this. -/
def ComesTo (s : System α) (t : Nat) (q : Request α) (history : List (Occurrence α)) (e : Option (Answer α × Nat)) :
    Prop :=
  ∃ s₁, s.ask? t q = some s₁ ∧ (∃ s', Attends t s₁ history s') ∧
    ∀ s', Attends t s₁ history s' → s'.CameTo t (s.callOf q) (s.thread t).replies e

/-- The lock is free, and the writers of the history have no call under way. -/
structure Ready (s : System α) (t : Nat) (history : List (Occurrence α)) : Prop where
  holder : s.holder = none
  writers : ∀ x ∈ history, ∀ u, x.writer? = some u → u ≠ t ∧ s.phase u = .idle

/-- The thread sleeps as it planned to, with reason. -/
structure Dozes (s : System α) (t : Nat) (c : Call α) (w : Waiter) (planned : Nat) : Prop where
  phase : s.phase t = .asleep c w (w.wakeAt s.settings.pollInterval planned)
  now_le : ∀ k, w.wakeAt s.settings.pollInterval planned = some k → s.now ≤ k
  short : s.ring.newest < w.target
  down : w.patience.raised s.flags = false
  window : ∃ start log, s.ring.Window start log

/-- What the history holds for a call that waits. -/
def fate (s : System α) (c : Call α) (w : Waiter) (history : List (Occurrence α)) : Option (Answer α × Nat) :=
  outcome s.clock w.target (·.verdict c.request)
    (fun time => c.request.refusal (.timeout w.target (Instant.since w.started time))) s.ring s.readings history

variable {s s' s₁ : System α} {t u : Nat} {c : Call α} {w : Waiter} {planned k time : Nat} {v : α}
  {history : List (Occurrence α)}

theorem now_upTo (h : s.now ≤ time) : (s.upTo time).now = time := by
  show s.now + (time - s.now) = time
  omega

theorem Ready.tail {x : Occurrence α} (h : s.Ready t (x :: history)) : s.Ready t history :=
  ⟨h.holder, fun y hy => h.writers y (List.mem_cons_of_mem _ hy)⟩

theorem Ready.upTo (h : s.Ready t history) (time : Nat) : (s.upTo time).Ready t history := ⟨h.holder, h.writers⟩

theorem Ready.untouched (h : s.Ready t history) (hu : s.Untouched t s') (hh : s'.holder = none) :
    s'.Ready t history := by
  refine ⟨hh, fun x hx u hw => ?_⟩
  obtain ⟨hne, hi⟩ := h.writers x hx u hw
  exact ⟨hne, by rw [System.phase, hu.others u hne]; exact hi⟩

theorem fate_congr (hc : s'.clock = s.clock) (hr : s'.ring = s.ring) (hn : s'.readings = s.readings)
    (history : List (Occurrence α)) : s'.fate c w history = s.fate c w history := by
  rw [fate, hc, hr, hn]
  rfl

/-! ## One occurrence -/

/-- A sleeper whose sleep ends wakes, and wants the lock. -/
theorem rouse_of_asleep (hp : s.phase t = .asleep c w (some k)) (hnow : s.now ≤ k) :
    ∃ v : System α, v.phase t = .woken c w true ∧ v.now = k ∧ v.holder = s.holder ∧ (s.upTo k).Untouched t v ∧
      (v.thread t).replies = (s.thread t).replies ∧ (s.upTo k).rouse t = v.rest t := by
  have hasleep : (s.upTo k).phase t = .asleep c w (some k) := hp
  have hk : (s.upTo k).now = k := now_upTo hnow
  refine ⟨(s.upTo k).become t (.woken c w true), by simp, hk, rfl, untouched_become _, ?_, ?_⟩
  · rw [thread_become, if_pos rfl]
    rfl
  · simp [rouse, runOut?, hasleep, hk]

/-- Whoever was woken while its index is not there, and has time left, dozes anew. -/
theorem Dozes.again {ranOut : Bool} (hp : s.phase t = .woken c w ranOut) (hh : s.holder = none)
    (hshort : s.ring.newest < w.target) (hdown : w.patience.raised s.flags = false)
    (hwindow : ∃ start log, s.ring.Window start log) (hl : ¬ (ranOut = true ∧ w.expired s.now = true))
    (hdeadline : ∀ d ∈ w.patience.deadline?, s.now ≤ d) :
    (s.rest t).Dozes t c w s.now ∧ (s.rest t).holder = none ∧ ((s.rest t).thread t).replies = (s.thread t).replies := by
  have hu : s.Untouched t (s.rest t) := rest_untouched (by rw [hp]; rfl)
  obtain ⟨hphase, hholder, hrep⟩ := rest_again hp hh hshort hdown hl
  refine ⟨⟨by rw [hu.settings]; exact hphase, ?_, by rw [hu.ring]; exact hshort, by rw [hu.flags]; exact hdown,
    by rw [hu.ring]; exact hwindow⟩, hholder, hrep⟩
  intro k hk
  rw [hu.now]
  exact Waiter.le_wakeAt hk hdeadline

/-- A slice of the sleep ends, and the next begins. -/
theorem Dozes.slice (hd : s.Dozes t c w planned) (hready : s.Ready t history)
    (hk : w.wakeAt s.settings.pollInterval planned = some k) (hne : w.patience.deadline? ≠ some k) :
    ((s.upTo k).rouse t).Dozes t c w k ∧ ((s.upTo k).rouse t).Ready t history ∧
      (s.upTo k).Untouched t ((s.upTo k).rouse t) ∧
      (((s.upTo k).rouse t).thread t).replies = (s.thread t).replies := by
  obtain ⟨v, hwoken, hnow, hholder, hu, hrep, hrouse⟩ :=
    rouse_of_asleep (by rw [← hk]; exact hd.phase) (hd.now_le k hk)
  have hlate : w.expired k = false := Waiter.not_expired_of_ne_deadline hk hne
  obtain ⟨hdozes, hfree, hrest⟩ := Dozes.again hwoken (hholder.trans hready.holder) (by rw [hu.ring]; exact hd.short)
    (by rw [hu.flags]; exact hd.down) (by rw [hu.ring]; exact hd.window) (by rw [hnow, hlate]; simp)
    (fun d hdl => by rw [hnow]; exact Waiter.wakeAt_le_deadline hk hdl)
  have huntouched := hu.trans (rest_untouched (by rw [hwoken]; rfl))
  rw [hnow] at hdozes
  rw [hrouse]
  exact ⟨hdozes, (hready.upTo k).untouched huntouched hfree, huntouched, hrest.trans hrep⟩

/-- The deadline has come. -/
theorem Dozes.late (hd : s.Dozes t c w planned) (hready : s.Ready t history) (hdeadline : w.patience.deadline? = some time)
    (hwake : ∀ k, w.wakeAt s.settings.pollInterval planned = some k → time ≤ k) :
    ((s.upTo time).rouse t).Ready t history ∧ ((s.upTo time).rouse t).now = time ∧
      ((s.upTo time).rouse t).phase t = .idle ∧ (((s.upTo time).rouse t).thread t).replies =
        ⟨c, c.request.refusal (.timeout w.target (Instant.since w.started time)), time⟩ :: (s.thread t).replies := by
  obtain ⟨k, hk, hle, -⟩ := Waiter.wakeAt_of_deadline s.settings.pollInterval planned hdeadline
  obtain rfl : k = time := Nat.le_antisymm hle (hwake k hk)
  obtain ⟨v, hwoken, hnow, hholder, hu, hrep, hrouse⟩ :=
    rouse_of_asleep (by rw [← hk]; exact hd.phase) (hd.now_le k hk)
  have hends := rest_expired hwoken (hholder.trans hready.holder) (by rw [hu.ring]; exact hd.short)
    (by rw [hnow]; exact Waiter.expired_of_deadline hdeadline)
  have huntouched := hu.trans (rest_untouched (by rw [hwoken]; rfl))
  rw [hrouse]
  exact ⟨(hready.upTo k).untouched huntouched hends.holder, huntouched.now.trans (now_upTo (hd.now_le k hk)),
    hends.phase, by rw [hends.replies, hnow, hrep]⟩

/-- What an append of the history does, whether it pushes or not. -/
theorem Ready.append (h : s.Ready t (.append time u v :: history)) (hnow : s.now ≤ time) :
    ∃ s₁ ring, (s.upTo time).ask? u (.append v) = some s₁ ∧ (s.upTo time).Appended u ring s₁ ∧ s₁.Ready t history ∧
      (s₁.thread t).replies = (s.thread t).replies ∧
      ((∃ i d, s.ring.push ⟨v, s.clock s.readings time⟩ = .ok (i, d) ring ∧ s₁.phase t = (s.phase t).notified) ∨
        (∃ p, s.ring.push ⟨v, s.clock s.readings time⟩ = .error p ring ∧ s₁.phase t = s.phase t)) := by
  obtain ⟨hne, hi⟩ := h.writers _ List.mem_cons_self u rfl
  have hstamp : (s.upTo time).stamp v = ⟨v, s.clock s.readings time⟩ := by
    show (⟨v, s.clock s.readings (s.upTo time).now⟩ : Sample α) = _
    rw [now_upTo hnow]
  -- the other writers have no call to be woken from
  have hready : ∀ {s₁ ring}, (s.upTo time).Appended u ring s₁ →
      (∀ y, y ≠ u → s.phase y = .idle → s₁.phase y = .idle) → s₁.Ready t history := by
    intro s₁ ring ha hphase
    refine ⟨ha.holder, fun x hx y hw => ?_⟩
    obtain ⟨hyt, hy⟩ := h.writers x (List.mem_cons_of_mem _ hx) y hw
    refine ⟨hyt, ?_⟩
    by_cases e : y = u
    · rw [e]; exact ha.idle
    · exact hphase y e hy
  cases he : s.ring.push ⟨v, s.clock s.readings time⟩ with
  | ok pushed ring =>
    obtain ⟨i, d⟩ := pushed
    obtain ⟨s₁, hask, ha, hphase⟩ := ask?_append (s := s.upTo time) (v := v) hi h.holder (by rw [hstamp]; exact he)
    refine ⟨s₁, ring, hask, ha, hready ha ?_, ha.replies t (Ne.symm hne), Or.inl ⟨i, d, rfl, hphase t (Ne.symm hne)⟩⟩
    intro y hy hidle
    rw [hphase y hy]
    show (s.phase y).notified = _
    rw [hidle]
    rfl
  | error p ring =>
    obtain ⟨s₁, hask, ha, hphase⟩ := ask?_append_full (s := s.upTo time) (v := v) hi h.holder (by rw [hstamp]; exact he)
    refine ⟨s₁, ring, hask, ha, hready ha ?_, ha.replies t (Ne.symm hne), Or.inr ⟨p, rfl, hphase t (Ne.symm hne)⟩⟩
    intro y hy hidle
    exact (hphase y hy).trans hidle

/-- An append brings the index, or the sleeper goes on. -/
theorem Dozes.append (hd : s.Dozes t c w planned) (hready : s.Ready t (.append time u v :: history)) (hnow : s.now ≤ time)
    (hdeadline : ∀ d ∈ w.patience.deadline?, time ≤ d)
    (hwake : ∀ k, w.wakeAt s.settings.pollInterval planned = some k → time ≤ k) :
    ∃ s₁, (s.upTo time).ask? u (.append v) = some s₁ ∧ (s₁.rest t).Ready t history ∧ (s₁.rest t).now = time ∧
      (s₁.rest t).settings = s.settings ∧
      ((∃ a, s.fate c w (.append time u v :: history) = some (a, time) ∧ (s₁.rest t).phase t = .idle ∧
          ((s₁.rest t).thread t).replies = ⟨c, a, time⟩ :: (s.thread t).replies) ∨
        s.fate c w (.append time u v :: history) = (s₁.rest t).fate c w history ∧
          ((s₁.rest t).thread t).replies = (s.thread t).replies ∧ ∃ planned', (s₁.rest t).Dozes t c w planned') := by
  obtain ⟨s₁, ring, hask, ha, hready₁, hrep, hcase⟩ := hready.append hnow
  have htime : s₁.now = time := ha.now.trans (now_upTo hnow)
  refine ⟨s₁, hask, ?_⟩
  obtain ⟨start, log, hwindow⟩ := hd.window
  rcases hcase with ⟨i, d, he, hphase⟩ | ⟨p, he, hphase⟩
  · have hwoken : s₁.phase t = .woken c w false := by rw [hphase, hd.phase]; rfl
    have hu : s₁.Untouched t (s₁.rest t) := rest_untouched (by rw [hwoken]; rfl)
    by_cases hn : w.target ≤ ring.newest
    · have hends := rest_served hwoken ha.holder (by rw [ha.ring]; exact hn)
      refine ⟨hready₁.untouched hu hends.holder, hu.now.trans htime, hu.settings.trans ha.settings,
        Or.inl ⟨ring.verdict c.request, ?_, hends.phase, ?_⟩⟩
      · simp only [fate, outcome, he, hn, if_true]
      · rw [hends.replies, ha.ring, htime, hrep]
    · obtain ⟨hdozes, hfree, hrest⟩ := Dozes.again hwoken ha.holder (by rw [ha.ring]; omega)
        (by rw [ha.flags]; exact hd.down) ⟨start, _, by rw [ha.ring]; exact (hwindow.push he).1⟩ (by simp)
        (by rw [htime]; exact hdeadline)
      refine ⟨hready₁.untouched hu hfree, hu.now.trans htime, hu.settings.trans ha.settings,
        Or.inr ⟨?_, hrest.trans hrep, _, hdozes⟩⟩
      rw [fate, fate, hu.clock, hu.ring, hu.readings, ha.clock, ha.ring, ha.readings]
      simp only [outcome, he, hn, if_false]
      rfl
  · obtain rfl := hwindow.eq_of_push_error he
    have hasleep := hphase.trans hd.phase
    rw [rest_stop (step?_asleep hasleep)]
    refine ⟨hready₁, htime, ha.settings, Or.inr ⟨?_, hrep, planned, ?_⟩⟩
    · rw [fate, fate, ha.clock, ha.ring, ha.readings]
      simp only [outcome, he]
      rfl
    · exact ⟨by rw [ha.settings]; exact hasleep, by rw [ha.settings, htime]; exact hwake, by rw [ha.ring]; exact hd.short,
        by rw [ha.flags]; exact hd.down, by rw [ha.ring]; exact hd.window⟩

/-! ## A whole history -/

theorem rouse_idle (hi : s.phase t = .idle) : s.rouse t = s := by
  simp [rouse, runOut?, hi, rest_stop (step?_idle hi)]

/-- An append of the history leaves a thread alone that has no call under way. -/
theorem Ready.append_idle (h : s.Ready t (.append time u v :: history)) (hnow : s.now ≤ time) (hi : s.phase t = .idle) :
    ∃ s₁, (s.upTo time).ask? u (.append v) = some s₁ ∧ s₁.rest t = s₁ ∧ s₁.Ready t history ∧ s₁.now = time ∧
      s₁.phase t = .idle ∧ (s₁.thread t).replies = (s.thread t).replies := by
  obtain ⟨s₁, ring, hask, ha, hready, hrep, hcase⟩ := h.append hnow
  have hidle : s₁.phase t = .idle := by
    rcases hcase with ⟨_, _, _, hphase⟩ | ⟨_, _, hphase⟩
    · rw [hphase, hi]; rfl
    · rw [hphase, hi]
  exact ⟨s₁, hask, rest_stop (step?_idle hidle), hready, ha.now.trans (now_upTo hnow), hidle, hrep⟩

/-- Whoever has no call under way has none in the end. -/
theorem Attends.idle (h : Attends t s history s') (hready : s.Ready t history) {deadline : Option Nat}
    (htimely : Timely deadline s.now history) (hi : s.phase t = .idle) :
    s'.phase t = .idle ∧ (s'.thread t).replies = (s.thread t).replies := by
  induction h generalizing deadline with
  | finish s => exact ⟨hi, rfl⟩
  | slice k hk => rw [hi] at hk; cases hk
  | append time u v _ hask _ ih =>
    obtain ⟨hle, -, hrest⟩ := htimely
    obtain ⟨s₁, hask', hstay, hready₁, hnow, hidle, hrep⟩ := hready.append_idle hle hi
    obtain rfl := Option.some.inj (hask'.symm.trans hask)
    rw [hstay] at ih
    obtain ⟨hphase, hreplies⟩ := ih hready₁ (by rw [hnow]; exact hrest) hidle
    exact ⟨hphase, hreplies.trans hrep⟩
  | @deadline s s' history time _ _ ih =>
    obtain ⟨hle, -, hrest⟩ := htimely
    have hi' : (s.upTo time).phase t = .idle := hi
    rw [rouse_idle hi'] at ih
    exact ih (hready.tail.upTo time) (by rw [now_upTo hle]; exact hrest) hi'

theorem exists_attends_of_idle (hready : s.Ready t history) {deadline : Option Nat}
    (htimely : Timely deadline s.now history) (hi : s.phase t = .idle) : ∃ s', Attends t s history s' := by
  have hnone : ∀ k, (s.phase t).wake? ≠ some k := by
    intro k hk
    rw [hi] at hk
    cases hk
  induction history generalizing s deadline with
  | nil => exact ⟨s, .finish s⟩
  | cons x history ih =>
    cases x with
    | append time u v =>
      obtain ⟨hle, -, hrest⟩ := htimely
      obtain ⟨s₁, hask, hstay, hready₁, hnow, hidle, -⟩ := hready.append_idle hle hi
      obtain ⟨s', h'⟩ := ih hready₁ (by rw [hnow]; exact hrest) hidle (fun k hk => by rw [hidle] at hk; cases hk)
      exact ⟨s', .append time u v (fun k hk => absurd hk (hnone k)) hask (by rw [hstay]; exact h')⟩
    | deadline time =>
      obtain ⟨hle, -, hrest⟩ := htimely
      have hi' : (s.upTo time).phase t = .idle := hi
      obtain ⟨s', h'⟩ := ih (hready.tail.upTo time) (by rw [now_upTo hle]; exact hrest) hi' hnone
      exact ⟨s', .deadline time (fun k hk => absurd hk (hnone k)) (by rw [rouse_idle hi']; exact h')⟩

/-- A sleeper that attends comes to its fate, whatever the slices of its sleep. -/
theorem Dozes.fate_of_attends (h : Attends t s history s') (hd : s.Dozes t c w planned) (hready : s.Ready t history)
    (htimely : Timely w.patience.deadline? s.now history) :
    s'.CameTo t c (s.thread t).replies (s.fate c w history) := by
  induction h generalizing planned with
  | finish s => exact ⟨⟨_, _, hd.phase⟩, rfl⟩
  | slice k hk hne hhead h' ih =>
    rw [hd.phase] at hk hne
    obtain ⟨hd', hready', hu, hrep⟩ := hd.slice hready hk hne
    have hnow := hu.now.trans (now_upTo (hd.now_le k hk))
    have hfate := ih hd' hready' (by rw [hnow]; exact htimely.later hhead)
    rw [hrep, fate_congr hu.clock hu.ring hu.readings] at hfate
    exact hfate
  | append time u v hwake hask h' ih =>
    rw [hd.phase] at hwake
    obtain ⟨hle, hdeadline, hrest⟩ := htimely
    obtain ⟨s₁, hask', hready₁, hnow, -, hcase⟩ := hd.append hready hle hdeadline hwake
    obtain rfl := Option.some.inj (hask'.symm.trans hask)
    rcases hcase with ⟨a, hfate, hidle, hrep⟩ | ⟨hfate, hrep, planned', hd'⟩
    · rw [hfate]
      obtain ⟨hphase, hreplies⟩ := h'.idle hready₁ (by rw [hnow]; exact hrest) hidle
      exact ⟨hphase, hreplies.trans hrep⟩
    · rw [hfate, ← hrep]
      exact ih hd' hready₁ (by rw [hnow]; exact hrest)
  | deadline time hwake h' ih =>
    rw [hd.phase] at hwake
    obtain ⟨hle, hdeadline, hrest⟩ := htimely
    obtain ⟨hready', hnow, hidle, hrep⟩ := hd.late hready.tail hdeadline hwake
    obtain ⟨hphase, hreplies⟩ := h'.idle hready' (by rw [hnow]; exact hrest) hidle
    exact ⟨hphase, hreplies.trans hrep⟩

/-- If its slices are not empty, a sleeper gets as far as the next occurrence. -/
theorem Dozes.exists_slices (hpoll : 0 < s.settings.pollInterval.toNanos) (hd : s.Dozes t c w planned)
    (hready : s.Ready t history) (hle : s.now ≤ time) (hhead : ∀ x ∈ history.head?, time ≤ x.time)
    (hdeadline : ∀ d ∈ w.patience.deadline?, time ≤ d) :
    ∃ s₁ planned', s₁.Dozes t c w planned' ∧ s₁.Ready t history ∧ s₁.now ≤ time ∧ s₁.settings = s.settings ∧
      (∀ k, w.wakeAt s₁.settings.pollInterval planned' = some k → time ≤ k) ∧
      ∀ s', Attends t s₁ history s' → Attends t s history s' := by
  -- every slice takes the plan further towards the occurrence
  induction hn : time - planned using Nat.strongRecOn generalizing s planned with
  | _ n ih =>
    by_cases hstop : ∀ k, w.wakeAt s.settings.pollInterval planned = some k → time ≤ k
    · exact ⟨s, planned, hd, hready, hle, rfl, hstop, fun _ h => h⟩
    simp only [Classical.not_forall, Nat.not_le, exists_prop] at hstop
    obtain ⟨k, hk, hlt⟩ := hstop
    have hne : w.patience.deadline? ≠ some k := by
      intro e
      have := hdeadline k e
      omega
    have hlater := Waiter.wakeAt_of_ne_deadline hk hne
    obtain ⟨hd', hready', hu, -⟩ := hd.slice hready hk hne
    have hset : ((s.upTo k).rouse t).settings = s.settings := hu.settings
    have hnow := hu.now.trans (now_upTo (hd.now_le k hk))
    obtain ⟨s₁, planned', hd₁, hready₁, hle₁, hset₁, hstop₁, hattends⟩ :=
      ih (time - k) (by omega) (by rw [hset]; exact hpoll) hd' hready' (by omega) rfl
    refine ⟨s₁, planned', hd₁, hready₁, hle₁, hset₁.trans hset, hstop₁, fun s' h => ?_⟩
    refine .slice k (by rw [hd.phase]; exact hk) (by rw [hd.phase]; exact hne) ?_ (hattends s' h)
    intro x hx
    have := hhead x hx
    omega

/-- If its slices are not empty, a sleeper can attend to any history. -/
theorem Dozes.exists_attends (hpoll : 0 < s.settings.pollInterval.toNanos) (hd : s.Dozes t c w planned)
    (hready : s.Ready t history) (htimely : Timely w.patience.deadline? s.now history) :
    ∃ s', Attends t s history s' := by
  induction history generalizing s planned with
  | nil => exact ⟨s, .finish s⟩
  | cons x history ih =>
    have hhead : ∀ y ∈ (x :: history).head?, x.time ≤ y.time := fun y hy => by cases hy; exact Nat.le_refl _
    cases x with
    | append time u v =>
      obtain ⟨hle, hdeadline, hrest⟩ := htimely
      obtain ⟨s₁, planned', hd₁, hready₁, hle₁, hset, hwake, hattends⟩ :=
        hd.exists_slices hpoll hready hle hhead hdeadline
      obtain ⟨s₂, hask, hready₂, hnow, hset₂, hcase⟩ := hd₁.append hready₁ hle₁ hdeadline hwake
      have hwake' : ∀ k, (s₁.phase t).wake? = some k → time ≤ k := by rw [hd₁.phase]; exact hwake
      obtain ⟨s', h'⟩ : ∃ s', Attends t (s₂.rest t) history s' := by
        rcases hcase with ⟨a, -, hidle, -⟩ | ⟨-, -, planned'', hd₂⟩
        · exact exists_attends_of_idle hready₂ (by rw [hnow]; exact hrest) hidle
        · exact ih (by rw [hset₂, hset]; exact hpoll) hd₂ hready₂ (by rw [hnow]; exact hrest)
      exact ⟨s', hattends s' (.append time u v hwake' hask h')⟩
    | deadline time =>
      obtain ⟨hle, hdeadline, hrest⟩ := htimely
      obtain ⟨s₁, planned', hd₁, hready₁, hle₁, hset, hwake, hattends⟩ :=
        hd.exists_slices hpoll hready hle hhead (fun d hd => by rw [hdeadline] at hd; cases hd; exact Nat.le_refl _)
      obtain ⟨hready₂, hnow, hidle, -⟩ := hd₁.late hready₁.tail hdeadline hwake
      have hwake' : ∀ k, (s₁.phase t).wake? = some k → time ≤ k := by rw [hd₁.phase]; exact hwake
      obtain ⟨s', h'⟩ := exists_attends_of_idle hready₂ (by rw [hnow]; exact hrest) hidle
      exact ⟨s', hattends s' (.deadline time hwake' h')⟩

end System

end Chronicle
