/-
  Chronicle.Proofs.System.Lock — mutual exclusion, and what it keeps still.

  `s.Locked`: the lock is with a thread exactly while that thread's phase says so. So no
  two threads hold it (`Locked.unique`), and while a thread holds it, no step of another
  changes the series or that thread (`Step.frozen`).
-/

import Chronicle.Proofs.System.Run

namespace Chronicle.System

variable {α : Type} {s s' : System α} {m : Move α} {moves : List (Move α)} {t u : Nat}

/-- The lock is with the thread whose phase says so. -/
def Locked (s : System α) : Prop := ∀ t, s.holder = some t ↔ (s.phase t).holds = true

theorem Locked.unique (h : s.Locked) (ht : (s.phase t).holds = true) (hu : (s.phase u).holds = true) : t = u :=
  Option.some.inj (((h t).mpr ht).symm.trans ((h u).mpr hu))

theorem Locked.free (h : s.Locked) (hn : s.holder = none) (t : Nat) : (s.phase t).holds = false := by
  cases hp : (s.phase t).holds with
  | false => rfl
  | true => rw [(h t).mpr hp] at hn; cases hn

/-- A thread that neither takes the lock nor gives it up. -/
theorem Locked.kept (h : s.Locked) (hh : s'.holder = s.holder)
    (hother : ∀ u, u ≠ t → (s'.phase u).holds = (s.phase u).holds) (hp : (s'.phase t).holds = (s.phase t).holds) :
    s'.Locked := by
  intro u
  rw [hh]
  by_cases e : u = t
  · subst e; rw [hp]; exact h u
  · rw [hother u e]; exact h u

/-- A thread that takes the lock while it is free. -/
theorem Locked.taken (h : s.Locked) (hn : s.holder = none) (hh : s'.holder = some t)
    (hother : ∀ u, u ≠ t → (s'.phase u).holds = (s.phase u).holds) (hp : (s'.phase t).holds = true) : s'.Locked := by
  intro u
  rw [hh]
  by_cases e : u = t
  · subst e; simp [hp]
  · rw [hother u e, h.free hn u]
    simp only [Option.some.injEq, Bool.false_eq_true, iff_false]
    exact fun h' => e h'.symm

/-- A thread that gives the lock up. -/
theorem Locked.given (h : s.Locked) (ht : (s.phase t).holds = true) (hh : s'.holder = none)
    (hother : ∀ u, u ≠ t → (s'.phase u).holds = (s.phase u).holds) (hp : (s'.phase t).holds = false) : s'.Locked := by
  intro u
  rw [hh]
  by_cases e : u = t
  · subst e; simp [hp]
  · rw [hother u e]
    cases hu : (s.phase u).holds with
    | false => simp
    | true => exact absurd (h.unique hu ht) e

theorem Step.holds_other (h : Step s m s') (hu : m.mover? ≠ some u) : (s'.phase u).holds = (s.phase u).holds :=
  h.reading_other holds_notified hu

theorem Step.locked (h : Step s m s') (hl : s.Locked) : s'.Locked := by
  have other := fun t (ht : m.mover? = some t) u (hu : u ≠ t) =>
    h.holds_other (u := u) (by rw [ht]; simpa using Ne.symm hu)
  cases h with
  | elapse time => exact hl
  | call t r hp | free t c hp | notify t c i hp | runOut t c w wake hp | stir t c w wake hp | stamp t c v hp
  | begin t c i hp | push t c x r i d hp | plan t c w f d hp | again t c w r hp =>
    exact hl.kept rfl (other t rfl) (by simp [hp, Phase.holds])
  | enter t c hp _ hn | relock t c w r hp hn => exact hl.taken hn rfl (other t rfl) (by simp [Phase.holds])
  | refuse t c i hp | perform t c hp | overflow t c x p r hp | unlock t c i hp | serve t c w a hp | lapped t c w e hp
  | cancel t c w f d hp | sleep t c w hp | slice t c w hp | expire t c w hp =>
    exact hl.given (t := t) (by rw [hp]; rfl) rfl (other t rfl) (by simp [Phase.holds])

theorem run_locked (hl : s.Locked) (hr : s.run? moves = some s') : s'.Locked :=
  run_invariant (fun _ _ _ _ h => h.locked) hl hr

/-! ## A critical section -/

theorem Step.frozen (h : Step s m s') (hl : s.Locked) (ht : (s.phase t).holds = true) (hm : m ≠ .step t) :
    s'.ring = s.ring ∧ s'.thread t = s.thread t := by
  have hne : ∀ u, (s.phase u).holds = false → u ≠ t := fun u hu e => by rw [e, ht] at hu; cases hu
  have alone : ∀ u, m = .step u → (s.phase u).holds = true → False := fun u e hu => by
    rw [hl.unique hu ht] at e; exact hm e
  cases h with
  | elapse time => exact ⟨rfl, rfl⟩
  | call u r hp | free u c hp | enter u c hp | relock u c w r hp | runOut u c w wake hp | stir u c w wake hp =>
    exact ⟨rfl, by simp [hne u (by rw [hp]; rfl)]⟩
  | notify u c i hp =>
    refine ⟨rfl, ?_⟩
    have hno : (s.thread t).phase.notified = (s.thread t).phase := by
      show (s.phase t).notified = s.phase t
      cases hpt : s.phase t <;> simp_all [Phase.notified, Phase.holds]
    simp [hne u (by rw [hp]; rfl), hno]
  | stamp u c v hp | begin u c i hp | push u c x r i d hp | plan u c w f d hp | again u c w r hp
  | refuse u c i hp | perform u c hp | overflow u c x p r hp | unlock u c i hp | serve u c w a hp | lapped u c w e hp
  | cancel u c w f d hp | sleep u c w hp | slice u c w hp | expire u c w hp =>
    exact (alone u rfl (by rw [hp]; rfl)).elim

end Chronicle.System
