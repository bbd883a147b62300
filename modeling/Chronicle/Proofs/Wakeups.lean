/-
  Chronicle.Proofs.Wakeups — no wakeup is lost.

  An append wakes the sleepers after it has released the lock, so others run between its
  push and its wake-up. The invariant (`Waking`) is that whoever sleeps although its index
  was pushed will be woken: the append that pushed this very index has yet to wake the
  sleepers. A sleeper joins the wait set with the lock, when its index is not there
  (`Step.asleep`); an append keeps owing its wake-up until it wakes everybody
  (`Step.owes`); one that fails has pushed nothing.

  Proved: every step keeps it (`Waking.step`), so it holds of every reachable state
  (`no_lost_wakeup`). An index is available once the append that pushed it has released
  the lock; while no append is between its release and its wake-up, nobody sleeps on an
  available index.
-/

import Chronicle.Proofs.System.Coherence

namespace Chronicle

variable {α : Type}

/-- An append that pushed the index and has yet to wake the sleepers. -/
def Phase.Owes (i : Int) : Phase α → Prop
  | .pushed _ j | .unlocked _ j => j = i
  | _ => False

theorem Phase.Owes.cases {i : Int} {p : Phase α} (h : p.Owes i) : ∃ c, p = .pushed c i ∨ p = .unlocked c i := by
  cases p with
  | pushed c j => cases h; exact ⟨c, Or.inl rfl⟩
  | unlocked c j => cases h; exact ⟨c, Or.inr rfl⟩
  | _ => cases h

theorem Phase.Owes.notified {i : Int} {p : Phase α} (h : p.Owes i) : p.notified.Owes i := by
  cases p <;> exact h

namespace System

/-- The index was pushed, and the append that did so has released the lock. -/
def Available (s : System α) (i : Int) : Prop := i ≤ s.ring.newest ∧ ∀ u c, s.phase u ≠ .pushed c i

theorem available_iff_of_free {s : System α} (hl : s.Locked) (hn : s.holder = none) {i : Int} :
    s.Available i ↔ i ≤ s.ring.newest := by
  refine ⟨fun h => h.1, fun h => ⟨h, fun u c hu => ?_⟩⟩
  have := hl.free hn u
  rw [hu] at this
  cases this

/-- Whoever sleeps on an index that was pushed will be woken by the append that did so. -/
def Waking (s : System α) : Prop :=
  ∀ t c w wake, s.phase t = .asleep c w wake → w.target ≤ s.ring.newest → ∃ u, (s.phase u).Owes w.target

variable {s s' : System α} {m : Move α} {log : List (Sample α)} {t u : Nat} {i : Int}

/-- A sleeper was asleep before, or has just looked and not found its index. -/
theorem Step.asleep (h : Step s m s') {c : Call α} {w : Waiter} {wake : Option Nat}
    (hp : s'.phase t = .asleep c w wake) :
    s.phase t = .asleep c w wake ∨
      s'.ring = s.ring ∧ (s.phase t = .planning c w ∨ s.phase t = .looking c w ∧ s.ring.newest < w.target) := by
  by_cases ht : m.mover? ≠ some t
  · exact Or.inl (h.phase_before ht hp (by simp))
  replace ht := Decidable.not_not.mp ht
  cases h with
  | elapse time => cases ht
  | sleep u c' w' hu hn =>
    cases ht
    simp only [phase_become, if_true, Phase.asleep.injEq] at hp
    obtain ⟨rfl, rfl, -⟩ := hp
    exact Or.inr ⟨rfl, Or.inr ⟨hu, hn⟩⟩
  | slice u c' w' hu =>
    cases ht
    simp only [phase_become, if_true, Phase.asleep.injEq] at hp
    obtain ⟨rfl, rfl, -⟩ := hp
    exact Or.inr ⟨rfl, Or.inl hu⟩
  | free u | refuse u | perform u | overflow u | notify u | serve u | lapped u | cancel u | expire u =>
    cases ht
    simp only [phase_reply, phase_giveUp, if_true] at hp
    cases hp
  | call u | enter u | stamp u | begin u | push u | unlock u | plan u | relock u | again u | runOut u | stir u =>
    cases ht
    simp only [phase_become, if_true] at hp
    cases hp

/-- An append owes its wake-up until it has woken everybody. -/
theorem Step.owes (h : Step s m s') (hu : (s.phase u).Owes i) :
    (s'.phase u).Owes i ∨ ∀ t c w wake, s'.phase t ≠ .asleep c w wake := by
  by_cases hm : m.mover? ≠ some u
  · exact Or.inl (h.kept_other (P := fun p => p.Owes i) Phase.Owes.notified hm hu)
  replace hm := Decidable.not_not.mp hm
  cases h with
  | elapse time => cases hm
  | unlock t c j hp =>
    cases hm
    rw [hp] at hu
    simp only [phase_become, if_true]
    exact Or.inl hu
  | notify t c j hp =>
    refine Or.inr fun v c' w wake hv => ?_
    rw [phase_reply, phase_notifyAll] at hv
    split at hv
    · cases hv
    · cases hs : s.phase v <;> rw [hs] at hv <;> cases hv
  | call t r hp | free t c hp | enter t c hp | stamp t c v hp | refuse t c j hp | begin t c j hp | perform t c hp
  | push t c x r j d hp | overflow t c x p r hp | serve t c w a hp | lapped t c w e hp | cancel t c w f d hp
  | plan t c w f d hp | sleep t c w hp | slice t c w hp | relock t c w r hp | expire t c w hp | again t c w r hp
  | runOut t c w wake hp | stir t c w wake hp =>
    cases hm
    rw [hp] at hu
    cases hu

/-- An index that a step makes the newest was pushed by it. -/
theorem Coherent.owes_of_pushed (h : s.Coherent log) (hs : Step s m s') (hlt : s.ring.newest < i)
    (hle : i ≤ s'.ring.newest) : ∃ u, (s'.phase u).Owes i := by
  rcases hs.ring h.window with ⟨hr | ⟨j, hr⟩, -⟩ | ⟨u, c, x, j, d, rfl, hp, he, hu⟩
  · rw [hr] at hle; omega
  · rw [hr] at hle; simp only [Ring.tag] at hle; omega
  · obtain ⟨-, hring, hj⟩ := h.window.push he
    have hnewest := h.window.newest_eq
    refine ⟨u, ?_⟩
    rw [hring] at hle
    simp only [Ring.pushed] at hle
    rw [hu]
    show j = i
    omega

theorem Waking.step (h : s.Waking) (hc : s.Coherent log) (hs : Step s m s') : s'.Waking := by
  intro t c w wake hp hn
  rcases hs.asleep hp with hold | ⟨hring, hnew⟩
  · by_cases hpushed : w.target ≤ s.ring.newest
    · obtain ⟨u, hu⟩ := h t c w wake hold hpushed
      rcases hs.owes hu with hu' | hnone
      · exact ⟨u, hu'⟩
      · exact absurd hp (hnone t c w wake)
    · exact hc.owes_of_pushed hs (by omega) hn
  · -- whoever has just joined the wait set held the lock and did not find its index
    have hlt : s.ring.newest < w.target := by
      rcases hnew with hplan | ⟨-, hlt⟩
      · have hf := hc.fits t
        rw [hplan] at hf
        exact hf.2.1
      · exact hlt
    rw [hring] at hn
    omega

theorem Waking.of_run {moves : List (Move α)} (h : s.Waking) (hc : s.Coherent log) (hr : s.run? moves = some s') :
    s'.Waking :=
  (run_induction (I := fun l u => u.Coherent l ∧ u.Waking)
    (fun _ _ _ _ _ hs hI => ⟨hI.1.step hs, hI.2.step hI.1 hs⟩) ⟨hc, h⟩ hr).2

variable {o : Opening} {memory : Memory} {clock : Clock} {now : Nat} {s₀ : System α} {moves : List (Move α)}

/-- Whoever sleeps on an index that was pushed is about to be woken by the append that did
    so; while no append has yet to wake the sleepers, nobody sleeps on an available index.
    What is available is, to whoever takes the lock, what was pushed. -/
theorem no_lost_wakeup (ho : (o.run memory clock now).2 = .opened s₀) (hr : s₀.run? moves = some s) {t : Nat} {c : Call α}
    {w : Waiter} {wake : Option Nat} (hp : s.phase t = .asleep c w wake) :
    (w.target ≤ s.ring.newest → ∃ u c', (∃ v, c'.request = .append v) ∧
      (s.phase u = .pushed c' w.target ∨ s.phase u = .unlocked c' w.target)) ∧
    ((∀ u c' i, s.phase u ≠ .unlocked c' i) → ¬ s.Available w.target) ∧
    ((∀ u c' i, s.phase u ≠ .unlocked c' i ∧ s.phase u ≠ .pushed c' i) → s.ring.newest < w.target) ∧
    (s.holder = none → ∀ i, s.Available i ↔ i ≤ s.ring.newest) := by
  have hc := Coherent.of_reached ho hr
  have hwaking : s.Waking := by
    refine Waking.of_run ?_ (Coherent.of_opened ho) hr
    intro t c w wake hp
    obtain ⟨-, ring, -, rfl⟩ := Opening.eq_initial_of_opened ho
    simp [phase] at hp
  have hproducer : w.target ≤ s.ring.newest → ∃ u c', (∃ v, c'.request = .append v) ∧
      (s.phase u = .pushed c' w.target ∨ s.phase u = .unlocked c' w.target) := by
    intro hn
    obtain ⟨u, hu⟩ := hwaking t c w wake hp hn
    obtain ⟨c', hu | hu⟩ := hu.cases
    · have hf := hc.fits u
      rw [hu] at hf
      exact ⟨u, c', hf.2.1, Or.inl hu⟩
    · have hf := hc.fits u
      rw [hu] at hf
      exact ⟨u, c', hf.2.1, Or.inr hu⟩
  refine ⟨hproducer, ?_, ?_, fun hfree i => available_iff_of_free hc.locked hfree⟩
  · rintro hnone ⟨hn, hreleased⟩
    obtain ⟨u, c', -, hu | hu⟩ := hproducer hn
    · exact hreleased u c' hu
    · exact hnone u c' _ hu
  · intro hnone
    by_cases hn : w.target ≤ s.ring.newest
    · obtain ⟨u, c', -, hu | hu⟩ := hproducer hn
      · exact absurd hu (hnone u c' _).2
      · exact absurd hu (hnone u c' _).1
    · omega

/-- A reader sleeps on the first index, with nobody else about; then an append has pushed
    that index and released the lock, and has yet to wake the reader. -/
theorem no_lost_wakeup_first :
    ∃ s s' : System Nat,
      small.run? (.call 1 (.read .value (-1) .forever) :: List.replicate 3 (.step 1)) = some s ∧
      s.run? (.call 0 (.append 10) :: List.replicate 4 (.step 0)) = some s' ∧
      (s.phase 1).sleepsOn? = some (-1) ∧ s.ring.newest < -1 ∧ ¬ s.Available (-1) ∧
      (s'.phase 1).sleepsOn? = some (-1) ∧ s'.holder = none ∧ s'.Available (-1) ∧
      ∃ u c, s'.phase u = .pushed c (-1) ∨ s'.phase u = .unlocked c (-1) := by
  have hwait : (small.run? (.call 1 (.read .value (-1) .forever) :: List.replicate 3 (.step 1))).any
      (fun s => decide ((s.phase 1).sleepsOn? = some (-1)) &&
        (s.run? (.call 0 (.append 10) :: List.replicate 4 (.step 0))).any fun s' =>
          decide ((s'.phase 1).sleepsOn? = some (-1) ∧ s'.holder = none ∧ -1 ≤ s'.ring.newest)) = true := by
    decide +kernel
  obtain ⟨s, hr, hs⟩ := exists_run hwait
  simp only [Bool.and_eq_true, decide_eq_true_eq] at hs
  obtain ⟨s', hr', hs'⟩ := exists_run hs.2
  simp only [decide_eq_true_eq] at hs'
  obtain ⟨hasleep, hfree, hn⟩ := hs'
  obtain ⟨c, w, wake, hp, hw⟩ := Phase.eq_asleep hs.1
  obtain ⟨c', w', wake', hp', hw'⟩ := Phase.eq_asleep hasleep
  obtain ⟨-, hunavailable, hnotyet, -⟩ := no_lost_wakeup small_opened hr hp
  obtain ⟨hproducer, -, -, havailable⟩ := no_lost_wakeup small_opened ((run?_append_of_run? hr).trans hr') hp'
  rw [hw] at hunavailable hnotyet
  rw [hw'] at hproducer
  -- the reader sleeps and every other thread is idle
  have halone : ∀ u c i, s.phase u ≠ .unlocked c i ∧ s.phase u ≠ .pushed c i := by
    intro u c i
    by_cases h1 : u = 1
    · rw [h1, hp]
      exact ⟨by simp, by simp⟩
    · have hidle : s.phase u = .idle := by
        refine run_idle (by simp [small, phase]) ?_ hr
        intro m hm
        simp only [List.mem_cons, List.mem_replicate] at hm
        rcases hm with rfl | ⟨-, rfl⟩ <;> simpa [Move.mover?] using Ne.symm h1
      rw [hidle]
      exact ⟨by simp, by simp⟩
  obtain ⟨u, c'', -, hu⟩ := hproducer hn
  exact ⟨s, s', hr, hr', hs.1, hnotyet halone, hunavailable fun u c i => (halone u c i).1, hasleep, hfree,
    (havailable hfree (-1)).mpr hn, u, c'', hu⟩

end System

end Chronicle
