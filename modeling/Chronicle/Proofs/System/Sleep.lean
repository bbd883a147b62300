/-
  Chronicle.Proofs.System.Sleep — how a cancellable waiter falls asleep.

  It falls asleep in two steps: a look that does not find its index and sees its flag down,
  and the sleep itself, which is planned with the instant of that second step. Between the
  two it keeps the lock (`Planned`), so no append gets in between, but the flag may go up.

  Proved: every sleep of a cancellable waiter was planned so (`slept_of_run`); and as long as
  a flag is up, a waiter sleeps on it only if it slept, or had looked, when the flag went up
  (`slept_before_raise`).
-/

import Chronicle.Proofs.System.Coherence

namespace Chronicle

variable {α : Type}

def ownMoves (t : Nat) (moves : List (Move α)) : List (Move α) := moves.filter fun m => m.mover? = some t

theorem ownMoves_concat (t : Nat) (moves : List (Move α)) (m : Move α) :
    ownMoves t (moves ++ [m]) = ownMoves t moves ++ if m.mover? = some t then [m] else [] := by
  simp only [ownMoves, List.filter_append, List.append_cancel_left_eq]
  by_cases h : m.mover? = some t <;> simp [h]

/-- A slice of a cancellable wait ends after one poll interval or at the deadline, whichever comes
    first; if the interval goes beyond the last instant, at the deadline, if there is one. -/
theorem Waiter.wakeAt_cancellable {w : Waiter} {f : Nat} {deadline : Option Nat}
    (h : w.patience = .cancellable f deadline) (poll : Duration) (now : Nat) :
    w.wakeAt poll now = match Instant.after? now poll with
      | some e => some (deadline.elim e (min · e))
      | none => deadline := by
  unfold wakeAt
  rw [h]
  cases Instant.after? now poll <;> cases deadline <;> rfl

namespace System

variable {s s' s₀ : System α} {t f : Nat} {c : Call α} {w : Waiter} {wake : Option Nat} {d : Option Nat} {m : Move α}
  {moves : List (Move α)}

/-! ## Two steps -/

/-- Whoever plans a sleep planned it before, or has just looked and seen its flag down. -/
theorem Step.planning (h : Step s m s') (hp : s'.phase t = .planning c w) :
    s.phase t = .planning c w ∧ m.mover? ≠ some t ∨
      m = .step t ∧ s.phase t = .looking c w ∧ s.ring.newest < w.target ∧
        ∃ f d, w.patience = .cancellable f d ∧ s.flags.isRaised f = false := by
  by_cases ht : m.mover? ≠ some t
  · exact Or.inl ⟨h.phase_before ht hp (by simp), ht⟩
  replace ht := Decidable.not_not.mp ht
  cases h with
  | elapse time => cases ht
  | plan u c' w' f d hu hn hw hf =>
    cases ht
    simp only [phase_become, if_true, Phase.planning.injEq] at hp
    obtain ⟨rfl, rfl⟩ := hp
    exact Or.inr ⟨rfl, hu, hn, f, d, hw, hf⟩
  | free u | refuse u | perform u | overflow u | notify u | serve u | lapped u | cancel u | expire u =>
    cases ht
    simp only [phase_reply, phase_giveUp, if_true] at hp
    cases hp
  | call u | enter u | stamp u | begin u | push u | unlock u | sleep u | slice u | relock u | again u | runOut u
  | stir u =>
    cases ht
    simp only [phase_become, if_true] at hp
    cases hp

/-- A cancellable sleeper was asleep before, or had planned its sleep. -/
theorem Step.slept (h : Step s m s') (hp : s'.phase t = .asleep c w wake) (hw : w.patience = .cancellable f d) :
    s.phase t = .asleep c w wake ∧ m.mover? ≠ some t ∨
      m = .step t ∧ s.phase t = .planning c w ∧ wake = w.wakeAt s.settings.pollInterval s.now := by
  by_cases ht : m.mover? ≠ some t
  · exact Or.inl ⟨h.phase_before ht hp (by simp), ht⟩
  replace ht := Decidable.not_not.mp ht
  cases h with
  | elapse time => cases ht
  | sleep u c' w' hu hn hne =>
    cases ht
    simp only [phase_become, if_true, Phase.asleep.injEq] at hp
    obtain ⟨-, rfl, -⟩ := hp
    exact absurd hw (hne f d)
  | slice u c' w' hu =>
    cases ht
    simp only [phase_become, if_true, Phase.asleep.injEq] at hp
    obtain ⟨rfl, rfl, rfl⟩ := hp
    exact Or.inr ⟨rfl, hu, rfl⟩
  | free u | refuse u | perform u | overflow u | notify u | serve u | lapped u | cancel u | expire u =>
    cases ht
    simp only [phase_reply, phase_giveUp, if_true] at hp
    cases hp
  | call u | enter u | stamp u | begin u | push u | unlock u | plan u | relock u | again u | runOut u | stir u =>
    cases ht
    simp only [phase_become, if_true] at hp
    cases hp

/-! ## One hold of the lock -/

/-- The thread looked in `v`, did not find its index and saw its flag down; all through `mid` it
    has kept the lock and planned to sleep. -/
structure Planned (s₀ : System α) (t : Nat) (c : Call α) (w : Waiter) (f : Nat) (before mid : List (Move α))
    (v : System α) : Prop where
  reached : s₀.run? before = some v
  looking : v.phase t = .looking c w
  missing : v.ring.newest < w.target
  down : v.flags.isRaised f = false
  kept : ∀ l x, l <+: mid → s₀.run? (before ++ [.step t] ++ l) = some x → x.holder = some t ∧ x.phase t = .planning c w

theorem Planned.snoc {before mid : List (Move α)} {v x : System α} (h : s₀.Planned t c w f before mid v)
    (hrun : s₀.run? (before ++ [.step t] ++ (mid ++ [m])) = some x)
    (hx : x.holder = some t ∧ x.phase t = .planning c w) :
    s₀.Planned t c w f before (mid ++ [m]) v := by
  refine ⟨h.reached, h.looking, h.missing, h.down, ?_⟩
  intro l y hl hy
  rcases List.prefix_concat_iff.mp hl with rfl | hl
  · rw [hrun] at hy
    cases hy
    exact hx
  · exact h.kept l y hl hy

variable {o : Opening} {memory : Memory} {clock : Clock} {now : Nat}

theorem idle_of_opened (ho : (o.run memory clock now).2 = .opened s₀) (t : Nat) : s₀.phase t = .idle := by
  obtain ⟨-, ring, -, rfl⟩ := Opening.eq_initial_of_opened ho
  simp [phase]

theorem planned_of_run (ho : (o.run memory clock now).2 = .opened s₀) (hr : s₀.run? moves = some s)
    (hp : s.phase t = .planning c w) (hw : w.patience = .cancellable f d) :
    ∃ before mid v, moves = before ++ [.step t] ++ mid ∧ s₀.Planned t c w f before mid v := by
  have hl := (Coherent.of_opened ho).locked
  refine run_prefix_induction (I := fun l x => x.phase t = .planning c w →
    ∃ before mid v, l = before ++ [.step t] ++ mid ∧ s₀.Planned t c w f before mid v) ?_ ?_ hr hp
  · intro hp
    rw [idle_of_opened ho t] at hp
    cases hp
  intro l u m u' _ hb hm ih hp
  have hrun : s₀.run? (l ++ [m]) = some u' := by rw [run?_append_of_run? hb, run?_cons_of_move? hm]; rfl
  have hholds : u'.holder = some t ∧ u'.phase t = .planning c w :=
    ⟨(run_locked hl hrun t).mpr (by rw [hp]; rfl), hp⟩
  rcases (step_of_move? hm).planning hp with ⟨hold, -⟩ | ⟨rfl, hlook, hn, g, e, hg, hdown⟩
  · obtain ⟨before, mid, v, rfl, hplanned⟩ := ih hold
    rw [List.append_assoc] at hrun
    exact ⟨before, mid ++ [m], v, by simp, hplanned.snoc hrun hholds⟩
  · obtain ⟨rfl, -⟩ := Patience.cancellable.inj (hg.symm.trans hw)
    refine ⟨l, [], u, by simp, hb, hlook, hn, hdown, ?_⟩
    intro l' x hl' hx
    obtain rfl := List.prefix_nil.mp hl'
    rw [List.append_nil, hrun] at hx
    cases hx
    exact hholds

/-- Every sleep of a cancellable waiter was planned, and its end counts from the step with which
    the waiter fell asleep. -/
theorem slept_of_run (ho : (o.run memory clock now).2 = .opened s₀) (hr : s₀.run? moves = some s)
    (hp : s.phase t = .asleep c w wake) (hw : w.patience = .cancellable f d) :
    ∃ before mid v u, before ++ [.step t] ++ mid ++ [.step t] <+: moves ∧ s₀.Planned t c w f before mid v ∧
      s₀.run? (before ++ [.step t] ++ mid) = some u ∧ wake = w.wakeAt s₀.settings.pollInterval u.now := by
  refine run_prefix_induction (I := fun l x => x.phase t = .asleep c w wake →
    ∃ before mid v u, before ++ [.step t] ++ mid ++ [.step t] <+: l ∧ s₀.Planned t c w f before mid v ∧
      s₀.run? (before ++ [.step t] ++ mid) = some u ∧ wake = w.wakeAt s₀.settings.pollInterval u.now) ?_ ?_ hr hp
  · intro hp
    rw [idle_of_opened ho t] at hp
    cases hp
  intro l u m u' _ hb hm ih hp
  rcases (step_of_move? hm).slept hp hw with ⟨hold, -⟩ | ⟨rfl, hplan, hwake⟩
  · obtain ⟨before, mid, v, x, hpre, hrest⟩ := ih hold
    exact ⟨before, mid, v, x, hpre.trans (List.prefix_append _ _), hrest⟩
  · obtain ⟨before, mid, v, rfl, hplanned⟩ := planned_of_run ho hb hplan hw
    exact ⟨before, mid, v, u, List.prefix_refl _, hplanned, hb, by rw [hwake, run_settings hb]⟩

/-! ## While the flag is up -/

/-- The flag is up at every moment of a schedule. -/
def RaisedThrough (s : System α) (f : Nat) (moves : List (Move α)) : Prop :=
  ∀ before u, before <+: moves → s.run? before = some u → u.flags.isRaised f = true

/-- While the flag is up, a waiter sleeps on it only if it did when the flag went up and has not
    moved since, or if it had looked by then and has fallen asleep with its one step since. -/
theorem slept_before_raise (hr : s.run? moves = some s') (hup : s.RaisedThrough f moves)
    (hp : s'.phase t = .asleep c w wake) (hw : w.patience = .cancellable f d) :
    s.phase t = .asleep c w wake ∧ ownMoves t moves = [] ∨
      s.phase t = .planning c w ∧ ownMoves t moves = [.step t] := by
  suffices h : (s'.phase t = .planning c w → s.phase t = .planning c w ∧ ownMoves t moves = []) ∧
      (s'.phase t = .asleep c w wake → s.phase t = .asleep c w wake ∧ ownMoves t moves = [] ∨
        s.phase t = .planning c w ∧ ownMoves t moves = [.step t]) from h.2 hp
  refine run_prefix_induction (I := fun l x =>
    (x.phase t = .planning c w → s.phase t = .planning c w ∧ ownMoves t l = []) ∧
      (x.phase t = .asleep c w wake → s.phase t = .asleep c w wake ∧ ownMoves t l = [] ∨
        s.phase t = .planning c w ∧ ownMoves t l = [.step t])) ?_ ?_ hr
  · exact ⟨fun h => ⟨h, rfl⟩, fun h => Or.inl ⟨h, rfl⟩⟩
  intro l u m u' hpre hb hm ih
  have hs := step_of_move? hm
  have hnow : u.flags.isRaised f = true := hup l u ((List.prefix_append _ _).trans hpre) hb
  constructor
  · intro hp
    rcases hs.planning hp with ⟨hold, hne⟩ | ⟨-, -, -, g, e, hg, hdown⟩
    · obtain ⟨hs', hown⟩ := ih.1 hold
      exact ⟨hs', by rw [ownMoves_concat, if_neg hne, hown]; rfl⟩
    · -- a look that plans sees the flag down
      obtain ⟨rfl, -⟩ := Patience.cancellable.inj (hg.symm.trans hw)
      rw [hnow] at hdown
      cases hdown
  · intro hp
    rcases hs.slept hp hw with ⟨hold, hne⟩ | ⟨rfl, hplan, -⟩
    · rw [ownMoves_concat, if_neg hne, List.append_nil]
      exact ih.2 hold
    · obtain ⟨hs', hown⟩ := ih.1 hplan
      exact Or.inr ⟨hs', by rw [ownMoves_concat, hown]; simp [Move.mover?]⟩

end System

end Chronicle
