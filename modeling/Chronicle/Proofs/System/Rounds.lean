/-
  Chronicle.Proofs.System.Rounds — how often a thread falls asleep, and how far it comes.

  `s.transits t p moves` is how often the phase of the thread `t` goes over from one to
  another, as `p` says, in the course of a schedule. It falls asleep (`Phase.fallsAsleep`),
  and a sleep ends because its time ran out (`Phase.ranOut`), or before that, by an append or
  for no reason (`Phase.wokenEarly`); so every sleep but the one that lasts has ended in one
  of the two ways (`sleeps_eq`). From one sleep to the next a call goes through a few phases
  only, in a fixed order (`Phase.stage`), so it comes to an end unless it falls asleep over
  and over (`stages_le`).

  A course is a schedule without end. It is fair to a thread if the thread takes its next
  step some time whenever it is awake in a call, and if its sleeps do not go on for longer
  than a fixed delay after they were to end, while time passes.

  Proved: on a course that is fair to it, a thread whose sleeps all are to end goes from stage
  to stage for ever, or its call ends (`Course.Fair.stages_unbounded`). A schedule that keeps
  the thread waiting for nothing is the beginning of such a course (`Course.exists_of_run`).
-/

import Mathlib.Data.Nat.Init
import Mathlib.Tactic.ByContra
import Chronicle.Proofs.System.Call

namespace Chronicle

variable {α : Type}

namespace Phase

def isAsleep : Phase α → Bool
  | .asleep .. => true
  | _ => false

def fallsAsleep (p q : Phase α) : Bool := !p.isAsleep && q.isAsleep

/-- Out of the wait set, before the time ran out. -/
def wokenEarly : Phase α → Phase α → Bool
  | .asleep .., .woken _ _ false => true
  | _, _ => false

/-- Out of the wait set, because the time ran out. -/
def ranOut : Phase α → Phase α → Bool
  | .asleep .., .woken _ _ true => true
  | _, _ => false

/-- How far a call is from its end, if it does not sleep again. -/
def stage : Phase α → Nat
  | .ready _ => 10
  | .entered _ => 9
  | .stamped .. => 8
  | .pushed .. => 7
  | .unlocked .. => 6
  | .asleep .. => 5
  | .woken .. => 4
  | .resumed .. => 3
  | .looking .. => 2
  | .planning .. => 1
  | .idle => 0

def turns (p q : Phase α) : Bool := p.stage != q.stage

theorem eq_asleep_of_isAsleep {p : Phase α} (h : p.isAsleep = true) : ∃ c w wake, p = .asleep c w wake := by
  cases p <;> first | exact ⟨_, _, _, rfl⟩ | cases h

theorem isAsleep_iff_stage (p : Phase α) : p.isAsleep = true ↔ p.stage = 5 := by cases p <;> simp [isAsleep, stage]

end Phase

namespace System

/-- How often the phase of a thread goes over from one to another, as `p` says. -/
def transits (s : System α) (t : Nat) (p : Phase α → Phase α → Bool) (moves : List (Move α)) : Nat :=
  (s.gather (fun u m => (u.move? m).filter fun u' => p (u.phase t) (u'.phase t)) moves).length

variable {s s' u : System α} {t : Nat} {m : Move α} {c : Call α} {p : Phase α → Phase α → Bool}
  {before moves : List (Move α)}

@[simp] theorem transits_nil (s : System α) (t : Nat) (p : Phase α → Phase α → Bool) : s.transits t p [] = 0 := rfl

theorem transits_concat (hb : s.run? before = some u) (hm : u.move? m = some s') :
    s.transits t p (before ++ [m]) = s.transits t p before + (p (u.phase t) (s'.phase t)).toNat := by
  rw [transits, gather_concat hb hm, List.length_append, hm]
  cases h : p (u.phase t) (s'.phase t) <;> simp [transits, h]

theorem transits_le (hb : s.run? before = some u) (hpre : before <+: moves) :
    s.transits t p before ≤ s.transits t p moves := by
  obtain ⟨later, rfl⟩ := hpre
  rw [transits, transits, gather_append hb, List.length_append]
  exact Nat.le_add_right _ _

/-! ## Sleeps -/

/-- A sleeper that a move takes out of its sleep is woken; any other stays as it is. -/
theorem Step.of_asleep (h : Step s m s') {w : Waiter} {wake : Option Nat} (hp : s.phase t = .asleep c w wake) :
    s'.phase t = .asleep c w wake ∨ ∃ ranOut, s'.phase t = .woken c w ranOut := by
  by_cases hm : m.mover? ≠ some t
  · rcases h.phase_other hm with e | e
    · exact Or.inl (e.trans hp)
    · rw [e, hp]
      exact Or.inr ⟨false, rfl⟩
  replace hm := Decidable.not_not.mp hm
  cases h with
  | elapse time => cases hm
  | runOut _ c' w' wake' hu | stir _ c' w' wake' hu =>
    cases hm
    rw [hp] at hu
    cases hu
    exact Or.inr ⟨_, by simp; rfl⟩
  | call _ _ hu | free _ _ hu | enter _ _ hu | stamp _ _ _ hu | refuse _ _ _ hu | begin _ _ _ hu | perform _ _ hu
  | push _ _ _ _ _ _ hu | overflow _ _ _ _ r hu | unlock _ _ _ hu | notify _ _ _ hu | serve _ _ _ _ hu
  | lapped _ _ _ _ hu | cancel _ _ _ _ _ hu | plan _ _ _ _ _ hu | sleep _ _ _ hu | slice _ _ _ hu
  | relock _ _ _ _ hu | expire _ _ _ hu | again _ _ _ _ hu =>
    cases hm
    rw [hp] at hu
    cases hu

/-- What a move adds to the sleeps and to their ends. -/
theorem Step.sleeps (h : Step s m s') (t : Nat) :
    (Phase.fallsAsleep (s.phase t) (s'.phase t)).toNat + (s.phase t).isAsleep.toNat =
      (Phase.wokenEarly (s.phase t) (s'.phase t)).toNat + (Phase.ranOut (s.phase t) (s'.phase t)).toNat +
        (s'.phase t).isAsleep.toNat := by
  cases hs : (s.phase t).isAsleep with
  | false =>
    have hnone : ∀ q, Phase.wokenEarly (s.phase t) q = false ∧ Phase.ranOut (s.phase t) q = false := by
      intro q
      cases hp : s.phase t with
      | asleep c w wake => rw [hp] at hs; cases hs
      | _ => exact ⟨rfl, rfl⟩
    rw [Phase.fallsAsleep, hs, (hnone _).1, (hnone _).2]
    simp
  | true =>
    obtain ⟨c, w, wake, hp⟩ := Phase.eq_asleep_of_isAsleep hs
    rcases h.of_asleep hp with e | ⟨ranOut, e⟩
    · rw [e, hp]
      rfl
    · rw [e, hp]
      cases ranOut <;> rfl

/-- Every sleep but the one that lasts has ended early, or because its time ran out. -/
theorem sleeps_eq (hr : s.run? moves = some s') (t : Nat) :
    s.transits t Phase.fallsAsleep moves + (s.phase t).isAsleep.toNat =
      s.transits t Phase.wokenEarly moves + s.transits t Phase.ranOut moves + (s'.phase t).isAsleep.toNat := by
  refine run_prefix_induction (I := fun l v => s.transits t Phase.fallsAsleep l + (s.phase t).isAsleep.toNat =
    s.transits t Phase.wokenEarly l + s.transits t Phase.ranOut l + (v.phase t).isAsleep.toNat) (by simp) ?_ hr
  intro before v m v' _ hb hm ih
  have hstep := (step_of_move? hm).sleeps t
  rw [transits_concat hb hm, transits_concat hb hm, transits_concat hb hm]
  omega

/-! ## Stages -/

/-- A thread that takes a step comes to another stage. -/
theorem Step.turned (h : Step s (.step t) s') : (s'.phase t).stage ≠ (s.phase t).stage := by
  cases h with
  | free _ c hp | refuse _ c i hp | perform _ c hp | overflow _ c x p r hp | notify _ c i hp | serve _ c w a hp
  | lapped _ c w e hp | cancel _ c w f d hp | expire _ c w hp =>
    simp [hp, Phase.stage]
  | enter _ c hp | stamp _ c v hp | begin _ c i hp | push _ c x r i d hp | unlock _ c i hp | plan _ c w f d hp
  | sleep _ c w hp | slice _ c w hp | relock _ c w r hp | again _ c w r hp =>
    simp [hp, Phase.stage]

/-- Unless it falls asleep, a call only comes closer to its end. -/
theorem Step.stage_le (h : Step s m s') (hi : s.phase t ≠ .idle) :
    (s'.phase t).stage ≤ (s.phase t).stage ∨ Phase.fallsAsleep (s.phase t) (s'.phase t) = true := by
  by_cases hm : m.mover? ≠ some t
  · refine Or.inl ?_
    rcases h.phase_other hm with e | e
    · exact Nat.le_of_eq (congrArg Phase.stage e)
    · rw [e]
      cases s.phase t <;> simp [Phase.notified, Phase.stage]
  replace hm := Decidable.not_not.mp hm
  cases h with
  | elapse time => cases hm
  | call _ q hp => cases hm; exact absurd hp hi
  | sleep _ c w hp | slice _ c w hp =>
    cases hm
    exact Or.inr (by simp [hp, Phase.fallsAsleep, Phase.isAsleep])
  | free _ c hp | refuse _ c i hp | perform _ c hp | overflow _ c x p r hp | notify _ c i hp | serve _ c w a hp
  | lapped _ c w e hp | cancel _ c w f d hp | expire _ c w hp =>
    cases hm
    exact Or.inl (by simp [Phase.stage])
  | enter _ c hp | stamp _ c v hp | begin _ c i hp | push _ c x r i d hp | unlock _ c i hp | plan _ c w f d hp
  | relock _ c w r hp | again _ c w r hp | runOut _ c w wake hp | stir _ c w wake hp =>
    cases hm
    exact Or.inl (by simp [hp, Phase.stage])

/-- A call that has no reply comes to so many stages, and five more with every sleep. -/
theorem stages_le (hp : (s.phase t).call? = some c) (hr : s.run? moves = some s')
    (hrep : (s'.thread t).replies = (s.thread t).replies) :
    s.transits t Phase.turns moves + (s'.phase t).stage ≤
      (s.phase t).stage + 5 * s.transits t Phase.fallsAsleep moves := by
  refine run_prefix_induction (I := fun l v => (v.thread t).replies = (s.thread t).replies →
    s.transits t Phase.turns l + (v.phase t).stage ≤ (s.phase t).stage + 5 * s.transits t Phase.fallsAsleep l)
    (fun _ => by simp) ?_ hr hrep
  intro before v m v' _ hb hm ih hrep
  have hs := step_of_move? hm
  have hone : v.run? [m] = some v' := by rw [run?_cons_of_move? hm]; rfl
  have hsame := replies_on_way hb hone hrep
  have hcall := call_of_replies hp hb hsame
  have hi : v.phase t ≠ .idle := by
    intro e
    rw [e] at hcall
    cases hcall
  have hpos : 0 < (v.phase t).stage := by
    cases hv : v.phase t with
    | idle => exact absurd hv hi
    | _ => simp [Phase.stage]
  have hbound := ih hsame
  rw [transits_concat hb hm, transits_concat hb hm]
  have hone : (Phase.turns (v.phase t) (v'.phase t)).toNat ≤ 1 := Bool.toNat_le _
  rcases hs.stage_le hi with hle | hfalls
  · rcases Nat.lt_or_eq_of_le hle with hlt | heq
    · omega
    · rw [show Phase.turns (v.phase t) (v'.phase t) = false by simp [Phase.turns, heq]]
      simp only [Bool.toNat_false]
      omega
  · have hasleep : (v'.phase t).stage = 5 := by
      rw [← Phase.isAsleep_iff_stage]
      simp only [Phase.fallsAsleep, Bool.and_eq_true] at hfalls
      exact hfalls.2
    rw [hfalls, hasleep]
    simp only [Bool.toNat_true]
    omega

theorem stages_le_of_ready (hp : s.phase t = .ready c) (hr : s.run? moves = some s')
    (hrep : (s'.thread t).replies = (s.thread t).replies) :
    s.transits t Phase.turns moves ≤ 10 + 5 * s.transits t Phase.fallsAsleep moves := by
  have hle := stages_le (by rw [hp]; rfl) hr hrep
  rw [hp, Phase.stage] at hle
  omega

/-! ## Schedules without end -/

/-- A schedule without end, from the state `s` on. -/
structure Course (s : System α) where
  state : Nat → System α
  move : Nat → Move α
  start : state 0 = s
  follows : ∀ n, (state n).move? (move n) = some (state (n + 1))

namespace Course

def upTo (σ : s.Course) (n : Nat) : List (Move α) := (List.range n).map σ.move

/-- The course is fair to the thread `t`: its sleeps go on no longer than `delay` after they were to
    end, while time passes; and in a call it takes its next step some time, if it is awake. -/
structure Fair (σ : s.Course) (t delay : Nat) : Prop where
  sleep : ∀ n c w k, (σ.state n).phase t = .asleep c w (some k) → (σ.state n).now ≤ k + delay
  time : ∀ k, ∃ n, k ≤ (σ.state n).now
  turn : ∀ n, (σ.state n).phase t ≠ .idle → ((σ.state n).phase t).isAsleep = false →
    ∃ k, n ≤ k ∧ σ.move k = .step t

variable (σ : s.Course)

theorem upTo_succ (n : Nat) : σ.upTo (n + 1) = σ.upTo n ++ [σ.move n] := by
  rw [upTo, List.range_succ, List.map_append]
  rfl

theorem run (n : Nat) : s.run? (σ.upTo n) = some (σ.state n) := by
  induction n with
  | zero => exact congrArg some σ.start.symm
  | succ n ih =>
    rw [upTo_succ, run?_append_of_run? ih, run?_cons_of_move? (σ.follows n)]
    rfl

theorem step (n : Nat) : Step (σ.state n) (σ.move n) (σ.state (n + 1)) := step_of_move? (σ.follows n)

theorem upTo_prefix {n k : Nat} (h : n ≤ k) : σ.upTo n <+: σ.upTo k := by
  obtain ⟨d, rfl⟩ := Nat.exists_eq_add_of_le h
  exact ⟨_, by rw [upTo, upTo, List.range_add, List.map_append]⟩

theorem now_le {n k : Nat} (h : n ≤ k) : (σ.state n).now ≤ (σ.state k).now := by
  induction k, h using Nat.le_induction with
  | base => exact Nat.le_refl _
  | succ k _ ih => exact Nat.le_trans ih (σ.step k).now_le

variable {σ}

/-- In a call, a thread whose sleeps are to end comes to another stage some time. -/
theorem Fair.turns {delay : Nat} (h : σ.Fair t delay)
    (hends : ∀ n c w wake, (σ.state n).phase t = .asleep c w wake → wake.isSome = true) (n : Nat)
    (hi : (σ.state n).phase t ≠ .idle) :
    ∃ k, n ≤ k ∧ Phase.turns ((σ.state k).phase t) ((σ.state (k + 1)).phase t) = true := by
  by_contra hnever
  have hsame : ∀ k, n ≤ k → ((σ.state (k + 1)).phase t).stage = ((σ.state k).phase t).stage := by
    intro k hk
    by_contra hne
    exact hnever ⟨k, hk, by simpa [Phase.turns] using Ne.symm hne⟩
  cases hasleep : ((σ.state n).phase t).isAsleep with
  | false =>
    obtain ⟨k, hk, hmove⟩ := h.turn n hi hasleep
    have hstep := σ.step k
    rw [hmove] at hstep
    exact hstep.turned (hsame k hk)
  | true =>
    obtain ⟨c, w, wake, hp⟩ := Phase.eq_asleep_of_isAsleep hasleep
    obtain ⟨end_, rfl⟩ := Option.isSome_iff_exists.mp (hends n c w wake hp)
    -- it sleeps on, for ever
    have hsleeps : ∀ k, n ≤ k → (σ.state k).phase t = .asleep c w (some end_) := by
      intro k hk
      induction k, hk using Nat.le_induction with
      | base => exact hp
      | succ k hk ih =>
        rcases (σ.step k).of_asleep ih with e | ⟨ranOut, e⟩
        · exact e
        · have := hsame k hk
          rw [e, ih] at this
          simp [Phase.stage] at this
    obtain ⟨k, hk⟩ := h.time (end_ + delay + 1)
    have hlate := h.sleep (max n k) c w end_ (hsleeps _ (Nat.le_max_left _ _))
    have hmono := σ.now_le (Nat.le_max_right n k)
    omega

/-- A thread whose call does not end comes to one stage after another, without end. -/
theorem Fair.stages_unbounded {delay : Nat} (h : σ.Fair t delay)
    (hends : ∀ n c w wake, (σ.state n).phase t = .asleep c w wake → wake.isSome = true)
    (hi : ∀ n, (σ.state n).phase t ≠ .idle) (most : Nat) : ∃ n, most ≤ s.transits t Phase.turns (σ.upTo n) := by
  induction most with
  | zero => exact ⟨0, Nat.zero_le _⟩
  | succ most ih =>
    obtain ⟨n, hn⟩ := ih
    obtain ⟨k, hk, hturn⟩ := h.turns hends n (hi n)
    have hle := transits_le (t := t) (p := Phase.turns) (σ.run n) (σ.upTo_prefix hk)
    refine ⟨k + 1, ?_⟩
    rw [upTo_succ, transits_concat (σ.run k) (σ.follows k), hturn]
    simp only [Bool.toNat_true]
    omega

/-! ## A schedule that is continued -/

/-- Nothing happens any more, while time passes. -/
def still (s : System α) : s.Course where
  state n := s.elapse n
  move _ := .elapse 1
  start := rfl
  follows _ := rfl

def cons (hm : s.move? m = some s') (σ : s'.Course) : s.Course where
  state
    | 0 => s
    | n + 1 => σ.state n
  move
    | 0 => m
    | n + 1 => σ.move n
  start := rfl
  follows
    | 0 => hm.trans (congrArg some σ.start.symm)
    | n + 1 => σ.follows n

theorem upTo_cons (hm : s.move? m = some s') (σ : s'.Course) (n : Nat) :
    (σ.cons hm).upTo (n + 1) = m :: σ.upTo n := by
  rw [upTo, List.range_succ_eq_map, List.map_cons, List.map_map]
  rfl

/-- A move that does not keep the thread waiting: in a call, it is its own if it is awake, and
    it does not sleep for too long. -/
def prompt (t delay : Nat) (s : System α) (m : Move α) : Bool :=
  match s.phase t, m with
  | .idle, _ => true
  | .asleep _ _ wake, _ => wake.all (s.now ≤ · + delay)
  | _, .step u => u = t
  | _, _ => false

theorem Fair.cons {delay : Nat} {σ : s'.Course} (h : σ.Fair t delay) (hm : s.move? m = some s')
    (hprompt : prompt t delay s m = true) : (σ.cons hm).Fair t delay := by
  refine ⟨?_, ?_, ?_⟩
  · intro n c w k hp
    cases n with
    | zero =>
      replace hp : s.phase t = .asleep c w (some k) := hp
      show s.now ≤ k + delay
      simpa [prompt, hp] using hprompt
    | succ n => exact h.sleep n c w k hp
  · intro k
    obtain ⟨n, hn⟩ := h.time k
    exact ⟨n + 1, hn⟩
  · intro n hi ha
    cases n with
    | zero =>
      refine ⟨0, Nat.le_refl _, ?_⟩
      replace hi : s.phase t ≠ .idle := hi
      replace ha : (s.phase t).isAsleep = false := ha
      show m = .step t
      unfold prompt at hprompt
      split at hprompt
      · rename_i hp
        exact absurd hp hi
      · rename_i hp
        rw [hp] at ha
        cases ha
      · simp only [decide_eq_true_eq] at hprompt
        rw [hprompt]
      · cases hprompt
    | succ n =>
      obtain ⟨k, hk, hmove⟩ := h.turn n hi ha
      exact ⟨k + 1, Nat.succ_le_succ hk, hmove⟩

/-- A schedule that does not keep the thread waiting, and ends with its call, is the beginning of a
    course that is fair to it. -/
theorem exists_of_run {delay : Nat} (hr : s.run? moves = some s') (hi : s'.phase t = .idle)
    (hprompt : s.allMoves (prompt t delay) moves = true) :
    ∃ σ : s.Course, σ.Fair t delay ∧ σ.upTo moves.length = moves := by
  induction moves generalizing s with
  | nil =>
    cases hr
    refine ⟨still s', ⟨?_, ?_, ?_⟩, rfl⟩
    · intro n c w k hp
      replace hp : s'.phase t = .asleep c w (some k) := hp
      rw [hi] at hp
      cases hp
    · intro k
      exact ⟨k, Nat.le_add_left _ _⟩
    · intro n hn
      exact absurd hi hn
  | cons m moves ih =>
    obtain ⟨u, hm, hrest⟩ := Option.bind_eq_some_iff.mp hr
    simp only [allMoves, hm, Bool.and_eq_true] at hprompt
    obtain ⟨σ, hσ, hupTo⟩ := ih hrest hprompt.2
    exact ⟨σ.cons hm, hσ.cons hm hprompt.1, by rw [List.length_cons, upTo_cons, hupTo]⟩

end Course

end System

end Chronicle
