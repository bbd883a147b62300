/-
  Chronicle.Proofs.Raised — what raising a flag does to those who wait with it.

  A waiter with a flag sleeps for one poll interval at most, or until its deadline if that
  is earlier, and before each sleep it has seen its flag down, in the same hold of the lock
  (`slept_of_run`). So once the flag is up it sleeps no more than the one sleep it was in,
  or was about to begin (`slept_before_raise`); after that, or at once if it was not, it is over
  at its next look (`freed_of_run`), with three steps of its own (`over_of_awake`).

  A raise that is taken back before a waiter checks leaves no trace: the flags come to it
  through its checks only, and these do not see it (`Watched.sameFor_of_blinks`).

  Proved: `raised_flag_releases`.
-/

import Mathlib.Data.List.Infix
import Chronicle.Proofs.System.Blinks
import Chronicle.Proofs.System.Release

namespace Chronicle

variable {α : Type}

namespace System

variable {o : Opening} {memory : Memory} {clock : Clock} {now : Nat} {s₀ s : System α} {moves : List (Move α)}

/-- A cancellable wait sleeps in slices, each begun with its flag down in the same hold of the lock and
    ended by the deadline or one poll interval later; once the flag is up and stays up, it is over at
    the end of the slice it was in or about to begin, or at its next look; and raises that are lowered
    again before its next check make no difference to it. -/
theorem raised_flag_releases (ho : (o.run memory clock now).2 = .opened s₀) (hr : s₀.run? moves = some s) :
    (∀ t c w wake f time, s.phase t = .asleep c w wake → c.request.limit = .cancellable f time →
      ∃ before mid v u, before ++ [.step t] ++ mid ++ [.step t] <+: moves ∧ s₀.Planned t c w f before mid v ∧
        v.run? ([.step t] ++ mid) = some u ∧
        wake = match Instant.after? u.now o.settings.pollInterval with
          | some e => some (c.deadline?.elim e (min · e))
          | none => c.deadline?) ∧
    (∀ f later s' t c time, s.run? later = some s' → s.RaisedThrough f later →
      c.request.limit = .cancellable f time →
      (∀ w wake, s'.phase t = .asleep c w wake →
        s.phase t = .asleep c w wake ∧ ownMoves t later = [] ∨
          s.phase t = .planning c w ∧ ownMoves t later = [.step t]) ∧
      ∀ newer r, (s.phase t).call? = some c → (s'.thread t).replies = newer ++ r :: (s.thread t).replies →
        r.call = c ∧ s.Freed (s₀.log moves) t c c.deadline? later r) ∧
    (∀ t c f time, (s.phase t).call? = some c → c.request.limit = .cancellable f time → s.flags.isRaised f = true →
      ((s.phase t).Awake c → s.holder = none ∨ s.holder = some t → s.OverWithin t c 3) ∧
      ∀ w wake, s.phase t = .asleep c w (some wake) → wake ≤ s.now → s.holder = none →
        ∃ v, s.runOut? t = some v ∧ (v.thread t).replies = (s.thread t).replies ∧ v.OverWithin t c 3) ∧
    ∀ p moves' s', s₀.run? moves' = some s' → (∀ m ∈ moves, m.quiet p = true) → (∀ m ∈ moves', m.quiet p = true) →
      s₀.gather (shown? p) moves = s₀.gather (shown? p) moves' →
      Relation.EqvGen s₀.flags.Blink (s₀.gather (sight? p) moves) (s₀.gather (sight? p) moves') → s.SameFor p s' := by
  have hc := Coherent.of_reached ho hr
  refine ⟨?_, ?_, ?_, ?_⟩
  · intro t c w wake f time hp hlimit
    have hfits := hc.fits t
    rw [hp] at hfits
    have hw : w.patience = .cancellable f c.deadline? := hfits.1.patience.trans (hfits.1.dated.patience_eq hlimit)
    obtain ⟨before, mid, v, u, hpre, hplanned, hu, hwake⟩ := slept_of_run ho hr hp hw
    rw [List.append_assoc, run?_append_of_run? hplanned.reached] at hu
    rw [Waiter.wakeAt_cancellable hw, settings_of_opened ho] at hwake
    exact ⟨before, mid, v, u, hpre, hplanned, hu, hwake⟩
  · intro f later s' t c time hlater hup hlimit
    refine ⟨?_, ?_⟩
    · intro w wake hp
      have hfits := (hc.of_run hlater).fits t
      rw [hp] at hfits
      exact slept_before_raise hlater hup hp (hfits.1.patience.trans (hfits.1.dated.patience_eq hlimit))
    · intro newer r hp hrep
      exact hc.freed_of_run hlater hup hp hlimit (((hc.fits t).dated hp).patience_eq hlimit) hrep
  · intro t c f time hp hlimit hf
    have hpatience := ((hc.fits t).dated hp).patience_eq hlimit
    refine ⟨hc.over_of_awake hpatience hf hlimit, ?_⟩
    intro w wake hasleep hwake hn
    exact hc.over_of_asleep hpatience hf hasleep hwake hn
  · intro p moves' s' hr' hq hq' hshown hblinks
    have hw : s₀.Watched p := by
      refine ⟨⟨[], Coherent.of_opened ho⟩, ?_⟩
      intro t c _ hp
      rw [idle_of_opened ho t] at hp
      cases hp
    exact hw.sameFor_of_blinks hq hq' hr hr' hshown hblinks

theorem raisedThrough_of_inits {f : Nat}
    (h : (moves.inits.all fun l => (s.run? l).all (·.flags.isRaised f)) = true) : s.RaisedThrough f moves := by
  intro before u hpre hb
  have hall := List.all_eq_true.mp h before ((List.mem_inits before moves).mpr hpre)
  rw [hb] at hall
  exact hall

/-- Three threads fall asleep on an index that is never appended: two reads, the second with a time, and
    a wait with the same time. -/
def dozes : List (Move Nat) :=
  .call 1 (.read .value 5 (.cancellable 0 none)) :: List.replicate 4 (.step 1) ++
    .call 2 (.read .value 5 (.cancellable 0 (some (.millis 5)))) :: List.replicate 4 (.step 2) ++
    .call 3 (.await 5 (.cancellable 0 (some (.millis 5)))) :: List.replicate 4 (.step 3)

def toFlag (a : FlagAction) : List (Move Nat) := [.call 0 (.flag a), .step 0]

/-- The time of the last two ends, then the slice of the first. -/
def wakes : List (Move Nat) :=
  [.elapse 5000000, .runOut 2, .step 2, .step 2, .runOut 3, .step 3, .step 3, .elapse 5000000, .runOut 1, .step 1, .step 1,
    .step 1]

/-- Raised while all of them sleep, the flag ends the wait of the first with its slice, and the others'
    time is over before they see it. Raised, raised again through a clone and lowered through the clone,
    it makes no difference, though somebody looks at it in between. -/
theorem raised_flag_releases_asleep :
    ∃ s s' r₁ r₂ r₃, small.run? (dozes ++ toFlag (.raise 0)) = some s ∧ (s.phase 1).wake? = some 10000000 ∧
      s.run? wakes = some s' ∧ (s'.thread 1).replies = [r₁] ∧ (s'.thread 2).replies = [r₂] ∧
      (s'.thread 3).replies = [r₃] ∧ r₁.answer = .failed (.cancelled 5) ∧
      r₂.answer = .failed (.timeout 5 (.millis 5)) ∧ r₃.answer = .truth false ∧
      (∀ t r, (t, r) ∈ [(1, r₁), (2, r₂), (3, r₃)] →
        s.Freed (small.log (dozes ++ toFlag (.raise 0))) t r.call r.call.deadline? wakes r) ∧
      ∃ u u', small.run? (dozes ++ toFlag (.clone 0) ++ toFlag (.look 0) ++ wakes) = some u ∧
        small.run? (dozes ++ toFlag (.clone 0) ++ toFlag (.raise 0) ++ toFlag (.raise 1) ++ toFlag (.look 0) ++
          toFlag (.lower 1) ++ wakes) = some u' ∧ u.SameFor (· != 0) u' := by
  have hrun : (small.run? (dozes ++ toFlag (.raise 0))).any (fun s => decide ((s.phase 1).wake? = some 10000000) &&
      decide ((s.phase 1).call?.map (·.request.limit) = some (.cancellable 0 none)) &&
      decide ((s.phase 2).call?.map (·.request.limit) = some (.cancellable 0 (some (.millis 5)))) &&
      decide ((s.phase 3).call?.map (·.request.limit) = some (.cancellable 0 (some (.millis 5)))) &&
      (s.thread 1).replies.isEmpty && (s.thread 2).replies.isEmpty && (s.thread 3).replies.isEmpty &&
      wakes.inits.all (fun l => (s.run? l).all (·.flags.isRaised 0)) && (s.run? wakes).isSome) = true := by
    decide +kernel
  have hanswers : (small.run? (dozes ++ toFlag (.raise 0) ++ wakes)).map
      (fun s => [1, 2, 3].map fun t => (s.thread t).replies.map (·.answer)) =
        some [[.failed (.cancelled 5)], [.failed (.timeout 5 (.millis 5))], [.truth false]] := rfl
  obtain ⟨s, hr, hs⟩ := exists_run hrun
  simp only [Bool.and_eq_true, decide_eq_true_eq, List.isEmpty_iff] at hs
  obtain ⟨⟨⟨⟨⟨⟨⟨⟨hwake, hlimit₁⟩, hlimit₂⟩, hlimit₃⟩, hnone₁⟩, hnone₂⟩, hnone₃⟩, hup⟩, hends⟩ := hs
  obtain ⟨s', hr'⟩ := Option.isSome_iff_exists.mp hends
  rw [run?_append_of_run? hr, hr', Option.map_some, Option.some.injEq] at hanswers
  simp only [List.map_cons, List.map_nil, List.cons.injEq, and_true, List.map_eq_singleton_iff] at hanswers
  obtain ⟨⟨r₁, hrep₁, ha₁⟩, ⟨r₂, hrep₂, ha₂⟩, ⟨r₃, hrep₃, ha₃⟩⟩ := hanswers
  obtain ⟨-, hend, -⟩ := raised_flag_releases small_opened hr
  have hfreed : ∀ t time r, (s.phase t).call?.map (·.request.limit) = some (.cancellable 0 time) →
      (s.thread t).replies = [] → (s'.thread t).replies = [r] →
      s.Freed (small.log (dozes ++ toFlag (.raise 0))) t r.call r.call.deadline? wakes r := by
    intro t time r hlimit hnone hrep
    obtain ⟨c, hcall, hlimit⟩ := Option.map_eq_some_iff.mp hlimit
    obtain ⟨-, hover⟩ := hend 0 wakes s' t c time hr' (raisedThrough_of_inits hup) hlimit
    obtain ⟨rfl, hfreed⟩ := hover [] r hcall (by rw [hrep, hnone]; rfl)
    exact hfreed
  obtain ⟨u, hu⟩ : ∃ u, small.run? (dozes ++ toFlag (.clone 0) ++ toFlag (.look 0) ++ wakes) = some u :=
    Option.isSome_iff_exists.mp (by decide +kernel)
  obtain ⟨u', hu'⟩ : ∃ u', small.run? (dozes ++ toFlag (.clone 0) ++ toFlag (.raise 0) ++ toFlag (.raise 1) ++
      toFlag (.look 0) ++ toFlag (.lower 1) ++ wakes) = some u' := Option.isSome_iff_exists.mp (by decide +kernel)
  obtain ⟨-, -, -, hunseen⟩ := raised_flag_releases small_opened hu
  have hsame : u.SameFor (· != 0) u' := by
    refine hunseen (· != 0) _ u' hu' (by decide) (by decide) (by decide +kernel) (.rel _ _ ?_)
    exact .intro 0 [.check 0, .check 0, .check 0, .act (.clone 0)] [.act (.look 0)]
      [.act (.raise 0), .act (.raise 1), .act (.look 0), .act (.lower 1)] [.check 0] (by simp) rfl rfl rfl
  refine ⟨s, s', r₁, r₂, r₃, hr, hwake, hr', hrep₁, hrep₂, hrep₃, ha₁, ha₂, ha₃, ?_, u, u', hu, hu', hsame⟩
  intro t r ht
  simp only [List.mem_cons, Prod.mk.injEq, List.not_mem_nil, or_false] at ht
  rcases ht with ⟨rfl, rfl⟩ | ⟨rfl, rfl⟩ | ⟨rfl, rfl⟩
  · exact hfreed 1 none r hlimit₁ hnone₁ hrep₁
  · exact hfreed 2 _ r hlimit₂ hnone₂ hrep₂
  · exact hfreed 3 _ r hlimit₃ hnone₃ hrep₃

end System

end Chronicle
