/-
  Chronicle.Proofs.System.Call — the calls of a thread, from the request to the reply.

  `p.call?` is the call under way in the phase `p`. A move makes a call of a thread that has
  none, or ends the call it has with a reply to it, or leaves both as they are
  (`Step.call_cases`); so a call under way goes on until it has its reply (`call_of_run`).

  `s.allMoves p moves`: in the schedule every move is made in a state where `p` allows it.
-/

import Chronicle.Proofs.System.Ask
import Chronicle.Proofs.System.Run

namespace Chronicle

variable {α : Type}

def Phase.call? : Phase α → Option (Call α)
  | .idle => none
  | .ready c | .entered c | .stamped c _ | .pushed c _ | .unlocked c _ | .looking c _ | .planning c _ | .asleep c _ _
  | .woken c _ _ | .resumed c _ _ => some c

theorem Phase.call?_notified (p : Phase α) : p.notified.call? = p.call? := by cases p <;> rfl

theorem Phase.call?_eq_none {p : Phase α} : p.call? = none ↔ p = .idle := by cases p <;> simp [call?]

namespace System

variable {s s' u : System α} {t : Nat} {m : Move α} {before moves : List (Move α)}

/-- What a move does to the call of a thread. -/
theorem Step.call_cases (h : Step s m s') (t : Nat) :
    (s'.phase t).call? = (s.phase t).call? ∧ (s'.thread t).replies = (s.thread t).replies ∨
    (∃ q, m = .call t q ∧ s.phase t = .idle ∧ (s'.phase t).call? = some (s.callOf q) ∧
      (s'.thread t).replies = (s.thread t).replies) ∨
    ∃ c a, m = .step t ∧ (s.phase t).call? = some c ∧ s'.phase t = .idle ∧
      (s'.thread t).replies = ⟨c, a, s.now⟩ :: (s.thread t).replies := by
  by_cases hm : m.mover? ≠ some t
  · exact Or.inl ⟨h.reading_other Phase.call?_notified hm, h.replies_other fun e => hm (by rw [e]; rfl)⟩
  replace hm := Decidable.not_not.mp hm
  cases h with
  | elapse time => cases hm
  | call u q hp =>
    cases hm
    exact Or.inr (Or.inl ⟨q, rfl, hp, by simp [Phase.call?, callOf], by simp⟩)
  | free u c hp | refuse u c i hp | perform u c hp | overflow u c x p r hp | notify u c i hp | serve u c w a hp
  | lapped u c w e hp | cancel u c w f d hp | expire u c w hp =>
    cases hm
    exact Or.inr (Or.inr ⟨c, _, rfl, by rw [hp]; rfl, by simp, by simp; rfl⟩)
  | enter u c hp | stamp u c v hp | begin u c i hp | push u c x r i d hp | unlock u c i hp | plan u c w f d hp
  | sleep u c w hp | slice u c w hp | relock u c w r hp | again u c w r hp | runOut u c w wake hp
  | stir u c w wake hp =>
    cases hm
    exact Or.inl ⟨by simp [hp, Phase.call?], by simp⟩

/-- A call under way goes on, or is over and has its reply. -/
theorem call_of_run {c : Call α} (hp : (s.phase t).call? = some c) (hr : s.run? moves = some s') :
    (s'.thread t).replies = (s.thread t).replies ∧ (s'.phase t).call? = some c ∨
      ∃ newer r, (s'.thread t).replies = newer ++ r :: (s.thread t).replies ∧ r.call = c := by
  refine run_prefix_induction (I := fun _ v =>
    (v.thread t).replies = (s.thread t).replies ∧ (v.phase t).call? = some c ∨
      ∃ newer r, (v.thread t).replies = newer ++ r :: (s.thread t).replies ∧ r.call = c) (Or.inl ⟨rfl, hp⟩) ?_ hr
  intro _ v m v' _ _ hm ih
  have hs := step_of_move? hm
  rcases ih with ⟨hrep, hcall⟩ | ⟨newer, r, hrep, hc⟩
  · rcases hs.call_cases t with ⟨hcall', hrep'⟩ | ⟨q, -, hi, -, -⟩ | ⟨c', a, -, hcall', -, hrep'⟩
    · exact Or.inl ⟨hrep'.trans hrep, hcall'.trans hcall⟩
    · rw [hi] at hcall
      cases hcall
    · obtain rfl : c' = c := Option.some.inj (hcall'.symm.trans hcall)
      exact Or.inr ⟨[], ⟨c', a, v.now⟩, by rw [hrep', hrep]; rfl, rfl⟩
  · obtain ⟨newer', hrep'⟩ := hs.replies_newer hrep
    exact Or.inr ⟨newer', r, hrep', hc⟩

theorem call_of_replies {c : Call α} (hp : (s.phase t).call? = some c) (hr : s.run? moves = some s')
    (hrep : (s'.thread t).replies = (s.thread t).replies) : (s'.phase t).call? = some c := by
  rcases call_of_run hp hr with ⟨-, hcall⟩ | ⟨newer, r, hmore, -⟩
  · exact hcall
  · exact absurd (hrep.symm.trans hmore) ne_of_reply

/-- If there is no further reply by the end, there was none on the way. -/
theorem replies_on_way {later : List (Move α)} (hb : s.run? before = some u) (hl : u.run? later = some s')
    (hrep : (s'.thread t).replies = (s.thread t).replies) : (u.thread t).replies = (s.thread t).replies := by
  obtain ⟨newer, hnewer⟩ := run_replies hb t
  obtain ⟨newer', hnewer'⟩ := run_replies hl t
  have hlen := congrArg List.length (hnewer'.symm.trans hrep)
  rw [hnewer] at hlen ⊢
  simp only [List.length_append] at hlen
  rw [List.eq_nil_of_length_eq_zero (by omega : newer.length = 0)]
  rfl

/-- Every move of a schedule is made in a state that allows it. -/
def allMoves (allows : System α → Move α → Bool) (s : System α) : List (Move α) → Bool
  | [] => true
  | m :: moves =>
    allows s m &&
      match s.move? m with
      | some s' => s'.allMoves allows moves
      | none => true

theorem allows_of_allMoves {allows : System α → Move α → Bool} (h : s.allMoves allows moves = true)
    (hpre : before ++ [m] <+: moves) (hb : s.run? before = some u) : allows u m = true := by
  obtain ⟨rest, rfl⟩ := hpre
  induction before generalizing s with
  | nil =>
    cases hb
    simp only [List.nil_append, List.singleton_append, allMoves, Bool.and_eq_true] at h
    exact h.1
  | cons m' before ih =>
    obtain ⟨s₁, h₁, h₂⟩ := Option.bind_eq_some_iff.mp hb
    simp only [List.cons_append, allMoves, h₁, Bool.and_eq_true] at h
    exact ih h₂ h.2

end System

end Chronicle
