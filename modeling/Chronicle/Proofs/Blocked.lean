/-
  Chronicle.Proofs.Blocked — a call that blocked is answered as of its last return to the
  lock.

  A call that sleeps takes the lock again before it ends, and ends with the lock, which it
  keeps from its last return on (`Held`); whoever runs meanwhile changes nothing of the
  series. So its answer is read off the series at that return, however many appends went
  by before and whichever of them woke it.

  A run of the others and of the call itself is followed by `Stage`: the call waits, has
  the lock again, or is over. Every step keeps it (`Stage.step`), so it holds at the end of
  every run (`Stage.of_run`).

  Proved: `blocked_call_linearises`.
-/

import Chronicle.Proofs.System.Ask
import Chronicle.Proofs.System.Coherence

namespace Chronicle

variable {α : Type}

namespace Phase

/-- The call waits without the lock. -/
def Waits (c : Call α) (w : Waiter) : Phase α → Prop
  | .asleep c' w' _ | .woken c' w' _ => c' = c ∧ w' = w
  | _ => False

/-- The call has the lock again and has not ended. -/
def Watches (c : Call α) (w : Waiter) : Phase α → Prop
  | .resumed c' w' _ | .looking c' w' | .planning c' w' => c' = c ∧ w' = w
  | _ => False

variable {p : Phase α} {c : Call α} {w : Waiter}

theorem Waits.notified (h : p.Waits c w) : p.notified.Waits c w := by
  cases p <;> exact h

theorem Watches.holds (h : p.Watches c w) : p.holds = true := by
  cases p <;> first | rfl | cases h

end Phase

namespace System

/-- The thread has the lock all through a schedule, up to its last move. -/
def HoldsThrough (s : System α) (t : Nat) (moves : List (Move α)) : Prop :=
  ∀ before u, before <+: moves → before ≠ moves → s.run? before = some u → u.holder = some t

/-- The thread's call took the lock again, which brought it to `s₁`, and has kept it up to
    `s₂`. -/
structure Held (s : System α) (t : Nat) (c : Call α) (w : Waiter) (before mid : List (Move α)) (s₁ s₂ : System α) :
    Prop where
  reached : s.run? before = some s₁
  resumed : ∃ ranOut, s₁.phase t = .resumed c w ranOut
  run : s₁.run? mid = some s₂
  holds : s₁.HoldsThrough t mid
  ring : s₂.ring = s₁.ring

/-- The reply with which the call ended: the verdict on the series, or, if the index was
    not there, another refusal than that it is evicted. -/
structure Closes (s : System α) (t : Nat) (c : Call α) (w : Waiter) (s₁ s₂ : System α) (r : Reply α) : Prop where
  phase : s₂.phase t = .idle
  holder : s₂.holder = none
  replies : (s₂.thread t).replies = r :: (s.thread t).replies
  call : r.call = c
  answer : w.target ≤ s₁.ring.newest ∧ r.answer = s₁.ring.verdict c.request ∨
    s₁.ring.newest < w.target ∧ ∃ e, e.isEvicted = false ∧ r.answer = c.request.refusal e

/-- How far a call that slept in `s` has come after `moves`, which led to `u`. -/
inductive Stage (s : System α) (t : Nat) (c : Call α) (w : Waiter) (moves : List (Move α)) (u : System α) : Prop
  | waiting : (u.thread t).replies = (s.thread t).replies → (u.phase t).Waits c w → Stage s t c w moves u
  | holding (before mid : List (Move α)) (s₁ : System α) : moves = before ++ mid → s.Held t c w before mid s₁ u →
      (u.thread t).replies = (s.thread t).replies → (u.phase t).Watches c w → Stage s t c w moves u
  | ended (before mid after : List (Move α)) (s₁ s₂ : System α) (r : Reply α) (newer : List (Reply α)) :
      moves = before ++ mid ++ after → s.Held t c w before mid s₁ s₂ → s.Closes t c w s₁ s₂ r →
      (u.thread t).replies = newer ++ r :: (s.thread t).replies → Stage s t c w moves u

variable {s s₁ u u' : System α} {t : Nat} {c : Call α} {w : Waiter} {m : Move α} {before mid moves : List (Move α)}

theorem Held.snoc (h : s.Held t c w before mid s₁ u) (hh : u.holder = some t) (hm : u.move? m = some u')
    (hr : u'.ring = u.ring) : s.Held t c w before (mid ++ [m]) s₁ u' := by
  refine ⟨h.reached, h.resumed, by rw [run?_append_of_run? h.run, run?_cons_of_move? hm]; rfl, ?_, hr.trans h.ring⟩
  intro l v hl hne hv
  rcases List.prefix_concat_iff.mp hl with rfl | hl
  · exact absurd rfl hne
  · by_cases e : l = mid
    · subst e
      rw [h.run] at hv
      cases hv
      exact hh
    · exact h.holds l v hl e hv

/-- A step with which the call ends. -/
theorem Held.ended (h : s.Held t c w before mid s₁ u) (hh : u.holder = some t) (hm : u.move? m = some u') {a : Answer α}
    (he : u.Ends t c a u') (hrep : (u.thread t).replies = (s.thread t).replies)
    (ha : w.target ≤ u.ring.newest ∧ a = u.ring.verdict c.request ∨
      u.ring.newest < w.target ∧ ∃ e, e.isEvicted = false ∧ a = c.request.refusal e) :
    s.Stage t c w (before ++ mid ++ [m]) u' := by
  have hreplies : (u'.thread t).replies = ⟨c, a, u.now⟩ :: (s.thread t).replies := by rw [he.replies, hrep]
  rw [h.ring] at ha
  refine .ended before (mid ++ [m]) [] s₁ u' ⟨c, a, u.now⟩ [] (by simp) (h.snoc hh hm he.ring) ?_ hreplies
  exact ⟨he.phase, he.holder, hreplies, rfl, ha⟩

/-- A call that waits goes on waiting until the thread takes a step. -/
theorem Step.waits (h : Step u m u') (hm : m ≠ .step t) (hp : (u.phase t).Waits c w) : (u'.phase t).Waits c w := by
  by_cases ht : m.mover? ≠ some t
  · exact h.kept_other (P := fun p => p.Waits c w) Phase.Waits.notified ht hp
  replace ht := Decidable.not_not.mp ht
  cases h with
  | elapse time => cases ht
  | call v r hv => cases ht; rw [hv] at hp; cases hp
  | runOut v c' w' wake hv => cases ht; rw [hv] at hp; simp only [phase_become, if_true]; exact hp
  | stir v c' w' wake hv => cases ht; rw [hv] at hp; simp only [phase_become, if_true]; exact hp
  | _ => cases ht; exact absurd rfl hm

/-- A call that waits goes on waiting, or takes the lock again. -/
theorem stage_of_waits (hrun : s.run? moves = some u) (hm : u.move? m = some u')
    (hrep : (u.thread t).replies = (s.thread t).replies) (hp : (u.phase t).Waits c w) :
    s.Stage t c w (moves ++ [m]) u' := by
  have hs := step_of_move? hm
  by_cases hself : m = .step t
  · subst hself
    have hstep : u.step? t = some u' := hm
    cases hphase : u.phase t with
    | asleep c' w' wake => rw [step?_asleep hphase] at hstep; cases hstep
    | woken c' w' ranOut =>
      rw [hphase] at hp
      obtain ⟨rfl, rfl⟩ := hp
      have hrun' : s.run? (moves ++ [.step t]) = some u' := by
        rw [run?_append_of_run? hrun, run?_cons_of_move? hm]; rfl
      rw [step?_woken hphase] at hstep
      obtain ⟨-, rfl⟩ := (acquire_eq_some u t).mp hstep
      refine .holding (moves ++ [.step t]) [] _ (by simp) ⟨hrun', ⟨ranOut, by simp⟩, rfl, ?_, rfl⟩ (by simp [hrep])
        (by simp [Phase.Watches])
      intro l v hl hne
      exact absurd (List.prefix_nil.mp hl) hne
    | _ => rw [hphase] at hp; cases hp
  · exact .waiting ((hs.replies_other hself).trans hrep) (hs.waits hself hp)

/-- A call that has the lock again keeps it, ends, or goes back to sleep; the others change
    nothing meanwhile. -/
theorem Held.stage (hl : u.Locked) (h : s.Held t c w before mid s₁ u) (hm : u.move? m = some u')
    (hrep : (u.thread t).replies = (s.thread t).replies) (hp : (u.phase t).Watches c w) :
    s.Stage t c w (before ++ mid ++ [m]) u' := by
  have hh : u.holder = some t := (hl t).mpr hp.holds
  have hkeeps : u'.ring = u.ring → (u'.thread t).replies = (u.thread t).replies → (u'.phase t).Watches c w →
      s.Stage t c w (before ++ mid ++ [m]) u' := fun hring hrep' hp' =>
    .holding before (mid ++ [m]) s₁ (by simp) (h.snoc hh hm hring) (hrep'.trans hrep) hp'
  by_cases hself : m = .step t
  · subst hself
    have hstep : u.step? t = some u' := hm
    cases hphase : u.phase t with
    | resumed c' w' ranOut =>
      rw [hphase] at hp
      obtain ⟨rfl, rfl⟩ := hp
      rw [step?_resumed hphase] at hstep
      split at hstep
      · rename_i hlapse
        cases hstep
        exact h.ended hh hm (ends_giveUp _) hrep (Or.inr ⟨hlapse.2.2, _, rfl, rfl⟩)
      · cases hstep
        exact hkeeps rfl (by simp) (by simp [Phase.Watches])
    | looking c' w' =>
      rw [hphase] at hp
      obtain ⟨rfl, rfl⟩ := hp
      rw [step?_looking hphase] at hstep
      cases hstep
      rcases look_cases u t c' w' with ⟨hn, he⟩ | ⟨hn, ⟨f, d, -, -, he⟩ | he | ⟨wake, he⟩⟩
      · exact h.ended hh hm he hrep (Or.inl ⟨hn, rfl⟩)
      · exact h.ended hh hm (he ▸ ends_giveUp _) hrep (Or.inr ⟨hn, _, rfl, rfl⟩)
      · exact hkeeps (by rw [he]; rfl) (by simp [he]) (by simp [he, Phase.Watches])
      · exact .waiting (by simp [he, hrep]) (by simp [he, Phase.Waits])
    | planning c' w' =>
      rw [hphase] at hp
      obtain ⟨rfl, rfl⟩ := hp
      rw [step?_planning hphase] at hstep
      cases hstep
      exact .waiting (by simp [hrep]) (by simp [Phase.Waits])
    | _ => rw [hphase] at hp; cases hp
  · obtain ⟨hring, hthread⟩ := (step_of_move? hm).frozen hl hp.holds hself
    refine hkeeps hring (by rw [hthread]) ?_
    rw [phase, hthread]
    exact hp

theorem Stage.step (hl : u.Locked) (hrun : s.run? moves = some u) (hm : u.move? m = some u')
    (h : s.Stage t c w moves u) : s.Stage t c w (moves ++ [m]) u' := by
  cases h with
  | waiting hrep hp => exact stage_of_waits hrun hm hrep hp
  | holding before mid s₁ hmoves hheld hrep hp =>
    rw [hmoves]
    exact hheld.stage hl hm hrep hp
  | ended before mid after s₁ s₂ r newer hmoves hheld hcloses hrep =>
    obtain ⟨newer', hrep'⟩ := (step_of_move? hm).replies_newer hrep
    exact .ended before mid (after ++ [m]) s₁ s₂ r newer' (by simp [hmoves]) hheld hcloses hrep'

theorem Stage.of_run {s' : System α} (hl : s.Locked) {wake : Option Nat} (hp : s.phase t = .asleep c w wake)
    (hr : s.run? moves = some s') : s.Stage t c w moves s' := by
  refine run_prefix_induction (I := fun l u => s.Stage t c w l u) ?_ ?_ hr
  · refine .waiting rfl ?_
    rw [hp]
    exact ⟨rfl, rfl⟩
  · rintro l u m u' - hrun hm h
    exact h.step (run_locked hl hrun) hrun hm

/-- A request is answered as the series of `s` has it, read off the log, and as the same
    request would be answered if it were made anew in `s'`; a wait for an index differs,
    which is content with an index that has come and gone. -/
structure AnsweredAt (s s' : System α) (start : Int) (log : List (Sample α)) (q : Request α) (a : Answer α) : Prop where
  tells : s.ring.Tells start log q a
  afresh : (∀ j l, q ≠ .await j l) → ∀ v, s'.phase v = .idle → s'.Answers v q a

theorem Coherent.answeredAt {log : List (Sample α)} {s' : System α} {n : Nat} (h : s.Coherent log)
    (hf : w.For c s.settings.start n) (hn : w.target ≤ s.ring.newest) (hr : s'.ring = s.ring) (hh : s'.holder = none)
    (hs : s'.settings = s.settings) :
    AnsweredAt s s' s.settings.start log c.request (s.ring.verdict c.request) := by
  refine ⟨h.window.tells hf.target hf.start_le hn, fun hq v hv => ?_⟩
  rw [← hr] at hn ⊢
  exact answers_verdict hv hh (hs ▸ hf.target) hn hq

variable {o : Opening} {memory : Memory} {clock : Clock} {now : Nat} {s₀ : System α}

/-- A thread that has the lock again and finds its index there is answered in two more
    steps, as of that moment. A call that slept and is over was answered so, as of its last
    return to the lock, if its index was there; that it is evicted it was told in no other
    case. -/
theorem blocked_call_linearises (ho : (o.run memory clock now).2 = .opened s₀) (hr : s₀.run? moves = some s) :
    s.ring.capacity = o.settings.capacity.toNat ∧
    (∀ t c w ranOut, s.phase t = .resumed c w ranOut → w.target ≤ s.ring.newest →
      ∃ s' a, s.run? [.step t, .step t] = some s' ∧ s.Ends t c a s' ∧
        AnsweredAt s s' o.settings.start (s₀.log moves) c.request a) ∧
    (∀ t c w wake later s' newer r, s.phase t = .asleep c w wake → s.run? later = some s' →
      (s'.thread t).replies = newer ++ r :: (s.thread t).replies →
      ∃ before mid after s₁ s₂, later = before ++ mid ++ after ∧ s.Held t c w before mid s₁ s₂ ∧
        s.Closes t c w s₁ s₂ r ∧ s₁.ring.capacity = o.settings.capacity.toNat ∧
        (w.target ≤ s₁.ring.newest →
          AnsweredAt s₁ s₂ o.settings.start (s₀.log (moves ++ before)) c.request r.answer) ∧
        (∀ i oldest, r.answer = .failed (.evicted i oldest) →
          c.request.target? o.settings.start = some i ∧ i + s₁.ring.capacity ≤ s₁.ring.newest ∧
            oldest = s₁.ring.newest - s₁.ring.capacity + 1)) := by
  have hc := Coherent.of_reached ho hr
  refine ⟨by rw [hc.capacity, settings_of_reached ho hr], ?_, ?_⟩
  · intro t c w ranOut hp hn
    obtain ⟨s', hrun, hends⟩ := run?_resumed hp hn
    have hf := hc.fits t
    rw [hp] at hf
    refine ⟨s', _, hrun, hends, ?_⟩
    rw [← settings_of_reached ho hr]
    exact hc.answeredAt hf.1 hn hends.ring hends.holder (run_settings hrun)
  · intro t c w wake later s' newer r hp hrun hreplies
    cases Stage.of_run hc.locked hp hrun with
    | waiting hrep => exact absurd (hrep.symm.trans hreplies) ne_of_reply
    | holding before mid s₁ _ _ hrep => exact absurd (hrep.symm.trans hreplies) ne_of_reply
    | ended before mid after s₁ s₂ r' newer' hlater hheld hcloses hrep =>
      obtain rfl : r' = r := first_reply (hrep.symm.trans hreplies)
      have hr₁ : s₀.run? (moves ++ before) = some s₁ := by rw [run?_append_of_run? hr, hheld.reached]
      have hc₁ := Coherent.of_reached ho hr₁
      obtain ⟨ranOut, hp₁⟩ := hheld.resumed
      have hf := hc₁.fits t
      rw [hp₁] at hf
      have hat : w.target ≤ s₁.ring.newest →
          AnsweredAt s₁ s₂ o.settings.start (s₀.log (moves ++ before)) c.request r'.answer := by
        intro hn
        rcases hcloses.answer with ⟨-, ha⟩ | ⟨hlt, -⟩
        · rw [ha, ← settings_of_reached ho hr₁]
          exact hc₁.answeredAt hf.1 hn hheld.ring hcloses.holder (run_settings hheld.run)
        · omega
      have hcap : s₁.ring.capacity = o.settings.capacity.toNat := by rw [hc₁.capacity, settings_of_reached ho hr₁]
      refine ⟨before, mid, after, s₁, s₂, hlater, hheld, hcloses, hcap, hat, fun i oldest ha => ?_⟩
      rcases hcloses.answer with ⟨hn, -⟩ | ⟨-, e, he, hrefusal⟩
      · have htells := (hat hn).tells
        rw [ha] at htells
        exact htells.evicted
      · rw [← Request.eq_of_refusal (hrefusal.symm.trans ha)] at he
        cases he

/-- Three readers fall asleep, each on another of the first three indices, -/
def threeAsleep : List (Move Nat) :=
  [[.call 1 (.read .value (-1) .forever)], List.replicate 3 (.step 1), [.call 2 (.read .sample 0 .forever)],
    List.replicate 3 (.step 2), [.call 3 (.read .stampS 1 (.within (.millis 50)))], List.replicate 3 (.step 3)].flatten

/-- and take the lock again only when all three were appended. -/
def threeLate : List (Move Nat) :=
  [appendAlone 0 10, appendAlone 0 20, appendAlone 0 30, List.replicate 3 (.step 1), List.replicate 3 (.step 2),
    List.replicate 3 (.step 3)].flatten

/-- With two slots, the reader of the first index is told that it is evicted, and that is all it can be
    told; the others are told what was appended at theirs. -/
theorem blocked_call_linearises_lapped :
    ∃ (s s' : System Nat) (r₁ r₂ r₃ : Reply Nat) (newest : Int),
      timed.run? threeAsleep = some s ∧ s.run? threeLate = some s' ∧
      (s'.thread 1).replies = [r₁] ∧ (s'.thread 2).replies = [r₂] ∧ (s'.thread 3).replies = [r₃] ∧
      r₁.answer = .failed (.evicted (-1) 0) ∧ -1 + 2 ≤ newest ∧ 0 = newest - 2 + 1 ∧
      r₂.answer = .sample ⟨20, 20.0⟩ ∧ r₃.answer = .stampS (30.0 / 1000.0) := by
  have hwait : (timed.run? threeAsleep).any (fun s =>
      decide ((s.phase 1).sleepsOn? = some (-1) ∧ (s.phase 2).sleepsOn? = some 0 ∧ (s.phase 3).sleepsOn? = some 1) &&
      ((s.thread 1).replies.isEmpty && (s.thread 2).replies.isEmpty && (s.thread 3).replies.isEmpty) &&
      (s.run? threeLate).any fun s' =>
        decide ((s'.thread 1).replies.map (·.answer.fault?) = [some (.evicted (-1) 0)] ∧
          (s'.thread 2).replies.map (fun r => (r.call.request.read?, r.answer.isFailure)) =
            [(some (.sample, 0, .forever), false)] ∧
          (s'.thread 3).replies.map (fun r => (r.call.request.read?, r.answer.isFailure)) =
            [(some (.stampS, 1, .within (.millis 50)), false)])) = true := by
    decide +kernel
  obtain ⟨s, hr, hs⟩ := exists_run hwait
  simp only [Bool.and_eq_true, decide_eq_true_eq, List.isEmpty_iff] at hs
  obtain ⟨⟨⟨hsleeps₁, hsleeps₂, hsleeps₃⟩, ⟨hnone₁, hnone₂⟩, hnone₃⟩, hthen⟩ := hs
  obtain ⟨s', hr', hs'⟩ := exists_run hthen
  simp only [decide_eq_true_eq] at hs'
  obtain ⟨hs₁, hs₂, hs₃⟩ := hs'
  obtain ⟨r₁, hone₁, hfault⟩ := List.map_eq_singleton_iff.mp hs₁
  obtain ⟨r₂, hone₂, hread₂⟩ := List.map_eq_singleton_iff.mp hs₂
  obtain ⟨r₃, hone₃, hread₃⟩ := List.map_eq_singleton_iff.mp hs₃
  simp only [Prod.mk.injEq] at hread₂ hread₃
  obtain ⟨-, -, hslept⟩ := blocked_call_linearises timed_opened hr
  have hlog : timed.log (threeAsleep ++ threeLate) = [⟨10, 10.0⟩, ⟨20, 20.0⟩, ⟨30, 30.0⟩] := rfl
  -- whoever slept and was told a value was told what the log has at its index
  have hserved : ∀ {t : Nat} {r : Reply Nat} {view : View} {i : Int} {limit : Limit}, (s.phase t).sleepsOn? = some i →
      (s.thread t).replies = [] → (s'.thread t).replies = [r] → r.call.request.read? = some (view, i, limit) →
      r.answer.isFailure = false →
      ∃ (k : Nat) (x : Sample Nat), i = -1 + k ∧ (timed.log (threeAsleep ++ threeLate))[k]? = some x ∧
        view.Shows x r.answer := by
    intro t r view i limit hsleeps hnone hone hread hgood
    obtain ⟨c, w, wake, hp, -⟩ := Phase.eq_asleep hsleeps
    obtain ⟨before, mid, after, s₁, s₂, hlater, hheld, hcloses, -, hat, -⟩ :=
      hslept t c w wake _ s' [] r hp hr' (by rw [hone, hnone]; rfl)
    have hq : c.request = .read view i limit := by rw [← hcloses.call]; exact Request.eq_read hread
    have hpre : threeAsleep ++ before <+: threeAsleep ++ threeLate :=
      (List.prefix_append_right_inj _).mpr (by rw [hlater, List.append_assoc]; exact List.prefix_append _ _)
    have hrun₁ : timed.run? (threeAsleep ++ before) = some s₁ := by rw [run?_append_of_run? hr, hheld.reached]
    rcases hcloses.answer with ⟨hn, -⟩ | ⟨-, e, -, ha⟩
    · have htells := (hat hn).tells
      rw [hq] at htells
      rcases htells with ⟨-, k, x, hk, hx, hshows⟩ | ⟨-, ha⟩
      · exact ⟨k, x, hk, log_getElem? hpre hrun₁ hx, hshows⟩
      · rw [ha] at hgood
        cases hgood
    · rw [hq] at ha
      rw [ha] at hgood
      cases hgood
  have hanswer₁ : r₁.answer = .failed (.evicted (-1) 0) := Answer.eq_failed hfault
  obtain ⟨c, w, wake, hp, -⟩ := Phase.eq_asleep hsleeps₁
  obtain ⟨before, mid, after, s₁, s₂, -, -, -, hcap, -, hevicted⟩ :=
    hslept 1 c w wake _ s' [] r₁ hp hr' (by rw [hone₁, hnone₁]; rfl)
  obtain ⟨-, hlap, holdest⟩ := hevicted (-1) 0 hanswer₁
  rw [hcap] at hlap holdest
  obtain ⟨k, x, hk, hx, hshows₂⟩ := hserved hsleeps₂ hnone₂ hone₂ hread₂.1 hread₂.2
  obtain ⟨l, y, hl, hy, hshows₃⟩ := hserved hsleeps₃ hnone₃ hone₃ hread₃.1 hread₃.2
  obtain rfl : k = 1 := by omega
  obtain rfl : l = 2 := by omega
  rw [hlog] at hx hy
  cases hx
  cases hy
  exact ⟨s, s', r₁, r₂, r₃, s₁.ring.newest, hr, hr', hone₁, hone₂, hone₃, hanswer₁, hlap, holdest, hshows₂, hshows₃⟩

end System

end Chronicle
