/-
  Chronicle.Proofs.System.Release — what becomes of a call while its flag is up.

  A call with a flag that is up goes one way, whatever the others do: if it was on its way
  into a sleep, it goes to the end of that sleep, takes the lock again, and is over; otherwise
  it is over at its next look. `Underway` follows it there, stage by stage, and `Freed` says
  where it ended (`freed_of_run`).

  What it is told is decided where it has the lock again, by the series, by how its sleep
  ended and by the deadline, in this order: its index is there, its time is over, its flag is up
  (`Released`). Once it is awake and has the lock to itself, it needs three steps of its own at
  most (`over_of_awake`, `over_of_asleep`).
-/

import Chronicle.Proofs.Lifetime
import Chronicle.Proofs.Outcomes
import Chronicle.Proofs.System.Call
import Chronicle.Proofs.System.Sleep

namespace Chronicle

variable {α : Type}

/-- The phases of a call that sleeps, is about to, or has slept. -/
def Phase.Slumbers (c : Call α) (w : Waiter) : Phase α → Prop
  | .planning c' w' | .asleep c' w' _ | .woken c' w' _ | .resumed c' w' _ => c' = c ∧ w' = w
  | _ => False

theorem Phase.Slumbers.notified {p : Phase α} {c : Call α} {w : Waiter} (h : p.Slumbers c w) :
    p.notified.Slumbers c w := by
  cases p <;> exact h

/-- The phases of a call in which it goes on to look, if it gets the lock. -/
def Phase.Awake (c : Call α) : Phase α → Prop
  | .ready c' | .entered c' | .looking c' _ | .woken c' _ _ | .resumed c' _ _ => c' = c
  | _ => False

/-- When the time of a call is over, if it has a time that ends. -/
def Call.deadline? (c : Call α) : Option Nat := c.request.limit.time?.bind (Instant.after? c.begun)

theorem Call.Dated.patience_eq {c : Call α} {now f : Nat} {time : Option Duration} (h : c.Dated now)
    (hl : c.request.limit = .cancellable f time) : c.patience = .cancellable f c.deadline? := by
  rw [h.patience, Call.deadline?, hl]
  rfl

/-- The call under way was made before. -/
theorem Phase.Fits.dated {s : System α} {p : Phase α} {c : Call α} (h : p.Fits s) (hp : p.call? = some c) :
    c.Dated s.now := by
  cases p with
  | idle => cases hp
  | ready c' => cases hp; exact h
  | looking c' w => cases hp; exact Waiter.For.dated h
  | entered c' | stamped c' x | pushed c' i | unlocked c' i => cases hp; exact h.1
  | planning c' w | asleep c' w wake | woken c' w ranOut | resumed c' w ranOut => cases hp; exact h.1.dated

/-- A request with a flag waits for the index it names. -/
theorem Request.target?_of_cancellable {q : Request α} {f : Nat} {d : Option Duration} (h : q.limit = .cancellable f d)
    (start : Int) : ∃ i, q.target? start = some i := by
  cases q with
  | read view i limit => exact ⟨i, rfl⟩
  | await i limit => exact ⟨i, rfl⟩
  | edge which time => cases time <;> cases h
  | _ => cases h

theorem Patience.deadline_of_expired {w : Waiter} {f : Nat} {d : Option Nat} (h : w.patience = .cancellable f d)
    (now : Nat) : w.expired now = true ↔ ∃ deadline, d = some deadline ∧ deadline ≤ now := by
  unfold Waiter.expired
  rw [h]
  cases d <;> simp

namespace System

/-- The sleep ran out, the deadline has passed, and the index is not there. -/
def OutOfTime (v : System α) (w : Waiter) (d : Option Nat) (ranOut : Bool) : Prop :=
  v.ring.newest < w.target ∧ ranOut = true ∧ ∃ deadline, d = some deadline ∧ deadline ≤ v.now

/-- What a waiter whose flag is up is told in the state `v`, where it has the lock: what the series
    has, if its index is there; else that its time is over, if it is out of time; else that it is
    cancelled. -/
inductive Released (v : System α) (log : List (Sample α)) (c : Call α) (w : Waiter) (d : Option Nat) (ranOut : Bool) :
    Answer α → Prop
  | arrived (a : Answer α) : w.target ≤ v.ring.newest → v.ring.Tells v.settings.start log c.request a →
      Released v log c w d ranOut a
  | lateRead (view : View) (i : Int) (limit : Limit) : v.OutOfTime w d ranOut → c.request = .read view i limit →
      Released v log c w d ranOut (.failed (.timeout w.target (Instant.since w.started v.now)))
  | lateWait (i : Int) (limit : Limit) : v.OutOfTime w d ranOut → c.request = .await i limit →
      Released v log c w d ranOut (.truth false)
  | cancelled : v.ring.newest < w.target → ¬ v.OutOfTime w d ranOut →
      Released v log c w d ranOut (.failed (.cancelled w.target))

variable {s s' u u' v : System α} {t f : Nat} {c : Call α} {w : Waiter} {d : Option Nat} {m : Move α}
  {log : List (Sample α)} {before moves : List (Move α)}

/-- Whether a sleep that ended as `ranOut` says lets the waiter give up in `v`. -/
theorem lapses_iff (hw : w.patience = .cancellable f d) (v : System α) (ranOut : Bool) :
    (ranOut = true ∧ w.expired v.now = true ∧ v.ring.newest < w.target) ↔ v.OutOfTime w d ranOut := by
  rw [Patience.deadline_of_expired hw]
  exact ⟨fun h => ⟨h.2.2, h.1, h.2.1⟩, fun h => ⟨h.2.1, h.2.2, h.1⟩⟩

/-- A look with the flag up ends the call. -/
theorem Coherent.released_of_look (h : u.Coherent log) (hp : u.phase t = .looking c w)
    (hc : c.patience = .cancellable f d) (hf : u.flags.isRaised f = true) :
    ∃ a, u.Ends t c a (u.look t c w) ∧ (w.target ≤ u.ring.newest ∧ a = u.ring.verdict c.request ∨
      u.ring.newest < w.target ∧ a = .failed (.cancelled w.target)) := by
  have hfits := h.fits t
  rw [hp] at hfits
  have hw := hfits.patience.trans hc
  by_cases hn : w.target ≤ u.ring.newest
  · exact ⟨_, look_served hn, Or.inl ⟨hn, rfl⟩⟩
  · have hlt : u.ring.newest < w.target := by omega
    obtain ⟨time, hl⟩ := hfits.cancellable hw
    rw [look_cancelled hlt hw hf]
    refine ⟨_, ends_giveUp _, Or.inr ⟨hlt, ?_⟩⟩
    exact Request.refusal_of_cancellable hl

/-- Out of time, a read fails and a wait is told that its index did not come. -/
theorem released_of_late {time : Option Duration} {ranOut : Bool} (hlimit : c.request.limit = .cancellable f time)
    (hlate : v.OutOfTime w d ranOut) :
    v.Released log c w d ranOut (c.request.refusal (.timeout w.target (Instant.since w.started v.now))) := by
  cases hq : c.request with
  | read view i limit => exact .lateRead view i limit hlate hq
  | await i limit => exact .lateWait i limit hlate hq
  | edge which time' => rw [hq] at hlimit; cases time' <;> cases hlimit
  | _ => rw [hq] at hlimit; cases hlimit

/-- What a look tells is what was decided where the lock was taken. -/
theorem Coherent.released_of_ring (h : v.Coherent log) (hfor : w.For c v.settings.start v.now) {ranOut : Bool}
    (hlate : ¬ v.OutOfTime w d ranOut) {r : Ring (Sample α)} (hr : r = v.ring) {a : Answer α}
    (ha : w.target ≤ r.newest ∧ a = r.verdict c.request ∨ r.newest < w.target ∧ a = .failed (.cancelled w.target)) :
    v.Released log c w d ranOut a := by
  subst hr
  rcases ha with ⟨hn, rfl⟩ | ⟨hn, rfl⟩
  · exact .arrived _ hn (h.window.tells hfor.target hfor.start_le hn)
  · exact .cancelled hn hlate

/-! ## Stages -/

/-- The reply that ends the call: it entered and was refused, or looked, without having slept; or it
    slept, and got the lock again after. -/
inductive Freed (s : System α) (log : List (Sample α)) (t : Nat) (c : Call α) (d : Option Nat) (moves : List (Move α))
    (r : Reply α) : Prop
  | refused (before : List (Move α)) (v : System α) (i : Int) : (s.phase t).Enters c → before ++ [.step t] <+: moves →
      s.run? before = some v → v.phase t = .entered c → c.request.target? v.settings.start = some i →
      i < v.ring.oldest → r.answer = .failed (.evicted i v.ring.oldest) → Freed s log t c d moves r
  | looked (before : List (Move α)) (v : System α) (w : Waiter) : (s.phase t).Enters c ∨ s.phase t = .looking c w →
      before ++ [.step t] <+: moves → s.run? before = some v → v.phase t = .looking c w →
      v.Released (log ++ s.log before) c w d false r.answer → Freed s log t c d moves r
  | woke (before : List (Move α)) (v : System α) (w : Waiter) (ranOut : Bool) : (s.phase t).Slumbers c w →
      before ++ [.step t] <+: moves → s.run? before = some v → v.phase t = .resumed c w ranOut →
      v.Released (log ++ s.log before) c w d ranOut r.answer → Freed s log t c d moves r

/-- How far the call `c`, which was under way in `s`, has come in `u`. -/
inductive Underway (s : System α) (log : List (Sample α)) (t : Nat) (c : Call α) (d : Option Nat)
    (moves : List (Move α)) (u : System α) : Prop
  | enters : (u.thread t).replies = (s.thread t).replies → (s.phase t).Enters c → (u.phase t).Enters c →
      Underway s log t c d moves u
  | looks (w : Waiter) : (u.thread t).replies = (s.thread t).replies →
      (s.phase t).Enters c ∨ s.phase t = .looking c w → u.phase t = .looking c w → Underway s log t c d moves u
  | slumbers (w : Waiter) : (u.thread t).replies = (s.thread t).replies → (s.phase t).Slumbers c w →
      (u.phase t).Slumbers c w → Underway s log t c d moves u
  | looksAgain (before : List (Move α)) (v : System α) (w : Waiter) (ranOut : Bool) :
      (u.thread t).replies = (s.thread t).replies → (s.phase t).Slumbers c w → before ++ [.step t] <+: moves →
      s.run? before = some v → v.phase t = .resumed c w ranOut →
      ¬ v.OutOfTime w d ranOut →
      u.ring = v.ring → u.phase t = .looking c w → Underway s log t c d moves u
  | ended (r : Reply α) (newer : List (Reply α)) : (u.thread t).replies = newer ++ r :: (s.thread t).replies →
      r.call = c → s.Freed log t c d moves r → Underway s log t c d moves u

/-- A thread that makes a call and does not sleep stays where it is while the others move. -/
theorem Step.stays (h : Step u m u') (hm : m ≠ .step t) (hi : u.phase t ≠ .idle)
    (ha : ∀ c w wake, u.phase t ≠ .asleep c w wake) : u'.phase t = u.phase t := by
  have hother : m.mover? ≠ some t := fun e => hm (h.eq_step e hi ha)
  rcases h.phase_other hother with e | e
  · exact e
  · rw [e]
    cases hp : u.phase t with
    | asleep c w wake => exact absurd hp (ha c w wake)
    | _ => rfl

theorem Step.slumbers (h : Step u m u') (hm : m ≠ .step t) (hp : (u.phase t).Slumbers c w) :
    (u'.phase t).Slumbers c w := by
  by_cases ht : m.mover? ≠ some t
  · exact h.kept_other (P := fun p => p.Slumbers c w) Phase.Slumbers.notified ht hp
  replace ht := Decidable.not_not.mp ht
  cases h with
  | elapse time => cases ht
  | call _ q hv => cases ht; rw [hv] at hp; cases hp
  | runOut _ c' w' wake hv | stir _ c' w' wake hv =>
    cases ht
    rw [hv] at hp
    simp only [phase_become, if_true]
    exact hp
  | _ => cases ht; exact absurd rfl hm

section

variable (hc : u.Coherent (log ++ s.log before)) (hpre : before ++ [.step t] <+: moves) (hb : s.run? before = some u)
  (hm : u.step? t = some u') (hrep : (u.thread t).replies = (s.thread t).replies)

include hc hpre hb hm hrep

omit hc in
/-- A call that has entered is refused, or is about to look. -/
theorem Underway.of_enters {i : Int} (hl : c.request.target? u.settings.start = some i) (hg : c.request.guarded = true)
    (hs : (s.phase t).Enters c) (hp : (u.phase t).Enters c) : Underway s log t c d moves u' := by
  cases hphase : u.phase t with
  | ready c' =>
    rw [hphase] at hp
    obtain rfl : c' = c := hp
    rw [step?_ready_acquire hphase (lockFree_of_target? hl)] at hm
    obtain ⟨-, rfl⟩ := (acquire_eq_some u t).mp hm
    exact .enters (by simp [hrep]) hs (by simp only [phase_become, if_true]; exact rfl)
  | entered c' =>
    rw [hphase] at hp
    obtain rfl : c' = c := hp
    by_cases hev : u.ring.evicted i = true
    · have hends := ends_of_refused hphase hl hg hev hm
      refine .ended ⟨c', .failed (.evicted i u.ring.oldest), u.now⟩ [] (by rw [hends.replies, hrep]; rfl) rfl ?_
      exact .refused before u i hs hpre hb hphase hl (by simpa [Ring.evicted] using hev) rfl
    · rw [step?_entered hphase, enter_looking hl (fun h => hev h.2)] at hm
      cases hm
      exact .looks _ (by simp [hrep]) (Or.inl hs) (by simp; rfl)
  | _ => rw [hphase] at hp; cases hp

/-- A call that looks for the first time is over. -/
theorem Underway.of_looks (hcp : c.patience = .cancellable f d) (hf : u.flags.isRaised f = true)
    (hs : (s.phase t).Enters c ∨ s.phase t = .looking c w) (hp : u.phase t = .looking c w) :
    Underway s log t c d moves u' := by
  obtain ⟨a, hends, ha⟩ := hc.released_of_look hp hcp hf
  have hfits := hc.fits t
  rw [hp] at hfits
  rw [step?_looking hp] at hm
  cases hm
  refine .ended ⟨c, a, u.now⟩ [] (by rw [hends.replies, hrep]; rfl) rfl ?_
  refine .looked before u w hs hpre hb hp (hc.released_of_ring hfits ?_ rfl ha)
  rintro ⟨-, hran, -⟩
  cases hran

/-- A call that slumbers goes on to sleep, takes the lock again, or is done with sleeping: then
    its time is over, or it looks again. -/
theorem Underway.of_slumbers (hcp : c.patience = .cancellable f d) {time : Option Duration}
    (hlimit : c.request.limit = .cancellable f time) (hs : (s.phase t).Slumbers c w)
    (hp : (u.phase t).Slumbers c w) : Underway s log t c d moves u' := by
  have hfits := hc.fits t
  cases hphase : u.phase t with
  | planning c' w' =>
    rw [hphase] at hp
    obtain ⟨rfl, rfl⟩ := hp
    rw [step?_planning hphase] at hm
    cases hm
    exact .slumbers _ (by simp [hrep]) hs (by simp [Phase.Slumbers])
  | asleep c' w' wake =>
    rw [step?_asleep hphase] at hm
    cases hm
  | woken c' w' ranOut =>
    rw [hphase] at hp
    obtain ⟨rfl, rfl⟩ := hp
    rw [step?_woken hphase] at hm
    obtain ⟨-, rfl⟩ := (acquire_eq_some u t).mp hm
    exact .slumbers _ (by simp [hrep]) hs (by simp [Phase.Slumbers])
  | resumed c' w' ranOut =>
    rw [hphase] at hp hfits
    obtain ⟨rfl, rfl⟩ := hp
    have hw := hfits.1.patience.trans hcp
    rw [step?_resumed hphase] at hm
    split at hm
    · rename_i hlapse
      cases hm
      have hlate := (lapses_iff hw u ranOut).mp hlapse
      refine .ended ⟨c', _, u.now⟩ [] (by rw [(ends_giveUp _).replies, hrep]; rfl) rfl ?_
      exact .woke before u w' ranOut hs hpre hb hphase (released_of_late hlimit hlate)
    · rename_i hlapse
      cases hm
      have hgoes := mt (lapses_iff hw u ranOut).mpr hlapse
      exact .looksAgain before u w' ranOut (by simp [hrep]) hs hpre hb hphase hgoes rfl (by simp)
  | _ => rw [hphase] at hp; cases hp

end

/-- Every move brings the call further, or leaves it where it is. -/
theorem Underway.step (hc₀ : s.Coherent log) (hpre : before ++ [m] <+: moves) (hb : s.run? before = some u)
    (hm : u.move? m = some u') (hcp : c.patience = .cancellable f d) {time : Option Duration}
    (hlimit : c.request.limit = .cancellable f time) (hf : u.flags.isRaised f = true)
    (h : Underway s log t c d moves u) : Underway s log t c d moves u' := by
  have hs := step_of_move? hm
  have hc := hc₀.of_run hb
  have hguard : c.request.guarded = true := by
    cases hq : c.request with
    | read | await => rfl
    | edge which time' => rw [hq] at hlimit; cases time' <;> cases hlimit
    | _ => rw [hq] at hlimit; cases hlimit
  by_cases hself : m = .step t
  · subst hself
    cases h with
    | enters hrep hs₀ hp =>
      obtain ⟨i, ht⟩ := Request.target?_of_cancellable hlimit u.settings.start
      exact .of_enters hpre hb hm hrep ht hguard hs₀ hp
    | looks w hrep hs₀ hp => exact .of_looks hc hpre hb hm hrep hcp hf hs₀ hp
    | slumbers w hrep hs₀ hp => exact .of_slumbers hc hpre hb hm hrep hcp hlimit hs₀ hp
    | looksAgain before' v w ranOut hrep hs₀ hpre' hb' hv hlate hring hp =>
      -- nobody has pushed since the call took the lock
      obtain ⟨a, hends, ha⟩ := hc.released_of_look hp hcp hf
      have hcv := hc₀.of_run hb'
      have hfits := hcv.fits t
      rw [hv] at hfits
      have hstep : u.step? t = some u' := hm
      rw [step?_looking hp] at hstep
      cases hstep
      refine .ended ⟨c, a, u.now⟩ [] (by rw [hends.replies, hrep]; rfl) rfl ?_
      exact .woke before' v w ranOut hs₀ hpre' hb' hv (hcv.released_of_ring hfits.1 hlate hring ha)
    | ended r newer hreplies hcall hfreed =>
      obtain ⟨newer', hreplies'⟩ := hs.replies_newer hreplies
      exact .ended r newer' hreplies' hcall hfreed
  · have hsame := hs.replies_other hself
    cases h with
    | enters hrep hs₀ hp =>
      refine .enters (hsame.trans hrep) hs₀ ?_
      rw [hs.stays hself (by intro e; rw [e] at hp; cases hp) (by intro c' w' wake e; rw [e] at hp; cases hp)]
      exact hp
    | looks w hrep hs₀ hp =>
      exact .looks w (hsame.trans hrep) hs₀ ((hs.stays hself (by simp [hp]) (by simp [hp])).trans hp)
    | slumbers w hrep hs₀ hp => exact .slumbers w (hsame.trans hrep) hs₀ (hs.slumbers hself hp)
    | looksAgain before' v w ranOut hrep hs₀ hpre' hb' hv hlate hring hp =>
      have hfrozen := (hs.frozen hc.locked (by rw [hp]; rfl) hself).1
      exact .looksAgain before' v w ranOut (hsame.trans hrep) hs₀ hpre' hb' hv hlate (hfrozen.trans hring)
        ((hs.stays hself (by simp [hp]) (by simp [hp])).trans hp)
    | ended r newer hreplies hcall hfreed => exact .ended r newer (hsame.trans hreplies) hcall hfreed

/-- Where a call with a flag is when its flag goes up. -/
theorem Coherent.underway (hc : s.Coherent log) (hp : (s.phase t).call? = some c) {time : Option Duration}
    (hlimit : c.request.limit = .cancellable f time) : Underway s log t c d moves s := by
  have hfits := hc.fits t
  have happend : ∀ v, c.request ≠ .append v := by
    intro v hv
    rw [hv] at hlimit
    cases hlimit
  cases hphase : s.phase t with
  | idle => rw [hphase] at hp; cases hp
  | ready c' | entered c' =>
    rw [hphase] at hp
    cases hp
    exact .enters rfl (by rw [hphase]; rfl) (by rw [hphase]; rfl)
  | stamped c' x =>
    rw [hphase] at hp hfits
    cases hp
    exact absurd hfits.2 (happend _)
  | pushed c' i | unlocked c' i =>
    rw [hphase] at hp hfits
    cases hp
    obtain ⟨v, hv⟩ := hfits.2.1
    exact absurd hv (happend v)
  | looking c' w =>
    rw [hphase] at hp
    cases hp
    exact .looks w rfl (Or.inr hphase) hphase
  | planning c' w | asleep c' w wake | woken c' w ranOut | resumed c' w ranOut =>
    rw [hphase] at hp
    cases hp
    exact .slumbers w rfl (by simp [hphase, Phase.Slumbers]) (by simp [hphase, Phase.Slumbers])

/-- A call that is under way while its flag is up ends in one of these ways. -/
theorem Coherent.freed_of_run (hc : s.Coherent log) (hr : s.run? moves = some s') (hup : s.RaisedThrough f moves)
    (hp : (s.phase t).call? = some c) {time : Option Duration} (hlimit : c.request.limit = .cancellable f time)
    (hcp : c.patience = .cancellable f d) {newer : List (Reply α)} {r : Reply α}
    (hrep : (s'.thread t).replies = newer ++ r :: (s.thread t).replies) : r.call = c ∧ s.Freed log t c d moves r := by
  have h : Underway s log t c d moves s' := by
    refine run_prefix_induction (I := fun _ u => Underway s log t c d moves u) (hc.underway hp hlimit) ?_ hr
    intro before u m u' hpre hb hm ih
    exact ih.step hc hpre hb hm hcp hlimit (hup before u ((List.prefix_append _ _).trans hpre) hb)
  have hstill : (s'.thread t).replies ≠ (s.thread t).replies := fun e => ne_of_reply (e.symm.trans hrep)
  cases h with
  | enters he | looks w he | slumbers w he | looksAgain before v w ranOut he => exact absurd he hstill
  | ended r' newer' hreplies hcall hfreed =>
    obtain rfl : r = r' := first_reply (hrep.symm.trans hreplies)
    exact ⟨hcall, hfreed⟩

/-! ## How soon -/

/-- Left the lock, the thread ends its call with so many steps of its own. -/
def OverWithin (s : System α) (t : Nat) (c : Call α) (n : Nat) : Prop :=
  ∃ k ≤ n, ∃ s' r, s.run? (List.replicate k (.step t)) = some s' ∧ r.call = c ∧
    (s'.thread t).replies = r :: (s.thread t).replies

theorem Ends.overWithin {a : Answer α} (h : u.Ends t c a u') (hs : u.step? t = some u') : u.OverWithin t c 1 :=
  ⟨1, Nat.le_refl 1, u', _, run?_cons_of_move? (m := .step t) hs, rfl, h.replies⟩

theorem OverWithin.step {n : Nat} (hs : u.step? t = some v) (hrep : (v.thread t).replies = (u.thread t).replies)
    (h : v.OverWithin t c n) : u.OverWithin t c (n + 1) := by
  obtain ⟨k, hk, s', r, hr, hcall, hreplies⟩ := h
  refine ⟨k + 1, Nat.succ_le_succ hk, s', r, ?_, hcall, hreplies.trans (by rw [hrep])⟩
  rw [List.replicate_succ, run?_cons_of_move? (m := .step t) hs]
  exact hr

theorem OverWithin.mono {n k : Nat} (h : u.OverWithin t c n) (hn : n ≤ k) : u.OverWithin t c k := by
  obtain ⟨j, hj, hrest⟩ := h
  exact ⟨j, Nat.le_trans hj hn, hrest⟩

section

variable (hc : u.Coherent log) (hcp : c.patience = .cancellable f d) (hf : u.flags.isRaised f = true)

include hc hcp hf

theorem Coherent.over_of_looking (hp : u.phase t = .looking c w) : u.OverWithin t c 1 := by
  obtain ⟨a, hends, -⟩ := hc.released_of_look hp hcp hf
  exact hends.overWithin (step?_looking hp)

theorem Coherent.over_of_resumed {ranOut : Bool} (hp : u.phase t = .resumed c w ranOut) : u.OverWithin t c 2 := by
  have hs := step?_resumed hp
  have hc' := hc.step (step_of_move? (m := .step t) hs)
  split at hs
  · exact ((ends_giveUp _).overWithin hs).mono (by decide)
  · rename_i hlapse
    rw [if_neg hlapse] at hc'
    exact .step hs (by simp) (hc'.over_of_looking hcp hf (by simp; rfl))

theorem Coherent.over_of_woken {ranOut : Bool} (hp : u.phase t = .woken c w ranOut) (hn : u.holder = none) :
    u.OverWithin t c 3 := by
  have hs : u.step? t = some ({ u with holder := some t }.become t (.resumed c w ranOut)) := by
    rw [step?_woken hp]
    exact (acquire_eq_some u t).mpr ⟨hn, rfl⟩
  have hc' := hc.step (step_of_move? (m := .step t) hs)
  exact .step hs (by simp) (hc'.over_of_resumed hcp hf (by simp; exact ⟨rfl, rfl⟩))

/-- A sleeper whose flag is up, and whose time runs out while the lock is free, needs three steps. -/
theorem Coherent.over_of_asleep {wake : Nat} (hp : u.phase t = .asleep c w (some wake)) (hwake : wake ≤ u.now)
    (hn : u.holder = none) :
    ∃ v, u.runOut? t = some v ∧ (v.thread t).replies = (u.thread t).replies ∧ v.OverWithin t c 3 := by
  have hm : u.runOut? t = some (u.become t (.woken c w true)) := by simp [runOut?, hp, hwake]
  have hc' := hc.step (step_of_move? (m := .runOut t) hm)
  exact ⟨_, hm, by simp, hc'.over_of_woken hcp hf (by simp; exact ⟨rfl, rfl⟩) hn⟩

theorem Coherent.over_of_entered {time : Option Duration} (hlimit : c.request.limit = .cancellable f time)
    (hp : u.phase t = .entered c) : u.OverWithin t c 2 := by
  obtain ⟨i, ht⟩ := Request.target?_of_cancellable hlimit u.settings.start
  have hs := step?_entered hp
  have hc' := hc.step (step_of_move? (m := .step t) hs)
  by_cases hrefused : c.request.guarded = true ∧ u.ring.evicted i = true
  · exact ((ends_of_refused hp ht hrefused.1 hrefused.2 hs).overWithin hs).mono (by decide)
  · rw [enter_looking ht hrefused] at hs hc'
    exact .step hs (by simp) (hc'.over_of_looking hcp hf (by simp; rfl))

theorem Coherent.over_of_ready {time : Option Duration} (hlimit : c.request.limit = .cancellable f time)
    (hp : u.phase t = .ready c) (hn : u.holder = none) : u.OverWithin t c 3 := by
  obtain ⟨i, ht⟩ := Request.target?_of_cancellable hlimit u.settings.start
  have hs := step?_ready hp (lockFree_of_target? ht) hn
  have hc' := hc.step (step_of_move? (m := .step t) hs)
  exact .step hs (by simp) (hc'.over_of_entered hcp hf hlimit (by simp))

/-- A call that has the lock or finds it free, and whose flag is up, is over with three steps. -/
theorem Coherent.over_of_awake {time : Option Duration} (hlimit : c.request.limit = .cancellable f time)
    (hp : (u.phase t).Awake c) (hn : u.holder = none ∨ u.holder = some t) : u.OverWithin t c 3 := by
  have free : (u.phase t).holds = false → u.holder = none := by
    intro hh
    refine hn.resolve_right fun e => ?_
    rw [(hc.locked t).mp e] at hh
    cases hh
  cases hphase : u.phase t with
  | ready c' =>
    rw [hphase] at hp free
    cases hp
    exact hc.over_of_ready hcp hf hlimit hphase (free rfl)
  | entered c' =>
    rw [hphase] at hp
    cases hp
    exact (hc.over_of_entered hcp hf hlimit hphase).mono (by decide)
  | looking c' w =>
    rw [hphase] at hp
    cases hp
    exact (hc.over_of_looking hcp hf hphase).mono (by decide)
  | woken c' w ranOut =>
    rw [hphase] at hp free
    cases hp
    exact hc.over_of_woken hcp hf hphase (free rfl)
  | resumed c' w ranOut =>
    rw [hphase] at hp
    cases hp
    exact (hc.over_of_resumed hcp hf hphase).mono (by decide)
  | _ => rw [hphase] at hp; cases hp

end

end System

end Chronicle
