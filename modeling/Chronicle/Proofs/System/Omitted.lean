/-
  Chronicle.Proofs.System.Omitted — a schedule as it were without some calls that look or mark.

  An omission `d` picks calls by their thread, by how many calls of the thread were over before
  them, and by their request; it picks none but calls that look or mark. A move belongs to one of
  them if it makes it or takes it further (`d.takes`), and `s.gather d.stays? moves` are the moves
  that belong to none.

  `d.Leaves s s₂`: the system `s₂` is what the omission leaves of `s`. Its series is the same, or,
  if calls that mark are omitted, the same but for the mark; a thread that makes an omitted call
  is idle; and of the replies those to omitted calls are not there (`d.rest`).

  A move that belongs to an omitted call changes nothing of this (`Leaves.taken`), and any other
  finds what it needs: the series up to the mark, the flags, the count of the readings, its own
  thread, and the lock free if it was free. So it does the same (`Leaves.step`).

  Proved: a schedule without the moves of the omitted calls can be followed as well, and ends in
  what the omission leaves (`Coherent.leaves_of_run`).
-/

import Mathlib.Data.List.Forall2
import Chronicle.Proofs.System.Looks

namespace Chronicle

variable {α : Type}

/-- The replies are the same, or, if `marks` holds, tell of two marks. -/
structure Reply.SameBut (marks : Prop) (r r₂ : Reply α) : Prop where
  call : r₂.call = r.call
  ended : r₂.ended = r.ended
  answer : r.call.request.SameBut marks r.answer r₂.answer

theorem Reply.SameBut.eq {marks : Prop} {r r₂ : Reply α} (h : r.SameBut marks r₂) (hm : ¬ marks) : r = r₂ := by
  obtain ⟨c, a, n⟩ := r
  obtain ⟨c₂, a₂, n₂⟩ := r₂
  obtain ⟨hc, hn, ha | ⟨hmarks, -⟩⟩ := h
  · cases hc
    cases hn
    cases ha
    rfl
  · exact absurd hmarks hm

namespace System

/-! ## Omissions -/

/-- Calls that look or mark, by thread, by the number of its calls that were over before, and by
    request. -/
structure Omission (α : Type) where
  omits : Nat → Nat → Request α → Bool
  harmless : ∀ t k q, omits t k q = true → q.looks = true ∨ ∃ i, q = .tag i

namespace Omission

/-- Whether a call that marks may be omitted. -/
def marks (d : Omission α) : Prop := ∃ t k i, d.omits t k (.tag i) = true

/-- The replies of a thread to calls that are not omitted. The older ones tell how many calls were over. -/
def rest (d : Omission α) (t : Nat) : List (Reply α) → List (Reply α)
  | [] => []
  | r :: older => if d.omits t older.length r.call.request then d.rest t older else r :: d.rest t older

/-- Whether the call that a thread makes is omitted. -/
def pending (d : Omission α) (t : Nat) (th : Thread α) : Bool :=
  th.phase.call?.any fun c => d.omits t th.replies.length c.request

/-- Whether a move belongs to a call that is omitted. -/
def takes (d : Omission α) (s : System α) : Move α → Bool
  | .call t q => d.omits t (s.thread t).replies.length q
  | .step t | .runOut t | .stir t => d.pending t (s.thread t)
  | .elapse _ => false

/-- The move, if it does not. -/
def stays? (d : Omission α) (s : System α) (m : Move α) : Option (Move α) := if d.takes s m then none else some m

/-- The second system is what the omission leaves of the first. -/
structure Leaves (d : Omission α) (s s₂ : System α) : Prop extends s.SameBut d.marks s₂ where
  now : s₂.now = s.now
  phase : ∀ t, s₂.phase t = if d.pending t (s.thread t) then .idle else s.phase t
  replies : ∀ t, List.Forall₂ (Reply.SameBut d.marks) (d.rest t (s.thread t).replies) (s₂.thread t).replies

end Omission

variable {d : Omission α} {s s' s₂ : System α} {t : Nat} {c : Call α} {p : Phase α} {m : Move α}
  {log : List (Sample α)} {moves : List (Move α)}

/-- Every step is a move. -/
theorem Step.move? (h : Step s m s') : s.move? m = some s' := by
  cases h with
  | call t q hp => simp [System.move?, call?, hp]
  | free t c hp hl => exact step?_free hp hl
  | enter t c hp hl hn => exact step?_ready hp hl hn
  | stamp t c v hp hq => exact (step?_entered hp).trans (by rw [System.enter, hq])
  | refuse t c i hp ht hg he => exact (step?_entered hp).trans (by rw [enter_refused ht hg he])
  | begin t c i hp ht hg => exact (step?_entered hp).trans (by rw [enter_looking ht hg])
  | perform t c hp hne ht =>
    refine (step?_entered hp).trans ?_
    unfold System.enter
    split
    · exact absurd ‹_› (hne _)
    · rw [ht]
  | push t c x r i d hp he | overflow t c x p r hp he => simp [System.move?, step?, hp, he]
  | unlock t c i hp => exact step?_pushed hp
  | notify t c i hp => exact step?_unlocked hp
  | serve t c w a hp hn he | lapped t c w e hp hn he =>
    exact (step?_looking hp).trans (by simp [look, Waiter.look, hn, he])
  | cancel t c w f d hp hn hw hf => exact (step?_looking hp).trans (by rw [look_cancelled hn hw hf])
  | plan t c w f d hp hn hw hf => exact (step?_looking hp).trans (by rw [look_plans hn hw hf])
  | sleep t c w hp hn hw => exact (step?_looking hp).trans (by rw [look_sleeps hn hw])
  | slice t c w hp => exact step?_planning hp
  | relock t c w ranOut hp hn => exact (step?_woken hp).trans ((acquire_eq_some s t).mpr ⟨hn, rfl⟩)
  | expire t c w hp he hn => exact (step?_resumed hp).trans (by rw [if_pos ⟨rfl, he, hn⟩])
  | again t c w ranOut hp hl => exact (step?_resumed hp).trans (by rw [if_neg hl])
  | runOut t c w wake hp hle => simp [System.move?, runOut?, hp, hle]
  | stir t c w wake hp => simp [System.move?, stir?, hp]
  | elapse time => rfl

namespace Omission

/-! ## Calls under way -/

theorem pending_of_call? (d : Omission α) (hp : (s.phase t).call? = some c) :
    d.pending t (s.thread t) = d.omits t (s.thread t).replies.length c.request := by
  unfold pending
  rw [show (s.thread t).phase.call? = some c from hp]
  rfl

theorem pending_eq {th th' : Thread α} (hc : th'.phase.call? = th.phase.call?) (hr : th'.replies = th.replies) :
    d.pending t th' = d.pending t th := by
  unfold pending
  rw [hc, hr]

/-! ## A move of a call that is omitted -/

/-- The request of a move that belongs to an omitted call. -/
theorem request_of_takes (h : d.takes s m = true) :
    ∃ t q, m.mover? = some t ∧ s.request? m = some q ∧ d.omits t (s.thread t).replies.length q = true := by
  cases m with
  | elapse time => cases h
  | call t q => exact ⟨t, q, rfl, rfl, h⟩
  | step t | runOut t | stir t =>
    obtain ⟨c, hc, ho⟩ := (Option.any_eq_true ..).mp h
    exact ⟨t, c.request, rfl, congrArg (Option.map _) hc, ho⟩

/-- Of an omitted call nothing is left in its thread, neither while it is made nor when it is over. -/
theorem taken_own (hs : Step s m s') (hm : m.mover? = some t) (h : d.takes s m = true) :
    (d.pending t (s.thread t) = true ∨ s.phase t = .idle) ∧ (d.pending t (s'.thread t) = true ∨ s'.phase t = .idle) ∧
      d.rest t (s'.thread t).replies = d.rest t (s.thread t).replies := by
  cases m with
  | elapse time => cases hm
  | call u q =>
    cases hm
    cases hs with
    | call _ _ hp =>
      refine ⟨Or.inr hp, Or.inl ?_, by rw [thread_become, if_pos rfl]⟩
      rw [thread_become, if_pos rfl]
      exact h
  | step u | runOut u | stir u =>
    cases hm
    refine ⟨Or.inl h, ?_⟩
    rcases hs.call_cases t with ⟨hc, hr⟩ | ⟨q, hq, -⟩ | ⟨c, a, -, hc, hi, hr⟩
    · exact ⟨Or.inl ((pending_eq hc hr).trans h), by rw [hr]⟩
    · cases hq
    · refine ⟨Or.inr hi, ?_⟩
      have ho : d.omits t (s.thread t).replies.length c.request = true := (pending_of_call? d hc).symm.trans h
      rw [hr]
      exact if_pos ho

/-- A move of an omitted call changes nothing of what the omission leaves. -/
theorem Leaves.taken (h : d.Leaves s s₂) (hc : s.Coherent log) (hs : Step s m s') (hm : d.takes s m = true) :
    d.Leaves s' s₂ := by
  obtain ⟨t, q, hmover, hq, ho⟩ := request_of_takes hm
  obtain ⟨hu, hring⟩ := hc.untouched_but_mark hs hmover hq (d.harmless _ _ _ ho)
  obtain ⟨hbefore, hafter, hrest⟩ := taken_own hs hmover hm
  have hidle : s₂.phase t = .idle := by
    rw [h.phase]
    rcases hbefore with hp | hp
    · rw [if_pos hp]
    · rw [hp, ite_self]
  refine ⟨⟨h.settings.trans hu.settings.symm, h.clock.trans hu.clock.symm, ?_, h.readings.trans hu.readings.symm,
    h.flags.trans hu.flags.symm⟩, h.now.trans hu.now.symm, ?_, ?_⟩
  · rcases hring with hring | ⟨i, rfl, hring⟩
    · rw [hring]
      exact h.ring
    · rw [hring]
      exact h.ring.of_tag ⟨t, _, i, ho⟩ i
  · intro u
    by_cases e : u = t
    · subst e
      rw [hidle]
      rcases hafter with hp | hp
      · rw [if_pos hp]
      · rw [hp, ite_self]
    · have hphase : s'.phase u = s.phase u := congrArg Thread.phase (hu.others u e)
      have hthread : s'.thread u = s.thread u := hu.others u e
      rw [hphase, hthread]
      exact h.phase u
  · intro u
    by_cases e : u = t
    · subst e
      rw [hrest]
      exact h.replies u
    · rw [hu.others u e]
      exact h.replies u

/-! ## Any other move -/

section

variable (h : d.Leaves s s₂)

include h

/-- A thread that makes no omitted call is as it is. -/
theorem Leaves.kept (hm : d.pending t (s.thread t) = false) (hp : s.phase t = p) (hc : p.call? = some c) :
    s₂.phase t = p ∧ d.omits t (s.thread t).replies.length c.request = false := by
  refine ⟨?_, ?_⟩
  · rw [h.phase, hm]
    exact hp
  · rw [← pending_of_call? d (hp ▸ hc)]
    exact hm

theorem Leaves.become (hp : p.call? = some c) (hk : d.omits t (s.thread t).replies.length c.request = false) :
    d.Leaves (s.become t p) (s₂.become t p) := by
  refine ⟨⟨h.settings, h.clock, h.ring, h.readings, h.flags⟩, h.now, ?_, ?_⟩
  · intro u
    rw [phase_become, phase_become, thread_become]
    by_cases e : t = u
    · subst e
      have hpending : d.pending t { s.thread t with phase := p } = false := by
        unfold pending
        rw [hp]
        exact hk
      rw [if_pos rfl, if_pos rfl, if_pos rfl, hpending]
      rfl
    · rw [if_neg e, if_neg e, if_neg e]
      exact h.phase u
  · intro u
    rw [thread_become, thread_become]
    by_cases e : t = u
    · subst e
      rw [if_pos rfl, if_pos rfl]
      exact h.replies t
    · rw [if_neg e, if_neg e]
      exact h.replies u

theorem Leaves.reply {a a₂ : Answer α} (hk : d.omits t (s.thread t).replies.length c.request = false)
    (ha : c.request.SameBut d.marks a a₂) (e e₂ : Option Event) : d.Leaves (s.reply t c a e) (s₂.reply t c a₂ e₂) := by
  refine ⟨⟨h.settings, h.clock, h.ring, h.readings, h.flags⟩, h.now, ?_, ?_⟩
  · intro u
    rw [phase_reply, phase_reply]
    by_cases e : t = u
    · rw [if_pos e, if_pos e, ite_self]
    · rw [if_neg e, if_neg e, thread_reply, if_neg e]
      exact h.phase u
  · intro u
    rw [thread_reply, thread_reply]
    by_cases e : t = u
    · subst e
      rw [if_pos rfl, if_pos rfl]
      show List.Forall₂ _ (if d.omits t _ c.request then _ else _) _
      rw [hk, h.now]
      exact .cons ⟨rfl, rfl, ha⟩ (h.replies t)
    · rw [if_neg e, if_neg e]
      exact h.replies u

theorem Leaves.notifyAll : d.Leaves s.notifyAll s₂.notifyAll := by
  refine ⟨⟨h.settings, h.clock, h.ring, h.readings, h.flags⟩, h.now, ?_, ?_⟩
  · intro u
    have hpending : d.pending u (s.notifyAll.thread u) = d.pending u (s.thread u) := by
      rw [thread_notifyAll]
      exact pending_eq (Phase.call?_notified _) rfl
    rw [phase_notifyAll, phase_notifyAll, h.phase, hpending]
    split <;> rfl
  · intro u
    rw [thread_notifyAll, thread_notifyAll]
    exact h.replies u

theorem Leaves.setHolder (x y : Option Nat) : d.Leaves { s with holder := x } { s₂ with holder := y } :=
  ⟨⟨h.settings, h.clock, h.ring, h.readings, h.flags⟩, h.now, h.phase, h.replies⟩

theorem Leaves.setFlags (f : Flags) : d.Leaves { s with flags := f } { s₂ with flags := f } :=
  ⟨⟨h.settings, h.clock, h.ring, h.readings, rfl⟩, h.now, h.phase, h.replies⟩

theorem Leaves.setReadings (n : Nat) : d.Leaves { s with readings := n } { s₂ with readings := n } :=
  ⟨⟨h.settings, h.clock, h.ring, rfl, h.flags⟩, h.now, h.phase, h.replies⟩

theorem Leaves.setRing {r r₂ : Ring (Sample α)} (hr : r.SameBut d.marks r₂) :
    d.Leaves { s with ring := r } { s₂ with ring := r₂ } :=
  ⟨⟨h.settings, h.clock, hr, h.readings, h.flags⟩, h.now, h.phase, h.replies⟩

theorem Leaves.elapse (time : Nat) : d.Leaves (s.elapse time) (s₂.elapse time) :=
  ⟨⟨h.settings, h.clock, h.ring, h.readings, h.flags⟩, congrArg (· + time) h.now, h.phase, h.replies⟩

theorem Leaves.release : d.Leaves s.release s₂.release := h.setHolder none none

theorem Leaves.giveUp (hk : d.omits t (s.thread t).replies.length c.request = false) (e : ReadFault) :
    d.Leaves (s.giveUp t c e) (s₂.giveUp t c e) :=
  h.release.reply hk (Or.inl rfl) _ _

/-- A move of a call that is not omitted can be made in what the omission leaves, and does the same. -/
theorem Leaves.step (hfree : s.holder = none → s₂.holder = none) (hm : d.takes s m = false) (hs : Step s m s') :
    ∃ s₂', Step s₂ m s₂' ∧ d.Leaves s' s₂' := by
  cases hs with
  | elapse time => exact ⟨_, .elapse time, h.elapse time⟩
  | call t q hp =>
    have hp₂ : s₂.phase t = .idle := by rw [h.phase, hp, ite_self]
    refine ⟨_, .call t q hp₂, ?_⟩
    rw [h.now]
    exact h.become rfl hm
  | free t c hp hl =>
    obtain ⟨hp₂, hk⟩ := h.kept hm hp rfl
    refine ⟨_, .free t c hp₂ hl, ?_⟩
    rw [h.answerFree]
    exact (h.setFlags (s.answerFree c.request).1).reply hk (Or.inl rfl) none none
  | enter t c hp hl hn =>
    obtain ⟨hp₂, hk⟩ := h.kept hm hp rfl
    exact ⟨_, .enter t c hp₂ hl (hfree hn), (h.setHolder _ _).become rfl hk⟩
  | stamp t c v hp hq =>
    obtain ⟨hp₂, hk⟩ := h.kept hm hp rfl
    have hstamp : s₂.clock s₂.readings s₂.now = s.clock s.readings s.now := by rw [h.clock, h.readings, h.now]
    refine ⟨_, .stamp t c v hp₂ hq, ?_⟩
    rw [hstamp, h.readings]
    exact (h.setReadings (s.readings + 1)).become rfl hk
  | refuse t c i hp ht hg he =>
    obtain ⟨hp₂, hk⟩ := h.kept hm hp rfl
    refine ⟨_, .refuse t c i hp₂ (h.settings ▸ ht) hg ((h.ring.evicted i).trans he), ?_⟩
    rw [h.ring.oldest]
    exact h.giveUp hk _
  | begin t c i hp ht hg =>
    obtain ⟨hp₂, hk⟩ := h.kept hm hp rfl
    refine ⟨_, .begin t c i hp₂ (h.settings ▸ ht) (by rw [h.ring.evicted]; exact hg), ?_⟩
    rw [h.now]
    exact h.become rfl hk
  | perform t c hp hne ht =>
    obtain ⟨hp₂, hk⟩ := h.kept hm hp rfl
    obtain ⟨hring, ha⟩ := h.ring.perform s.settings.start c.request
    have hstart : s₂.settings.start = s.settings.start := congrArg Settings.start h.settings
    refine ⟨_, .perform t c hp₂ hne (h.settings ▸ ht), ?_⟩
    rw [hstart]
    exact (h.setRing hring).release.reply hk ha none none
  | push t c x r i dropped hp he =>
    obtain ⟨hp₂, hk⟩ := h.kept hm hp rfl
    obtain ⟨r₂, he₂, hring⟩ := h.ring.push he
    exact ⟨_, .push t c x r₂ i dropped hp₂ he₂, (h.setRing hring).become rfl hk⟩
  | overflow t c x e r hp he =>
    obtain ⟨hp₂, hk⟩ := h.kept hm hp rfl
    obtain ⟨r₂, he₂, hring⟩ := h.ring.push_error he
    exact ⟨_, .overflow t c x e r₂ hp₂ he₂, (h.setRing hring).release.reply hk (Or.inl rfl) none none⟩
  | unlock t c i hp =>
    obtain ⟨hp₂, hk⟩ := h.kept hm hp rfl
    exact ⟨_, .unlock t c i hp₂, h.release.become rfl hk⟩
  | notify t c i hp =>
    obtain ⟨hp₂, hk⟩ := h.kept hm hp rfl
    refine ⟨_, .notify t c i hp₂, h.notifyAll.reply ?_ (Or.inl rfl) none none⟩
    rw [thread_notifyAll]
    exact hk
  | serve t c w a hp hn he =>
    obtain ⟨hp₂, hk⟩ := h.kept hm hp rfl
    exact ⟨_, .serve t c w a hp₂ (h.ring.newest ▸ hn) ((h.ring.serve _).trans he),
      h.release.reply hk (Or.inl rfl) none none⟩
  | lapped t c w e hp hn he =>
    obtain ⟨hp₂, hk⟩ := h.kept hm hp rfl
    exact ⟨_, .lapped t c w e hp₂ (h.ring.newest ▸ hn) ((h.ring.serve _).trans he), h.giveUp hk e⟩
  | cancel t c w f deadline hp hn hw hf =>
    obtain ⟨hp₂, hk⟩ := h.kept hm hp rfl
    exact ⟨_, .cancel t c w f deadline hp₂ (h.ring.newest ▸ hn) hw (h.flags ▸ hf), h.giveUp hk _⟩
  | plan t c w f deadline hp hn hw hf =>
    obtain ⟨hp₂, hk⟩ := h.kept hm hp rfl
    exact ⟨_, .plan t c w f deadline hp₂ (h.ring.newest ▸ hn) hw (h.flags ▸ hf), h.become rfl hk⟩
  | sleep t c w hp hn hw =>
    obtain ⟨hp₂, hk⟩ := h.kept hm hp rfl
    refine ⟨_, .sleep t c w hp₂ (h.ring.newest ▸ hn) hw, ?_⟩
    rw [h.settings, h.now]
    exact h.release.become rfl hk
  | slice t c w hp =>
    obtain ⟨hp₂, hk⟩ := h.kept hm hp rfl
    refine ⟨_, .slice t c w hp₂, ?_⟩
    rw [h.settings, h.now]
    exact h.release.become rfl hk
  | relock t c w ranOut hp hn =>
    obtain ⟨hp₂, hk⟩ := h.kept hm hp rfl
    exact ⟨_, .relock t c w ranOut hp₂ (hfree hn), (h.setHolder _ _).become rfl hk⟩
  | expire t c w hp he hn =>
    obtain ⟨hp₂, hk⟩ := h.kept hm hp rfl
    refine ⟨_, .expire t c w hp₂ (h.now ▸ he) (h.ring.newest ▸ hn), ?_⟩
    rw [h.now]
    exact h.giveUp hk _
  | again t c w ranOut hp hl =>
    obtain ⟨hp₂, hk⟩ := h.kept hm hp rfl
    exact ⟨_, .again t c w ranOut hp₂ (by rw [h.now, h.ring.newest]; exact hl), h.become rfl hk⟩
  | runOut t c w wake hp hle =>
    obtain ⟨hp₂, hk⟩ := h.kept hm hp rfl
    exact ⟨_, .runOut t c w wake hp₂ (h.now ▸ hle), h.become rfl hk⟩
  | stir t c w wake hp =>
    obtain ⟨hp₂, hk⟩ := h.kept hm hp rfl
    exact ⟨_, .stir t c w wake hp₂, h.become rfl hk⟩

/-- Without the omitted calls, the lock is free if it was free. -/
theorem Leaves.free (hl : s.Locked) (hl₂ : s₂.Locked) (hn : s.holder = none) : s₂.holder = none := by
  cases hh : s₂.holder with
  | none => rfl
  | some t =>
    have hholds := (hl₂ t).mp hh
    rw [h.phase] at hholds
    by_cases hp : d.pending t (s.thread t) = true
    · rw [if_pos hp] at hholds
      cases hholds
    · rw [if_neg hp] at hholds
      rw [(hl t).mpr hholds] at hn
      cases hn

end

/-! ## Schedules -/

/-- Of a system that nobody has called, an omission leaves all. -/
theorem leaves_self (d : Omission α) (h : ∀ t, s.thread t = {}) : d.Leaves s s := by
  refine ⟨.refl d.marks s, rfl, ?_, ?_⟩
  · intro t
    rw [phase, h, ite_self]
  · intro t
    rw [h]
    exact .nil

/-- A schedule without the moves of the omitted calls can be followed as well, and leaves what the
    omission leaves. -/
theorem leaves_of_run (d : Omission α) (hi : ∀ t, s.thread t = {}) (hc : s.Coherent log) (hr : s.run? moves = some s') :
    ∃ s₂, s.run? (s.gather d.stays? moves) = some s₂ ∧ d.Leaves s' s₂ := by
  refine Exists.imp (fun _ h => ⟨h.1, h.2.1⟩) (run_prefix_induction (I := fun l v =>
    ∃ v₂, s.run? (s.gather d.stays? l) = some v₂ ∧ d.Leaves v v₂ ∧ v₂.Locked) ⟨s, rfl, leaves_self d hi, hc.locked⟩ ?_ hr)
  rintro before v m v' - hb hm ⟨v₂, hrun, h, hl₂⟩
  have hv := hc.of_run hb
  have hs := step_of_move? hm
  rw [gather_concat hb hm]
  cases htaken : d.takes v m with
  | true =>
    refine ⟨v₂, ?_, h.taken hv hs htaken, hl₂⟩
    simpa [stays?, htaken] using hrun
  | false =>
    obtain ⟨v₂', hs₂, h'⟩ := h.step (h.free hv.locked hl₂) htaken hs
    refine ⟨v₂', ?_, h', hs₂.locked hl₂⟩
    rw [run?_append_of_run? hrun]
    simp [stays?, htaken, run?_cons_of_move? hs₂.move?]

end Omission

end System

end Chronicle
