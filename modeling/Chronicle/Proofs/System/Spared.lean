/-
  Chronicle.Proofs.System.Spared — a system as it were without the appends that get no index.

  At the greatest index there is no next one: an append that has not pushed by then will not
  push (`Phase.vain`), and its reply says that it failed (`Reply.vain`). `s.spared` is `s`
  without such appends: their threads are idle, and have the lock no more. A move belongs to
  one of them if it calls it or takes it further (`toils`).

  Such a move changes nothing but the lock, the count of the readings, and what the spared
  system leaves out of its thread (`Futile`); it neither touches the series nor wakes
  anybody. Every other move does the same with and without them: it finds the series, the
  flags and its own thread as they are, and the lock free if it was free (`Spares.move?`).

  Proved: deleting the moves of these appends from a schedule leads to the same end, but for
  the readings (`Coherent.spares_of_run`).
-/

import Chronicle.Proofs.System.Admissions
import Chronicle.Proofs.System.Wait

namespace Chronicle

variable {α : Type}

/-- An append that has not pushed. -/
def Phase.vain : Phase α → Bool
  | .ready c | .entered c | .stamped c _ => c.request.append?.isSome
  | _ => false

/-- An append that failed. -/
def Reply.vain (r : Reply α) : Bool := r.call.request.append?.isSome && r.answer.isFailure

/-- The phase, where an append that has not pushed is none. -/
def Phase.spared (p : Phase α) : Phase α := if p.vain then .idle else p

/-- The thread without its appends that got no index. -/
def Thread.spared (th : Thread α) : Thread α :=
  ⟨th.phase.spared, th.replies.filter fun r => !r.vain, th.trace⟩

theorem Phase.spared_of_vain {p : Phase α} (h : p.vain = true) : p.spared = .idle := by simp [spared, h]

theorem Phase.spared_eq {p : Phase α} (h : p.vain = false) : p.spared = p := by simp [spared, h]

theorem Phase.holds_spared (p : Phase α) : p.spared.holds = (p.holds && !p.vain) := by
  cases h : p.vain with
  | true =>
    rw [spared_of_vain h]
    simp [holds]
  | false =>
    rw [spared_eq h]
    simp

theorem Phase.spared_notified (p : Phase α) : p.notified.spared = p.spared.notified := by
  cases p with
  | ready c | entered c | stamped c x => by_cases hc : c.request.append?.isSome <;> simp [notified, spared, vain, hc]
  | _ => rfl

theorem Reply.vain_of_append? {r : Reply α} (h : r.call.request.append? = none) : r.vain = false := by simp [vain, h]

namespace System

/-- The system without the appends that got no index. -/
def spared (s : System α) : System α :=
  { s with
    holder := s.holder.filter fun t => !(s.phase t).vain
    threads := s.threads.map fun _ th => th.spared }

/-- A move of an append that has not pushed. -/
def toils (s : System α) : Move α → Bool
  | .call _ q => q.append?.isSome
  | .step t => (s.phase t).vain
  | _ => false

/-- The move, if it is not one of these. -/
def spared? (s : System α) (m : Move α) : Option (Move α) := if s.toils m then none else some m

/-- The second system is the first without the appends that got no index, whoever has the lock and
    however often the clock was read. -/
structure Spares (s s₂ : System α) : Prop where
  settings : s₂.settings = s.settings
  clock : s₂.clock = s.clock
  ring : s₂.ring = s.ring
  flags : s₂.flags = s.flags
  now : s₂.now = s.now
  threads : ∀ t, s₂.thread t = (s.thread t).spared

/-- Nothing was changed but the lock, the count of the readings, and the appends of the thread `t`
    that get no index. -/
structure Futile (s : System α) (t : Nat) (s' : System α) : Prop where
  settings : s'.settings = s.settings
  clock : s'.clock = s.clock
  ring : s'.ring = s.ring
  flags : s'.flags = s.flags
  now : s'.now = s.now
  others : ∀ u, u ≠ t → s'.thread u = s.thread u
  own : (s'.thread t).spared = (s.thread t).spared

variable {s s' s₂ s₂' : System α} {t : Nat} {m : Move α} {log : List (Sample α)} {moves : List (Move α)}

theorem thread_spared (s : System α) (t : Nat) : s.spared.thread t = (s.thread t).spared := by
  simp only [thread, spared, Std.TreeMap.getD_eq_getD_getElem?, Std.TreeMap.getElem?_map]
  cases s.threads[t]? <;> rfl

theorem spares_spared (s : System α) : s.Spares s.spared := ⟨rfl, rfl, rfl, rfl, rfl, thread_spared s⟩

theorem Spares.phase (h : s.Spares s₂) (t : Nat) : s₂.phase t = (s.phase t).spared := by
  rw [System.phase, h.threads]
  rfl

theorem Spares.phase_eq (h : s.Spares s₂) (ht : (s.phase t).vain = false) : s₂.phase t = s.phase t := by
  rw [h.phase, Phase.spared_eq ht]

/-! ## The lock -/

theorem locked_spared (h : s.Locked) : s.spared.Locked := by
  intro t
  rw [(spares_spared s).phase, Phase.holds_spared, Bool.and_eq_true, Bool.not_eq_true', ← h t]
  simp [spared, Option.filter_eq_some_iff]

/-- Without the appends that got no index, the lock is free or with the same thread. -/
theorem Spares.holder (h : s.Spares s₂) (hl : s.Locked) (hl₂ : s₂.Locked) :
    s₂.holder = s.holder.filter fun t => !(s.phase t).vain := by
  apply Option.ext
  intro t
  rw [hl₂ t, h.phase, Phase.holds_spared, Bool.and_eq_true, ← hl t, Option.filter_eq_some_iff]

theorem Spares.free (h : s.Spares s₂) (hl : s.Locked) (hl₂ : s₂.Locked) (hn : s.holder = none) : s₂.holder = none := by
  rw [h.holder hl hl₂, hn]
  rfl

/-! ## A move of an append that gets no index -/

theorem Spares.futile (h : s.Spares s₂) (hf : s.Futile t s') : s'.Spares s₂ := by
  refine ⟨h.settings.trans hf.settings.symm, h.clock.trans hf.clock.symm, h.ring.trans hf.ring.symm,
    h.flags.trans hf.flags.symm, h.now.trans hf.now.symm, ?_⟩
  intro u
  rw [h.threads]
  by_cases e : u = t
  · rw [e, hf.own]
  · rw [hf.others u e]

theorem futile_of_untouched (h : s.Untouched t s') (hown : (s'.thread t).spared = (s.thread t).spared) :
    s.Futile t s' :=
  ⟨h.settings, h.clock, h.ring, h.flags, h.now, h.others, hown⟩

/-- An append that goes on from one of these phases to another. -/
theorem spared_become {p : Phase α} (hp : (s.phase t).spared = .idle) (hv : p.vain = true) :
    ((s.become t p).thread t).spared = (s.thread t).spared := by
  rw [thread_become, if_pos rfl]
  show Thread.mk p.spared _ _ = Thread.mk (s.phase t).spared _ _
  rw [Phase.spared_of_vain hv, hp]

/-- At the greatest index, whatever an append does that has not pushed is futile. -/
theorem Step.futile (h : Step s m s') (hlast : s.ring.newest = Index.greatest) (hm : s.toils m = true) :
    ∃ t, m.mover? = some t ∧ s.Futile t s' := by
  have nothing : ∀ {c : Call α}, c.request.append?.isSome = true → c.request.append? = none → False := by
    intro c hsome hnone
    rw [hnone] at hsome
    cases hsome
  cases h with
  | elapse time | runOut t | stir t => cases hm
  | call t q hp =>
    refine ⟨t, rfl, futile_of_untouched (untouched_become _) (spared_become ?_ hm)⟩
    rw [hp]
    rfl
  | enter t c hp =>
    simp only [toils, hp] at hm
    refine ⟨t, rfl, futile_of_untouched ((untouched_setHolder _).trans (untouched_become _)) ?_⟩
    refine spared_become (s := { s with holder := some t }) ?_ hm
    rw [phase_setHolder, hp, Phase.spared_of_vain hm]
  | stamp t c v hp hq =>
    simp only [toils, hp] at hm
    refine ⟨t, rfl, rfl, rfl, rfl, rfl, rfl, ?_, ?_⟩
    · intro u hu
      rw [thread_become, if_neg (Ne.symm hu), thread_setReadings]
    · refine spared_become (s := { s with readings := s.readings + 1 }) ?_ hm
      rw [phase_setReadings, hp, Phase.spared_of_vain hm]
  | overflow t c x p r hp he =>
    rw [Ring.Window.push_eq_error hlast] at he
    cases he
    simp only [toils, hp] at hm
    refine ⟨t, rfl, futile_of_untouched (untouched_reply _ _ _) ?_⟩
    have hphase : (s.phase t).spared = .idle := by rw [hp, Phase.spared_of_vain hm]
    have hvain : Reply.vain ⟨c, .panicked .addOverflow, s.now⟩ = true := by
      replace hm : c.request.append?.isSome = true := hm
      simp [Reply.vain, hm, Answer.isFailure]
    rw [thread_reply, if_pos rfl]
    show Thread.mk _ (List.filter _ (⟨c, .panicked .addOverflow, s.now⟩ :: (s.thread t).replies)) _ =
      Thread.mk (s.phase t).spared _ _
    rw [List.filter_cons_of_neg (by rw [hvain]; exact Bool.false_ne_true), hphase]
    rfl
  | push t c x r i d hp he =>
    rw [Ring.Window.push_eq_error hlast] at he
    cases he
  | free t c hp hl =>
    simp only [toils, hp] at hm
    exact (nothing hm (append?_of_lockFree hl)).elim
  | refuse t c i hp ht | begin t c i hp ht =>
    simp only [toils, hp] at hm
    exact (nothing hm (append?_of_target? ht)).elim
  | perform t c hp hne =>
    simp only [toils, hp] at hm
    exact (nothing hm (append?_of_ne hne)).elim
  | unlock t c i hp | notify t c i hp | serve t c w a hp | lapped t c w e hp | cancel t c w f d hp | plan t c w f d hp
  | sleep t c w hp | slice t c w hp | relock t c w r hp | expire t c w hp | again t c w r hp =>
    simp only [toils, hp] at hm
    cases hm

/-! ## Any other move -/

section

variable (h : s.Spares s₂)

include h

theorem Spares.become {p : Phase α} (hp : p.vain = false) : (s.become t p).Spares (s₂.become t p) := by
  refine ⟨h.settings, h.clock, h.ring, h.flags, h.now, ?_⟩
  intro u
  simp only [thread_become]
  split
  · rw [h.threads]
    show Thread.mk p _ _ = Thread.mk p.spared _ _
    rw [Phase.spared_eq hp]
    rfl
  · exact h.threads u

theorem Spares.reply {c : Call α} {a : Answer α} (hv : Reply.vain ⟨c, a, s.now⟩ = false) (e : Option Event) :
    (s.reply t c a e).Spares (s₂.reply t c a e) := by
  refine ⟨h.settings, h.clock, h.ring, h.flags, h.now, ?_⟩
  intro u
  simp only [thread_reply]
  split
  · rw [h.threads, h.now]
    show _ = Thread.mk _ (List.filter _ (⟨c, a, s.now⟩ :: (s.thread t).replies)) _
    rw [List.filter_cons_of_pos (by rw [hv]; rfl)]
    rfl
  · exact h.threads u

theorem Spares.notifyAll : s.notifyAll.Spares s₂.notifyAll := by
  refine ⟨h.settings, h.clock, h.ring, h.flags, h.now, ?_⟩
  intro u
  simp only [thread_notifyAll, h.threads]
  show Thread.mk (s.phase u).spared.notified _ _ = Thread.mk (s.phase u).notified.spared _ _
  rw [Phase.spared_notified]
  rfl

theorem Spares.setHolder (x y : Option Nat) : { s with holder := x }.Spares { s₂ with holder := y } :=
  ⟨h.settings, h.clock, h.ring, h.flags, h.now, h.threads⟩

theorem Spares.setFlags (f : Flags) : { s with flags := f }.Spares { s₂ with flags := f } :=
  ⟨h.settings, h.clock, h.ring, rfl, h.now, h.threads⟩

theorem Spares.elapse (time : Nat) : (s.elapse time).Spares (s₂.elapse time) :=
  ⟨h.settings, h.clock, h.ring, h.flags, congrArg (· + time) h.now, h.threads⟩

theorem Spares.release : s.release.Spares s₂.release := h.setHolder none none

theorem Spares.giveUp {c : Call α} (hc : c.request.append? = none) (e : ReadFault) :
    (s.giveUp t c e).Spares (s₂.giveUp t c e) :=
  h.release.reply (Reply.vain_of_append? hc) _

theorem Spares.acquire {p : Phase α} (hp : p.vain = false) (hfree : s.holder = none → s₂.holder = none)
    (ha : s.acquire t p = some s') : ∃ s₂', s₂.acquire t p = some s₂' ∧ s'.Spares s₂' := by
  obtain ⟨hn, rfl⟩ := (acquire_eq_some s t).mp ha
  exact ⟨_, (acquire_eq_some s₂ t).mpr ⟨hfree hn, rfl⟩, (h.setHolder _ _).become hp⟩

theorem Spares.answerFree (q : Request α) : s₂.answerFree q = s.answerFree q := by
  cases q <;> simp only [System.answerFree, h.settings, h.flags]

theorem Spares.enter {c : Call α} (hc : c.request.append? = none) : (s.enter t c).Spares (s₂.enter t c) := by
  unfold System.enter
  rw [h.settings, h.ring, h.now]
  split
  · rename_i v hq
    rw [hq] at hc
    cases hc
  · split
    · split
      · exact h.giveUp hc _
      · exact h.become rfl
    · refine Spares.reply ?_ (Reply.vain_of_append? hc) none
      exact ⟨rfl, h.clock, rfl, h.flags, rfl, h.threads⟩

theorem Spares.look {c : Call α} (hc : c.request.append? = none) (w : Waiter) :
    (s.look t c w).Spares (s₂.look t c w) := by
  unfold System.look
  rw [h.ring, h.flags]
  split
  · split
    · exact h.release.reply (Reply.vain_of_append? hc) none
    · exact h.giveUp hc _
  · exact h.giveUp hc _
  · exact h.become rfl
  · exact h.release.become rfl

theorem Spares.step? (hc : s.Coherent log) (hfree : s.holder = none → s₂.holder = none)
    (hv : (s.phase t).vain = false) (hs : s.step? t = some s') : ∃ s₂', s₂.step? t = some s₂' ∧ s'.Spares s₂' := by
  have hf := hc.fits t
  have hphase := h.phase_eq hv
  unfold System.step? at hs ⊢
  rw [hphase]
  cases hp : s.phase t with
  | idle | asleep c w wake =>
    rw [hp] at hs
    cases hs
  | ready c =>
    rw [hp] at hs hv
    replace hv : c.request.append? = none := Option.isNone_iff_eq_none.mp (Option.isSome_eq_false_iff.mp hv)
    dsimp only at hs ⊢
    split at hs
    · rename_i hl
      cases hs
      rw [if_pos hl, h.answerFree]
      exact ⟨_, rfl, (h.setFlags _).reply (Reply.vain_of_append? hv) none⟩
    · rename_i hl
      rw [if_neg hl]
      exact h.acquire (by simp [Phase.vain, hv]) hfree hs
  | entered c =>
    rw [hp] at hs hv
    cases hs
    exact ⟨_, rfl, h.enter (Option.isNone_iff_eq_none.mp (Option.isSome_eq_false_iff.mp hv))⟩
  | stamped c x =>
    -- a sample that has its stamp is to be appended
    rw [hp] at hv hf
    simp [Phase.vain, hf.2, Request.append?] at hv
  | pushed c i =>
    rw [hp] at hs
    cases hs
    exact ⟨_, rfl, h.release.become rfl⟩
  | unlocked c i =>
    rw [hp] at hs
    cases hs
    exact ⟨_, rfl, h.notifyAll.reply (by simp [Reply.vain, Answer.isFailure]) none⟩
  | looking c w =>
    rw [hp] at hs hf
    cases hs
    exact ⟨_, rfl, h.look (append?_of_target? hf.target) w⟩
  | planning c w =>
    rw [hp] at hs
    cases hs
    rw [h.settings, h.now]
    exact ⟨_, rfl, h.release.become rfl⟩
  | woken c w ranOut =>
    rw [hp] at hs
    exact h.acquire rfl hfree hs
  | resumed c w ranOut =>
    rw [hp] at hs hf
    dsimp only at hs ⊢
    rw [h.ring, h.now]
    cases hlapse : w.lapse? s.ring.newest ranOut s.now with
    | some e =>
      rw [hlapse] at hs
      cases hs
      exact ⟨_, rfl, h.giveUp (append?_of_target? hf.1.target) e⟩
    | none =>
      rw [hlapse] at hs
      cases hs
      exact ⟨_, rfl, h.become rfl⟩

/-- A move of anything else can be made without these appends as well, and does the same. -/
theorem Spares.move? (hc : s.Coherent log) (hl₂ : s₂.Locked) (hv : s.toils m = false) (hm : s.move? m = some s') :
    ∃ s₂', s₂.move? m = some s₂' ∧ s'.Spares s₂' := by
  have hasleep : ∀ {t c w wake}, s.phase t = .asleep c w wake → s₂.phase t = .asleep c w wake := by
    intro t c w wake hp
    rw [h.phase, hp]
    rfl
  cases m with
  | call t q =>
    have hs := step_of_move? hm
    cases hs with
    | call _ _ hp =>
      have hp₂ : s₂.phase t = .idle := by rw [h.phase, hp]; rfl
      refine ⟨s₂.become t (.ready ⟨q, s.now, q.limit.startingAt s.now⟩), ?_, h.become hv⟩
      simp [System.move?, call?, hp₂, h.now]
  | step t => exact h.step? hc (h.free hc.locked hl₂) hv hm
  | runOut t =>
    have hs := step_of_move? hm
    cases hs with
    | runOut _ c w wake hp hle =>
      refine ⟨s₂.become t (.woken c w true), ?_, h.become rfl⟩
      simp [System.move?, runOut?, hasleep hp, h.now, hle]
  | stir t =>
    have hs := step_of_move? hm
    cases hs with
    | stir _ c w wake hp =>
      refine ⟨s₂.become t (.woken c w false), ?_, h.become rfl⟩
      simp [System.move?, stir?, hasleep hp]
  | elapse time =>
    cases hm
    exact ⟨_, rfl, h.elapse time⟩

end

/-! ## Schedules -/

/-- At the greatest index, a schedule without the moves of the appends that get no index can be
    followed as well, and ends the same without them. -/
theorem Coherent.spares_of_run (h : s.Coherent log) (hlast : s.ring.newest = Index.greatest)
    (hr : s.run? moves = some s') :
    ∃ s₂, s.spared.run? (s.gather spared? moves) = some s₂ ∧ s'.Spares s₂ ∧ s₂.Locked := by
  refine run_prefix_induction (I := fun l v => ∃ v₂, s.spared.run? (s.gather spared? l) = some v₂ ∧ v.Spares v₂ ∧
    v₂.Locked) ⟨s.spared, rfl, spares_spared s, locked_spared h.locked⟩ ?_ hr
  rintro before v m v' - hb hm ⟨v₂, hrun, hsp, hl₂⟩
  have hv := h.of_run hb
  rw [gather_concat hb hm]
  cases ht : v.toils m with
  | true =>
    have hnewest : v.ring.newest = Index.greatest := by
      have := (h.bounds_le hb).2
      have := hv.window.newest_le
      omega
    obtain ⟨t, -, hfutile⟩ := (step_of_move? hm).futile hnewest ht
    refine ⟨v₂, ?_, hsp.futile hfutile, hl₂⟩
    simpa [spared?, ht] using hrun
  | false =>
    obtain ⟨v₂', hm₂, hsp'⟩ := hsp.move? hv hl₂ ht hm
    refine ⟨v₂', ?_, hsp', (step_of_move? hm₂).locked hl₂⟩
    rw [run?_append_of_run? hrun]
    simp [spared?, ht, run?_cons_of_move? hm₂]

end System

end Chronicle
