/-
  Chronicle.Proofs.System.Unseen — what some threads cannot see of the others and of the flags.

  Of all threads, `p` picks those that are watched. A move is hidden from them if another
  thread makes it, or if it belongs to a call about a flag (`hides`). As long as the others
  leave the series alone, a hidden move changes nothing that the watched threads know but the
  flags (`Watched.sameFor_of_hidden`), and the flags come to them only through the checks of
  those who wait (`check?`): where two systems are the same for them, a move that is not hidden
  does the same, if its check sees the same (`SameFor.move?`).

  Proved: two schedules with the same moves that are not hidden, whose checks see the same,
  end the same for the watched threads (`sameFor_of_runs`).
-/

import Chronicle.Proofs.System.Call
import Chronicle.Proofs.System.Coherence

namespace Chronicle

variable {α : Type}

def Request.isFlag : Request α → Bool
  | .flag _ => true
  | _ => false

theorem Request.lockFree_of_isFlag {q : Request α} (h : q.isFlag = true) : q.lockFree = true := by
  cases q with
  | flag a => rfl
  | _ => cases h

def Request.changes : Request α → Bool
  | .append _ | .tag _ => true
  | _ => false

/-- A call about a flag, not yet answered. -/
def Phase.asksFlag : Phase α → Bool
  | .ready c => c.request.isFlag
  | _ => false

/-- Not a call with which a thread that is not watched changes the series. -/
def Move.quiet (p : Nat → Bool) : Move α → Bool
  | .call t q => p t || !q.changes
  | _ => true

/-- The phase, where a call about a flag is none. -/
def Phase.unflagged (p : Phase α) : Phase α := if p.asksFlag then .idle else p

/-- The thread without its calls about flags. -/
def Thread.unflagged (th : Thread α) : Thread α :=
  ⟨th.phase.unflagged, th.replies.filter fun r => !r.call.request.isFlag, th.trace⟩

theorem Phase.unflagged_eq {p : Phase α} (h : p.asksFlag = false) : p.unflagged = p := by
  simp [unflagged, h]

theorem Thread.unflagged_become {a b : Thread α} (h : a.unflagged = b.unflagged) (x : Phase α) :
    { a with phase := x }.unflagged = { b with phase := x }.unflagged := by
  simp only [unflagged, Thread.mk.injEq, true_and] at h ⊢
  exact h.2

theorem Thread.unflagged_reply {a b : Thread α} (h : a.unflagged = b.unflagged) (r : Reply α) (report : List Event) :
    Thread.unflagged ⟨.idle, r :: a.replies, report ++ a.trace⟩ =
      Thread.unflagged ⟨.idle, r :: b.replies, report ++ b.trace⟩ := by
  simp only [unflagged, Thread.mk.injEq, true_and] at h ⊢
  exact ⟨by simp only [List.filter_cons, h.2.1], by rw [h.2.2]⟩

theorem Thread.unflagged_notified {a b : Thread α} (h : a.unflagged = b.unflagged) :
    { a with phase := a.phase.notified }.unflagged = { b with phase := b.phase.notified }.unflagged := by
  simp only [unflagged, Thread.mk.injEq] at h ⊢
  refine ⟨?_, h.2⟩
  have key : ∀ p : Phase α, p.notified.unflagged = p.unflagged.notified := by
    intro p
    cases p with
    | ready c => by_cases hc : c.request.isFlag = true <;> simp [Phase.notified, Phase.unflagged, Phase.asksFlag, hc]
    | _ => rfl
  rw [key, key, h.1]

namespace System

variable {p : Nat → Bool} {s s' s₁ s₂ s₃ s₁' s₂' : System α} {t : Nat} {m : Move α}
  {moves moves₁ moves₂ : List (Move α)}

/-- A move that no watched thread makes, or one makes for a call about a flag. -/
def hides (p : Nat → Bool) (s : System α) : Move α → Bool
  | .call t q => !p t || q.isFlag
  | .step t => !p t || (s.phase t).asksFlag
  | .runOut t | .stir t => !p t
  | .elapse _ => false

/-- The move, if it is not hidden. -/
def shown? (p : Nat → Bool) (s : System α) (m : Move α) : Option (Move α) := if s.hides p m then none else some m

/-- The flag that a watched thread checks when it looks and does not find its index. -/
def checked? (p : Nat → Bool) (s : System α) : Move α → Option Nat
  | .step t =>
    match s.phase t with
    | .looking _ w =>
      match w.patience with
      | .cancellable f _ => if p t ∧ s.ring.newest < w.target then some f else none
      | _ => none
    | _ => none
  | _ => none

def check? (p : Nat → Bool) (s : System α) (m : Move α) : Option Bool := (s.checked? p m).map s.flags.isRaised

/-- What a move does to the flags, if it is about one. -/
def action? (s : System α) : Move α → Option FlagAction
  | .step t =>
    match s.phase t with
    | .ready c =>
      match c.request with
      | .flag a => some a
      | _ => none
    | _ => none
  | _ => none

/-- Two systems in which the watched threads know the same, but for the flags. -/
structure SameFor (p : Nat → Bool) (s₁ s₂ : System α) : Prop where
  settings : s₁.settings = s₂.settings
  clock : s₁.clock = s₂.clock
  ring : s₁.ring = s₂.ring
  readings : s₁.readings = s₂.readings
  now : s₁.now = s₂.now
  threads : ∀ t, p t = true → (s₁.thread t).unflagged = (s₂.thread t).unflagged

/-- The threads that are not watched leave the series alone. -/
structure Watched (p : Nat → Bool) (s : System α) : Prop where
  coherent : ∃ log, s.Coherent log
  quiet : ∀ t c, p t = false → (s.phase t).call? = some c → c.request.changes = false

/-! ## The same for the watched threads -/

theorem SameFor.refl (p : Nat → Bool) (s : System α) : s.SameFor p s := ⟨rfl, rfl, rfl, rfl, rfl, fun _ _ => rfl⟩

theorem SameFor.symm (h : s₁.SameFor p s₂) : s₂.SameFor p s₁ :=
  ⟨h.settings.symm, h.clock.symm, h.ring.symm, h.readings.symm, h.now.symm, fun t ht => (h.threads t ht).symm⟩

theorem SameFor.trans (h : s₁.SameFor p s₂) (h' : s₂.SameFor p s₃) : s₁.SameFor p s₃ :=
  ⟨h.settings.trans h'.settings, h.clock.trans h'.clock, h.ring.trans h'.ring, h.readings.trans h'.readings,
    h.now.trans h'.now, fun t ht => (h.threads t ht).trans (h'.threads t ht)⟩

theorem SameFor.phase_eq (h : s₁.SameFor p s₂) (ht : p t = true) (h₁ : (s₁.phase t).asksFlag = false)
    (h₂ : (s₂.phase t).asksFlag = false) : s₁.phase t = s₂.phase t := by
  have hth := h.threads t ht
  simp only [Thread.unflagged, Thread.mk.injEq] at hth
  rw [← Phase.unflagged_eq h₁, ← Phase.unflagged_eq h₂]
  exact hth.1

section

variable (h : s₁.SameFor p s₂)

include h

theorem SameFor.become (t : Nat) (x : Phase α) : (s₁.become t x).SameFor p (s₂.become t x) := by
  refine ⟨h.settings, h.clock, h.ring, h.readings, h.now, ?_⟩
  intro u hu
  simp only [thread_become]
  split
  · rename_i e
    subst e
    exact Thread.unflagged_become (h.threads t hu) x
  · exact h.threads u hu

theorem SameFor.reply (t : Nat) (c : Call α) (a : Answer α) (report : Option Event) :
    (s₁.reply t c a report).SameFor p (s₂.reply t c a report) := by
  refine ⟨h.settings, h.clock, h.ring, h.readings, h.now, ?_⟩
  intro u hu
  simp only [thread_reply, h.now]
  split
  · rename_i e
    subst e
    exact Thread.unflagged_reply (h.threads t hu) _ _
  · exact h.threads u hu

theorem SameFor.notifyAll : s₁.notifyAll.SameFor p s₂.notifyAll := by
  refine ⟨h.settings, h.clock, h.ring, h.readings, h.now, ?_⟩
  intro u hu
  simp only [thread_notifyAll]
  exact Thread.unflagged_notified (h.threads u hu)

theorem SameFor.setHolder (h₁ h₂ : Option Nat) : { s₁ with holder := h₁ }.SameFor p { s₂ with holder := h₂ } :=
  ⟨h.settings, h.clock, h.ring, h.readings, h.now, h.threads⟩

theorem SameFor.setFlags (f₁ f₂ : Flags) : { s₁ with flags := f₁ }.SameFor p { s₂ with flags := f₂ } :=
  ⟨h.settings, h.clock, h.ring, h.readings, h.now, h.threads⟩

theorem SameFor.setRing (r : Ring (Sample α)) : { s₁ with ring := r }.SameFor p { s₂ with ring := r } :=
  ⟨h.settings, h.clock, rfl, h.readings, h.now, h.threads⟩

theorem SameFor.elapse (time : Nat) : (s₁.elapse time).SameFor p (s₂.elapse time) :=
  ⟨h.settings, h.clock, h.ring, h.readings, congrArg (· + time) h.now, h.threads⟩

theorem SameFor.release : s₁.release.SameFor p s₂.release := h.setHolder none none

theorem SameFor.giveUp (t : Nat) (c : Call α) (e : ReadFault) : (s₁.giveUp t c e).SameFor p (s₂.giveUp t c e) :=
  h.release.reply t c _ _

/-! ## A move that is not hidden -/

theorem SameFor.acquire {x : Phase α} (h₁ : s₁.acquire t x = some s₁') (h₂ : s₂.acquire t x = some s₂') :
    s₁'.SameFor p s₂' := by
  obtain ⟨-, rfl⟩ := (acquire_eq_some s₁ t).mp h₁
  obtain ⟨-, rfl⟩ := (acquire_eq_some s₂ t).mp h₂
  exact (h.setHolder _ _).become t x

theorem SameFor.answerFree {q : Request α} (hq : q.isFlag = false) : (s₁.answerFree q).2 = (s₂.answerFree q).2 := by
  cases q with
  | capacity | start => simp only [System.answerFree, h.settings]
  | flag a => cases hq
  | _ => rfl

theorem SameFor.enter (t : Nat) (c : Call α) : (s₁.enter t c).SameFor p (s₂.enter t c) := by
  unfold System.enter
  rw [h.settings, h.ring, h.now, h.readings, h.clock]
  split
  · refine SameFor.become ?_ t _
    exact ⟨rfl, rfl, rfl, rfl, rfl, h.threads⟩
  · split
    · split
      · exact h.giveUp t c _
      · exact h.become t _
    · refine SameFor.reply ?_ t c _ _
      exact ⟨rfl, rfl, rfl, rfl, rfl, h.threads⟩

/-- A look does the same if it sees the same of its flag. -/
theorem SameFor.look (t : Nat) (c : Call α) (w : Waiter)
    (hcheck : ∀ f d, w.patience = .cancellable f d → s₁.ring.newest < w.target →
      s₁.flags.isRaised f = s₂.flags.isRaised f) : (s₁.look t c w).SameFor p (s₂.look t c w) := by
  have hlook : w.look s₁.ring.newest s₁.flags = w.look s₂.ring.newest s₂.flags := by
    unfold Waiter.look
    rw [h.ring] at hcheck ⊢
    split
    · rfl
    · cases hw : w.patience with
      | cancellable f d => simp only [hcheck f d hw (by omega)]
      | _ => rfl
  unfold System.look
  rw [hlook, h.ring]
  split
  · split
    · exact h.release.reply t c _ _
    · exact h.giveUp t c _
  · exact h.giveUp t c _
  · exact h.become t _
  · exact h.release.become t _

theorem SameFor.step? (ht : p t = true) (ha₁ : (s₁.phase t).asksFlag = false) (ha₂ : (s₂.phase t).asksFlag = false)
    (hcheck : s₁.check? p (.step t) = s₂.check? p (.step t)) (h₁ : s₁.step? t = some s₁') (h₂ : s₂.step? t = some s₂') :
    s₁'.SameFor p s₂' := by
  have hphase := h.phase_eq ht ha₁ ha₂
  unfold System.step? at h₁ h₂
  rw [← hphase] at h₂
  cases hp : s₁.phase t with
  | idle | asleep c w wake => rw [hp] at h₁; cases h₁
  | ready c =>
    rw [hp] at h₁ h₂ ha₁
    dsimp only at h₁ h₂
    split at h₁
    · rename_i hfree
      rw [if_pos hfree] at h₂
      cases h₁
      cases h₂
      rw [h.answerFree ha₁]
      exact (h.setFlags _ _).reply t c _ _
    · rename_i hfree
      rw [if_neg hfree] at h₂
      exact h.acquire h₁ h₂
  | entered c =>
    rw [hp] at h₁ h₂
    cases h₁
    cases h₂
    exact h.enter t c
  | stamped c x =>
    rw [hp] at h₁ h₂
    dsimp only at h₁ h₂
    rw [h.ring] at h₁
    cases he : s₂.ring.push x with
    | ok r =>
      rw [he] at h₁ h₂
      cases h₁
      cases h₂
      exact (h.setRing _).become t _
    | error e ring =>
      rw [he] at h₁ h₂
      cases h₁
      cases h₂
      exact (h.setRing ring).release.reply t c _ _
  | pushed c i =>
    rw [hp] at h₁ h₂
    cases h₁
    cases h₂
    exact h.release.become t _
  | unlocked c i =>
    rw [hp] at h₁ h₂
    cases h₁
    cases h₂
    exact h.notifyAll.reply t c _ _
  | looking c w =>
    rw [hp] at h₁ h₂
    cases h₁
    cases h₂
    refine h.look t c w ?_
    intro f d hw hn
    have hn₂ : s₂.ring.newest < w.target := h.ring ▸ hn
    simpa [check?, checked?, hp, hphase ▸ hp, hw, ht, hn, hn₂] using hcheck
  | planning c w =>
    rw [hp] at h₁ h₂
    cases h₁
    cases h₂
    rw [h.settings, h.now]
    exact h.release.become t _
  | woken c w ranOut =>
    rw [hp] at h₁ h₂
    exact h.acquire h₁ h₂
  | resumed c w ranOut =>
    rw [hp] at h₁ h₂
    dsimp only at h₁ h₂
    rw [h.ring, h.now] at h₁
    cases hlapse : w.lapse? s₂.ring.newest ranOut s₂.now with
    | some e =>
      rw [hlapse] at h₁ h₂
      cases h₁
      cases h₂
      exact h.giveUp t c e
    | none =>
      rw [hlapse] at h₁ h₂
      cases h₁
      cases h₂
      exact h.become t _

/-- A watched sleeper sleeps for the same call in both. -/
theorem SameFor.eq_of_asleep (ht : p t = true) {c₁ c₂ : Call α} {w₁ w₂ : Waiter} {wake₁ wake₂ : Option Nat}
    (h₁ : s₁.phase t = .asleep c₁ w₁ wake₁) (h₂ : s₂.phase t = .asleep c₂ w₂ wake₂) : c₁ = c₂ ∧ w₁ = w₂ := by
  have hphase := h.phase_eq ht (by rw [h₁]; rfl) (by rw [h₂]; rfl)
  rw [h₁, h₂] at hphase
  cases hphase
  exact ⟨rfl, rfl⟩

/-- A move that is not hidden, and whose check sees the same, does the same. -/
theorem SameFor.move? (h₁ : s₁.move? m = some s₁') (h₂ : s₂.move? m = some s₂') (hm₁ : s₁.hides p m = false)
    (hm₂ : s₂.hides p m = false) (hcheck : s₁.check? p m = s₂.check? p m) : s₁'.SameFor p s₂' := by
  have hs₁ := step_of_move? h₁
  have hs₂ := step_of_move? h₂
  cases m with
  | call t q =>
    cases hs₁
    cases hs₂
    rw [h.now]
    exact h.become t _
  | step t =>
    simp only [hides, Bool.or_eq_false_iff, Bool.not_eq_false'] at hm₁ hm₂
    exact h.step? hm₁.1 hm₁.2 hm₂.2 hcheck h₁ h₂
  | runOut t =>
    simp only [hides, Bool.not_eq_false'] at hm₁
    cases hs₁ with
    | runOut _ c w wake hp₁ =>
      cases hs₂ with
      | runOut _ c' w' wake' hp₂ =>
        obtain ⟨rfl, rfl⟩ := h.eq_of_asleep hm₁ hp₁ hp₂
        exact h.become t _
  | stir t =>
    simp only [hides, Bool.not_eq_false'] at hm₁
    cases hs₁ with
    | stir _ c w wake hp₁ =>
      cases hs₂ with
      | stir _ c' w' wake' hp₂ =>
        obtain ⟨rfl, rfl⟩ := h.eq_of_asleep hm₁ hp₁ hp₂
        exact h.become t _
  | elapse time =>
    cases hs₁
    cases hs₂
    exact h.elapse time

end

/-! ## A move that is hidden -/

theorem SameFor.of_untouched (h : s.Untouched t s') (ht : p t = false) : s.SameFor p s' := by
  refine ⟨h.settings.symm, h.clock.symm, h.ring.symm, h.readings.symm, h.now.symm, ?_⟩
  intro u hu
  rw [h.others u (by intro e; rw [e, ht] at hu; cases hu)]

theorem SameFor.of_reply_other (ht : p t = false) (c : Call α) (a : Answer α) (report : Option Event) :
    s.SameFor p (s.reply t c a report) := by
  refine ⟨rfl, rfl, rfl, rfl, rfl, ?_⟩
  intro u hu
  rw [thread_reply, if_neg (by intro e; rw [e, hu] at ht; cases ht)]

theorem perform_ring_eq (r : Ring (Sample α)) (start : Int) {q : Request α} (hq : q.changes = false) :
    (r.perform start q).1 = r := by
  cases q with
  | tag i => cases hq
  | _ => rfl

/-- What a thread that is not watched does is not seen by the others. -/
theorem Watched.sameFor_of_other (h : s.Watched p) (hs : Step s m s') (hm : m.mover? = some t) (ht : p t = false) :
    s.SameFor p s' := by
  obtain ⟨log, hc⟩ := h.coherent
  have hfits := hc.fits t
  have hquiet := h.quiet t
  have noAppend : ∀ {c : Call α}, (s.phase t).call? = some c → ∀ v, c.request ≠ .append v := by
    intro c hp v hv
    have := hquiet c ht hp
    rw [hv] at this
    cases this
  cases hs with
  | elapse time => cases hm
  | call u q hp | begin u c i hp | plan u c w f d hp | again u c w r hp | runOut u c w wake hp | stir u c w wake hp =>
    cases hm
    exact .of_untouched (untouched_become _) ht
  | enter u c hp | relock u c w r hp =>
    cases hm
    exact .of_untouched ((untouched_setHolder _).trans (untouched_become _)) ht
  | sleep u c w hp | slice u c w hp =>
    cases hm
    exact .of_untouched ((untouched_setHolder none).trans (untouched_become _)) ht
  | refuse u c i hp | serve u c w a hp | lapped u c w e hp | cancel u c w f d hp | expire u c w hp =>
    cases hm
    exact .of_untouched (untouched_reply _ _ _) ht
  | free u c hp =>
    cases hm
    exact ((SameFor.refl p s).setFlags s.flags _).trans (.of_reply_other ht _ _ _)
  | perform u c hp =>
    cases hm
    have hring := perform_ring_eq s.ring s.settings.start (hquiet c ht (by rw [hp]; rfl))
    rw [hring]
    exact ((SameFor.refl p s).setHolder s.holder none).trans (.of_reply_other ht _ _ _)
  | stamp u c v hp hq =>
    cases hm
    exact absurd hq (noAppend (by rw [hp]; rfl) v)
  | push u c x r i d hp | overflow u c x e r hp =>
    cases hm
    rw [hp] at hfits
    exact absurd hfits.2 (noAppend (by rw [hp]; rfl) _)
  | unlock u c i hp | notify u c i hp =>
    cases hm
    rw [hp] at hfits
    obtain ⟨v, hv⟩ := hfits.2.1
    exact absurd hv (noAppend (by rw [hp]; rfl) v)

/-- A call about a flag is not seen, -/
theorem SameFor.of_flag_call (hp : s.phase t = .idle) {c : Call α} (hq : c.request.isFlag = true) :
    s.SameFor p (s.become t (.ready c)) := by
  refine ⟨rfl, rfl, rfl, rfl, rfl, ?_⟩
  intro u _
  rw [thread_become]
  split
  · rename_i e
    subst e
    have hidle : (s.thread t).phase = .idle := hp
    simp [Thread.unflagged, Phase.unflagged, Phase.asksFlag, hidle, hq]
  · rfl

/-- nor is its answer. -/
theorem SameFor.of_flag_reply {c : Call α} (hp : s.phase t = .ready c) (hq : c.request.isFlag = true) (flags : Flags)
    (a : Answer α) : s.SameFor p ({ s with flags }.reply t c a none) := by
  refine ⟨rfl, rfl, rfl, rfl, rfl, ?_⟩
  intro u _
  rw [thread_reply]
  split
  · rename_i e
    subst e
    have hready : (s.thread t).phase = .ready c := hp
    simp [Thread.unflagged, Phase.unflagged, Phase.asksFlag, hready, hq]
  · rfl

theorem Watched.sameFor_of_hidden (h : s.Watched p) (hm : s.move? m = some s') (hh : s.hides p m = true) :
    s.SameFor p s' := by
  have hs := step_of_move? hm
  by_cases hother : ∃ t, m.mover? = some t ∧ p t = false
  · obtain ⟨t, hmover, ht⟩ := hother
    exact h.sameFor_of_other hs hmover ht
  -- a watched thread makes the move: it belongs to a call about a flag
  have watched : ∀ t, m.mover? = some t → p t = true := by
    intro t hmover
    cases ht : p t with
    | true => rfl
    | false => exact absurd ⟨t, hmover, ht⟩ hother
  cases m with
  | call t q =>
    have hq : q.isFlag = true := by simpa [hides, watched t rfl] using hh
    cases hs with
    | call _ _ hp => exact .of_flag_call hp hq
  | step t =>
    have ha : (s.phase t).asksFlag = true := by simpa [hides, watched t rfl] using hh
    cases hp : s.phase t with
    | ready c =>
      rw [hp] at ha
      have hstep : s.step? t = some s' := hm
      have hfree := Request.lockFree_of_isFlag ha
      simp only [System.step?, hp, hfree, if_true, Option.some.injEq] at hstep
      rw [← hstep]
      exact .of_flag_reply hp ha _ _
    | _ => rw [hp] at ha; cases ha
  | runOut t | stir t => simp [hides, watched t rfl] at hh
  | elapse time => cases hh

/-- Hidden moves check nothing. -/
theorem checked?_of_hides (hm : s.hides p m = true) : s.checked? p m = none := by
  unfold checked?
  cases m with
  | step t =>
    cases hp : s.phase t with
    | looking c w =>
      have ht : p t = false := by simpa [hides, hp, Phase.asksFlag] using hm
      cases hw : w.patience <;> simp [hp, hw, ht]
    | _ => simp [hp]
  | _ => rfl

/-! ## Schedules -/

theorem Watched.step (h : s.Watched p) (hs : Step s m s') (hq : m.quiet p = true) : s'.Watched p := by
  obtain ⟨log, hc⟩ := h.coherent
  refine ⟨⟨_, hc.step hs⟩, ?_⟩
  intro t c ht hp
  rcases hs.call_cases t with ⟨hsame, -⟩ | ⟨q, rfl, -, hcall, -⟩ | ⟨_, _, -, -, hidle, -⟩
  · exact h.quiet t c ht (hsame ▸ hp)
  · rw [hcall] at hp
    cases hp
    simpa [Move.quiet, ht, callOf] using hq
  · rw [hidle] at hp
    cases hp

theorem gather_cons_hidden (hm : s.move? m = some s') (hh : s.hides p m = true) :
    s.gather (shown? p) (m :: moves) = s'.gather (shown? p) moves ∧
      s.gather (check? p) (m :: moves) = s'.gather (check? p) moves := by
  rw [gather_cons_of_move? hm, gather_cons_of_move? hm, check?, checked?_of_hides hh]
  simp [shown?, hh]

theorem gather_cons_shown (hm : s.move? m = some s') (hh : s.hides p m = false) :
    s.gather (shown? p) (m :: moves) = m :: s'.gather (shown? p) moves := by
  rw [gather_cons_of_move? hm]
  simp [shown?, hh]

/-- What a move checks is the same in systems that are the same for the watched threads. -/
theorem SameFor.checked?_eq (h : s₁.SameFor p s₂) (hh₁ : s₁.hides p m = false) (hh₂ : s₂.hides p m = false) :
    s₁.checked? p m = s₂.checked? p m := by
  cases m with
  | step t =>
    simp only [hides, Bool.or_eq_false_iff, Bool.not_eq_false'] at hh₁ hh₂
    simp only [checked?, h.phase_eq hh₁.1 hh₁.2 hh₂.2, h.ring]
  | _ => rfl

/-- If two schedules begin with a move that is not hidden and show and check the same, these moves
    are the same, their checks see the same, and so it is after them. -/
theorem SameFor.heads {m₁ m₂ : Move α} (h : s₁.SameFor p s₂) (hm₁ : s₁.move? m₁ = some s₁')
    (hm₂ : s₂.move? m₂ = some s₂') (hh₁ : s₁.hides p m₁ = false) (hh₂ : s₂.hides p m₂ = false)
    (hshown : s₁.gather (shown? p) (m₁ :: moves₁) = s₂.gather (shown? p) (m₂ :: moves₂))
    (hcheck : s₁.gather (check? p) (m₁ :: moves₁) = s₂.gather (check? p) (m₂ :: moves₂)) :
    m₁ = m₂ ∧ s₁.check? p m₁ = s₂.check? p m₂ ∧ s₁'.gather (shown? p) moves₁ = s₂'.gather (shown? p) moves₂ ∧
      s₁'.gather (check? p) moves₁ = s₂'.gather (check? p) moves₂ := by
  rw [gather_cons_shown hm₁ hh₁, gather_cons_shown hm₂ hh₂] at hshown
  obtain ⟨rfl, hrest⟩ := List.cons.inj hshown
  rw [gather_cons_of_move? hm₁, gather_cons_of_move? hm₂] at hcheck
  unfold check? at hcheck ⊢
  rw [h.checked?_eq hh₁ hh₂] at hcheck ⊢
  cases hf : s₂.checked? p m₁ with
  | none =>
    rw [hf] at hcheck
    exact ⟨rfl, rfl, hrest, hcheck⟩
  | some f =>
    rw [hf] at hcheck
    obtain ⟨hsame, htail⟩ := List.cons.inj hcheck
    exact ⟨rfl, congrArg some hsame, hrest, htail⟩

/-- Schedules with the same moves that are not hidden, whose checks see the same, end the same for the
    watched threads. -/
theorem sameFor_of_runs (h : s₁.SameFor p s₂) (hw₁ : s₁.Watched p) (hw₂ : s₂.Watched p)
    (hq₁ : ∀ m ∈ moves₁, m.quiet p = true) (hq₂ : ∀ m ∈ moves₂, m.quiet p = true)
    (hr₁ : s₁.run? moves₁ = some s₁') (hr₂ : s₂.run? moves₂ = some s₂')
    (hshown : s₁.gather (shown? p) moves₁ = s₂.gather (shown? p) moves₂)
    (hcheck : s₁.gather (check? p) moves₁ = s₂.gather (check? p) moves₂) : s₁'.SameFor p s₂' := by
  induction moves₁ generalizing s₁ s₂ moves₂ with
  | nil =>
    cases hr₁
    induction moves₂ generalizing s₂ with
    | nil =>
      cases hr₂
      exact h
    | cons m moves₂ ih =>
      obtain ⟨u, hm, hrest⟩ := Option.bind_eq_some_iff.mp hr₂
      obtain ⟨hq, hq₂⟩ := List.forall_mem_cons.mp hq₂
      cases hh : s₂.hides p m with
      | true =>
        obtain ⟨hs, hc⟩ := gather_cons_hidden hm hh
        exact ih (hw₂.step (step_of_move? hm) hq) hq₂ hrest (h.trans (hw₂.sameFor_of_hidden hm hh))
          (hshown.trans hs) (hcheck.trans hc)
      | false =>
        rw [gather_cons_shown hm hh] at hshown
        cases hshown
  | cons m₁ moves₁ ih₁ =>
    obtain ⟨u₁, hm₁, hrest₁⟩ := Option.bind_eq_some_iff.mp hr₁
    obtain ⟨hqm₁, hq₁⟩ := List.forall_mem_cons.mp hq₁
    have hu₁ := hw₁.step (step_of_move? hm₁) hqm₁
    cases hh₁ : s₁.hides p m₁ with
    | true =>
      obtain ⟨hs, hc⟩ := gather_cons_hidden hm₁ hh₁
      exact ih₁ ((hw₁.sameFor_of_hidden hm₁ hh₁).symm.trans h) hu₁ hw₂ hq₁ hq₂ hrest₁ hr₂ (hs.symm.trans hshown)
        (hc.symm.trans hcheck)
    | false =>
      -- the second schedule comes to the same move, after moves that are hidden
      induction moves₂ generalizing s₂ with
      | nil =>
        rw [gather_cons_shown hm₁ hh₁] at hshown
        cases hshown
      | cons m₂ moves₂ ih₂ =>
        obtain ⟨u₂, hm₂, hrest₂⟩ := Option.bind_eq_some_iff.mp hr₂
        obtain ⟨hqm₂, hqrest₂⟩ := List.forall_mem_cons.mp hq₂
        have hu₂ := hw₂.step (step_of_move? hm₂) hqm₂
        cases hh₂ : s₂.hides p m₂ with
        | true =>
          obtain ⟨hs, hc⟩ := gather_cons_hidden hm₂ hh₂
          exact ih₂ (h.trans (hw₂.sameFor_of_hidden hm₂ hh₂)) hu₂ hqrest₂ hrest₂ (hshown.trans hs) (hcheck.trans hc)
        | false =>
          obtain ⟨rfl, hsame, hshown', hcheck'⟩ := h.heads hm₁ hm₂ hh₁ hh₂ hshown hcheck
          exact ih₁ (h.move? hm₁ hm₂ hh₁ hh₂ hsame) hu₁ hu₂ hq₁ hqrest₂ hrest₁ hrest₂ hshown' hcheck'

/-! ## The flags -/

/-- The flags are what the calls about them make of them. -/
theorem Step.flags_eq (h : Step s m s') : s'.flags = (s.action? m).toList.foldl Flags.after s.flags := by
  cases h with
  | free t c hp =>
    cases hq : c.request with
    | flag a => simp [action?, hp, hq, System.reply, System.answerFree]
    | _ => simp [action?, hp, hq, System.reply, System.answerFree]
  | enter t c hp hl =>
    cases hq : c.request with
    | flag a => rw [hq] at hl; cases hl
    | _ => simp [action?, hp, hq, System.become]
  | call | runOut | stir | elapse => rfl
  | stamp t c v hp | refuse t c i hp | begin t c i hp | perform t c hp | push t c x r i d hp | overflow t c x e r hp
  | unlock t c i hp | notify t c i hp | serve t c w a hp | lapped t c w e hp | cancel t c w f d hp | plan t c w f d hp
  | sleep t c w hp | slice t c w hp | relock t c w r hp | expire t c w hp | again t c w r hp =>
    simp only [action?, hp]
    rfl

end System

end Chronicle
