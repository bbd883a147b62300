/-
  Chronicle.Proofs.System.Solo — calls made one after another.

  A call that is made while nobody else moves is seen through by the moves of its own thread, in
  whatever time (`SeesThrough`). What it comes to is then a matter of the request, and of the
  series, the flags and the count of the readings as it finds them (`outcome`), if the clock does
  not follow the time: an index that is evicted, there or cancelled is so at the first look, and
  at every later one, and if it is none of these only the limit can end the wait. How long that
  took is the one thing that is not determined (`Answer.untimed`).

  The proof follows the call from phase to phase: `s.Onward q u p` says what the system `u` has
  become by the time a call of `q` made in `s` has come to the phase `p`.

  Proved: a call seen through comes to its outcome (`Coherent.came`). Where two systems are the
  same but for the mark so are the outcomes (`SameBut.outcome`), and a request that looks or marks
  leaves such a system (`SameBut.of_came`); so two runs of calls one after another, of which the
  second lacks calls that look or mark, stay the same (`sameBut_of_oneByOne`).
-/

import Mathlib.Data.List.Forall2
import Chronicle.Proofs.System.Looks
import Chronicle.Proofs.System.Alone

namespace Chronicle

variable {α : Type}

/-- The answer, whatever time was waited. -/
def Answer.untimed : Answer α → Answer α
  | .failed (.timeout i _) => .failed (.timeout i (.millis 0))
  | a => a

/-- A move of the call that a thread makes, or none of anybody. -/
def Move.goesOn (t : Nat) : Move α → Bool
  | .step u | .runOut u | .stir u => u == t
  | .elapse _ => true
  | .call .. => false

theorem untimed_refusal (q : Request α) (i : Int) (w w₂ : Duration) :
    (q.refusal (.timeout i w)).untimed = (q.refusal (.timeout i w₂)).untimed := by
  cases q with
  | edge which time => cases time <;> rfl
  | _ => rfl

theorem Request.SameBut.untimed {marks : Prop} {q : Request α} {a a₂ : Answer α} (h : q.SameBut marks a a₂) :
    q.SameBut marks a.untimed a₂.untimed := by
  rcases h with rfl | ⟨hm, h⟩
  · exact Or.inl rfl
  · cases h with
    | changed b b₂ => exact Or.inr ⟨hm, .changed b b₂⟩
    | described style before after i j => exact Or.inr ⟨hm, .described style before after i j⟩

/-- What a request comes to: the series, the flags and the count of the readings after it, and its answer. -/
structure Outcome (α : Type) where
  ring : Ring (Sample α)
  flags : Flags
  readings : Nat
  answer : Answer α

/-- The outcomes of a request are the same, or, if `marks` holds, the same but for the mark. -/
structure Outcome.SameBut (marks : Prop) (q : Request α) (o o₂ : Outcome α) : Prop where
  ring : o.ring.SameBut marks o₂.ring
  flags : o₂.flags = o.flags
  readings : o₂.readings = o.readings
  answer : q.SameBut marks o.answer o₂.answer

namespace System

/-! ## Outcomes -/

/-- What a request is told that waits for an index while nobody else moves. -/
def waitAlone (s : System α) (q : Request α) (i : Int) : Answer α :=
  if q.guarded ∧ s.ring.evicted i then q.refusal (.evicted i s.ring.oldest)
  else if i ≤ s.ring.newest then s.ring.verdict q
  else if q.limit.raised s.flags then q.refusal (.cancelled i)
  else q.refusal (.timeout i (.millis 0))

/-- What a request comes to that is made while nobody else moves. -/
def outcome (s : System α) : Request α → Outcome α
  | .append v =>
    match s.ring.push (s.stamp v) with
    | .ok (i, _) ring => ⟨ring, s.flags, s.readings + 1, .index i⟩
    | .error p ring => ⟨ring, s.flags, s.readings + 1, .panicked p⟩
  | q =>
    if q.lockFree then
      let (flags, a) := s.answerFree q
      ⟨s.ring, flags, s.readings, a⟩
    else
      match q.target? s.settings.start with
      | some i => ⟨s.ring, s.flags, s.readings, s.waitAlone q i⟩
      | none =>
        let (ring, a) := s.ring.perform s.settings.start q
        ⟨ring, s.flags, s.readings, a⟩

/-- The second system has the settings and the clock of the first, and this series, these flags and so
    many readings. -/
structure Brought (s : System α) (ring : Ring (Sample α)) (flags : Flags) (readings : Nat) (v : System α) : Prop where
  settings : v.settings = s.settings
  clock : v.clock = s.clock
  ring : v.ring = ring
  flags : v.flags = flags
  readings : v.readings = readings

/-- A call of the request, made in `s`, was answered so and left `v`. -/
structure Came (s : System α) (q : Request α) (a : Answer α) (v : System α) : Prop where
  left : s.Brought (s.outcome q).ring (s.outcome q).flags (s.outcome q).readings v
  answer : a.untimed = (s.outcome q).answer.untimed

/-- What is left of `s` by the time a call of `q` has come to a phase, while nobody else moves. -/
def Onward (s : System α) (q : Request α) (v : System α) : Phase α → Prop
  | .idle => False
  | .ready c | .entered c => c.request = q ∧ s.Brought s.ring s.flags s.readings v
  | .stamped c x => c.request = q ∧ (∃ a, q = .append a ∧ x = s.stamp a) ∧ s.Brought s.ring s.flags (s.readings + 1) v
  | .pushed c i | .unlocked c i => c.request = q ∧ ∃ a ring d, q = .append a ∧
      s.ring.push (s.stamp a) = .ok (i, d) ring ∧ s.Brought ring s.flags (s.readings + 1) v
  | .looking c w => c.request = q ∧ s.Brought s.ring s.flags s.readings v ∧
      ¬ (q.guarded = true ∧ s.ring.evicted w.target = true)
  | .planning c w | .asleep c w _ | .woken c w _ | .resumed c w _ => c.request = q ∧
      s.Brought s.ring s.flags s.readings v ∧ ¬ (q.guarded = true ∧ s.ring.evicted w.target = true) ∧
      s.ring.newest < w.target ∧ w.patience.raised s.flags = false

/-- A call of the thread, made and over with that reply while nobody else moved. -/
def SeesThrough (s : System α) (t : Nat) (r : Reply α) (s' : System α) : Prop :=
  ∃ time moves, s.run? (.elapse time :: .call t r.call.request :: moves) = some s' ∧ (∀ m ∈ moves, m.goesOn t = true) ∧
    s'.phase t = .idle ∧ (s'.thread t).replies = r :: (s.thread t).replies

/-- Calls made one after another, by any threads, with these replies. -/
inductive OneByOne : System α → List (Reply α) → System α → Prop
  | nil (s : System α) : OneByOne s [] s
  | cons {s s' s'' : System α} {r : Reply α} {l : List (Reply α)} (t : Nat) : s.SeesThrough t r s' → OneByOne s' l s'' →
      OneByOne s (r :: l) s''

/-- Of replies to calls of which some are to stay, those that stay. -/
def staying (l : List (Bool × Reply α)) : List (Reply α) := (l.filter (·.1)).map (·.2)

/-- Among the calls that are not to stay is one that marks. -/
def omitsMark (l : List (Bool × Reply α)) : Prop := ∃ x ∈ l, x.1 = false ∧ ∃ i, x.2.call.request = .tag i

variable {marks : Prop} {s s' s₂ s₂' u u' v v' : System α} {t : Nat} {q : Request α} {c : Call α} {w : Waiter}
  {m : Move α} {log log₂ : List (Sample α)} {moves : List (Move α)}

theorem outcome_append {a : α} {ring : Ring (Sample α)} {i : Int} {d : Option (Sample α)}
    (h : s.ring.push (s.stamp a) = .ok (i, d) ring) :
    s.outcome (.append a) = ⟨ring, s.flags, s.readings + 1, .index i⟩ := by
  simp only [outcome, h]

theorem outcome_append_error {a : α} {ring : Ring (Sample α)} {p : Panic} (h : s.ring.push (s.stamp a) = .error p ring) :
    s.outcome (.append a) = ⟨ring, s.flags, s.readings + 1, .panicked p⟩ := by
  simp only [outcome, h]

theorem outcome_free (h : q.lockFree = true) :
    s.outcome q = ⟨s.ring, (s.answerFree q).1, s.readings, (s.answerFree q).2⟩ := by
  cases q <;> first | rfl | cases h

theorem outcome_wait {i : Int} (h : q.target? s.settings.start = some i) :
    s.outcome q = ⟨s.ring, s.flags, s.readings, s.waitAlone q i⟩ := by
  cases q <;> cases h <;> rfl

theorem outcome_perform (hl : q.lockFree = false) (ha : ∀ a, q ≠ .append a) (h : q.target? s.settings.start = none) :
    s.outcome q = ⟨(s.ring.perform s.settings.start q).1, s.flags, s.readings, (s.ring.perform s.settings.start q).2⟩ := by
  cases q with
  | append a => exact absurd rfl (ha a)
  | capacity | start | flag a => cases hl
  | read | await | edge | newestValue => cases h
  | _ => rfl

/-! ## From phase to phase -/

theorem Brought.trans {ring : Ring (Sample α)} {flags : Flags} {readings : Nat} (h : s.Brought ring flags readings v)
    (h' : v.Brought v.ring v.flags v.readings v') : s.Brought ring flags readings v' :=
  ⟨h'.settings.trans h.settings, h'.clock.trans h.clock, h'.ring.trans h.ring, h'.flags.trans h.flags,
    h'.readings.trans h.readings⟩

theorem Onward.trans {p : Phase α} (h : s.Onward q v p) (h' : v.Brought v.ring v.flags v.readings v') : s.Onward q v' p := by
  cases p with
  | idle => exact h
  | ready c | entered c => exact ⟨h.1, h.2.trans h'⟩
  | stamped c x => exact ⟨h.1, h.2.1, h.2.2.trans h'⟩
  | pushed c i | unlocked c i =>
    obtain ⟨hc, a, ring, d, hq, he, hb⟩ := h
    exact ⟨hc, a, ring, d, hq, he, hb.trans h'⟩
  | looking c w | planning c w | asleep c w wake | woken c w ranOut | resumed c w ranOut =>
    exact ⟨h.1, h.2.1.trans h', h.2.2⟩

/-- Whether the flag of a wait is raised does not depend on when the wait began. -/
theorem raised_of_for (hf : w.For c s.settings.start s.now) (flags : Flags) :
    w.patience.raised flags = c.request.limit.raised flags := by
  rw [hf.patience, hf.dated.patience, raised_startingAt]

/-- A wait that was given up had not found its index, and not been told that it is evicted. -/
theorem waitAlone_of_lt (he : ¬ (q.guarded = true ∧ s.ring.evicted w.target = true)) (hn : s.ring.newest < w.target) :
    s.waitAlone q w.target =
      if q.limit.raised s.flags then q.refusal (.cancelled w.target) else q.refusal (.timeout w.target (.millis 0)) := by
  unfold waitAlone
  rw [if_neg he, if_neg (by omega)]

/-- The thread's call of `q`, made in `s`, went on to another phase. -/
def GoesOn (s : System α) (t : Nat) (q : Request α) (u u' : System α) : Prop :=
  s.Onward q u' (u'.phase t) ∧ (u'.thread t).replies = (u.thread t).replies

/-- The thread's call of `q`, made in `s`, is over with its outcome. -/
def IsOver (s : System α) (t : Nat) (q : Request α) (u u' : System α) : Prop :=
  ∃ r, r.call.request = q ∧ (u'.thread t).replies = r :: (u.thread t).replies ∧ u'.phase t = .idle ∧ s.Came q r.answer u'

theorem goesOn_become {p : Phase α} (hv : (v.thread t).replies = (u.thread t).replies) (h : s.Onward q (v.become t p) p) :
    s.GoesOn t q u (v.become t p) := by
  unfold GoesOn
  rw [phase_become, if_pos rfl, thread_become, if_pos rfl]
  exact ⟨h, hv⟩

theorem isOver_reply {a : Answer α} {e : Option Event} (hv : (v.thread t).replies = (u.thread t).replies)
    (h : s.Came c.request a (v.reply t c a e)) : s.IsOver t c.request u (v.reply t c a e) := by
  refine ⟨⟨c, a, v.now⟩, rfl, ?_, by simp, h⟩
  rw [thread_reply, if_pos rfl, hv]

theorem came_of_outcome {ring : Ring (Sample α)} {flags : Flags} {readings : Nat} {a : Answer α}
    (ho : s.outcome q = ⟨ring, flags, readings, a⟩) (hb : s.Brought ring flags readings v) : s.Came q a v := by
  refine ⟨?_, ?_⟩
  · rw [ho]
    exact hb
  · rw [ho]

/-- A wait that ends leaves all as it was. -/
theorem isOver_wait {i : Int} {a : Answer α} {e : Option Event} (hb : s.Brought s.ring s.flags s.readings u)
    (ht : c.request.target? u.settings.start = some i) (ha : a.untimed = (s.waitAlone c.request i).untimed) :
    s.IsOver t c.request u (u.release.reply t c a e) := by
  rw [hb.settings] at ht
  refine isOver_reply rfl ⟨?_, ?_⟩
  · rw [outcome_wait ht]
    exact hb.trans ⟨rfl, rfl, rfl, rfl, rfl⟩
  · rw [outcome_wait ht]
    exact ha

/-- A move while nobody else moves takes the call further, or ends it with its outcome. -/
theorem Onward.step (h : s.Onward q u (u.phase t)) (hf : (u.phase t).Fits u)
    (hclock : ∀ n a b, s.clock n a = s.clock n b) (hs : Step u m u') (hm : m.goesOn t = true) :
    s.GoesOn t q u u' ∨ s.IsOver t q u u' := by
  cases hs with
  | elapse time => exact Or.inl ⟨h.trans ⟨rfl, rfl, rfl, rfl, rfl⟩, rfl⟩
  | call => cases hm
  | free _ c hp hl =>
    obtain rfl := eq_of_beq hm
    rw [hp] at h
    obtain ⟨rfl, hb⟩ := h
    have hfree : u.answerFree c.request = s.answerFree c.request := by
      cases c.request <;> simp only [System.answerFree, hb.settings, hb.flags]
    rw [hfree]
    exact Or.inr (isOver_reply rfl (came_of_outcome (outcome_free hl)
      ⟨hb.settings, hb.clock, hb.ring, rfl, hb.readings⟩))
  | enter _ c hp hl hn =>
    obtain rfl := eq_of_beq hm
    rw [hp] at h
    exact Or.inl (goesOn_become rfl ⟨h.1, h.2.trans ⟨rfl, rfl, rfl, rfl, rfl⟩⟩)
  | perform _ c hp hne ht =>
    obtain rfl := eq_of_beq hm
    rw [hp] at h hf
    obtain ⟨rfl, hb⟩ := h
    have hperform : u.ring.perform u.settings.start c.request = s.ring.perform s.settings.start c.request := by
      rw [hb.ring, hb.settings]
    rw [hb.settings] at ht
    rw [hperform]
    exact Or.inr (isOver_reply rfl (came_of_outcome (outcome_perform hf.2 hne ht)
      ⟨hb.settings, hb.clock, rfl, hb.flags, hb.readings⟩))
  -- an append: the clock is read, the sample pushed or not, the sleepers woken
  | stamp _ c a hp hq =>
    obtain rfl := eq_of_beq hm
    rw [hp] at h
    obtain ⟨rfl, hb⟩ := h
    refine Or.inl (goesOn_become rfl ⟨rfl, ⟨a, hq, ?_⟩, hb.settings, hb.clock, hb.ring, hb.flags, ?_⟩)
    · rw [hb.clock, hb.readings]
      exact congrArg (Sample.mk a) (hclock s.readings u.now s.now)
    · exact congrArg (· + 1) hb.readings
  | push _ c x ring i d hp he =>
    obtain rfl := eq_of_beq hm
    rw [hp] at h
    obtain ⟨rfl, ⟨a, hq, rfl⟩, hb⟩ := h
    rw [hb.ring] at he
    exact Or.inl (goesOn_become rfl ⟨rfl, a, ring, d, hq, he, hb.settings, hb.clock, rfl, hb.flags, hb.readings⟩)
  | overflow _ c x p r hp he =>
    obtain rfl := eq_of_beq hm
    rw [hp] at h
    obtain ⟨rfl, ⟨a, hq, rfl⟩, hb⟩ := h
    rw [hb.ring] at he
    exact Or.inr (isOver_reply rfl (came_of_outcome (hq ▸ outcome_append_error he)
      ⟨hb.settings, hb.clock, rfl, hb.flags, hb.readings⟩))
  | unlock _ c i hp =>
    obtain rfl := eq_of_beq hm
    rw [hp] at h
    obtain ⟨hc, a, ring, d, hq, he, hb⟩ := h
    exact Or.inl (goesOn_become rfl ⟨hc, a, ring, d, hq, he, hb.trans ⟨rfl, rfl, rfl, rfl, rfl⟩⟩)
  | notify _ c i hp =>
    obtain rfl := eq_of_beq hm
    rw [hp] at h
    obtain ⟨rfl, a, ring, d, hq, he, hb⟩ := h
    refine Or.inr (isOver_reply ?_ (came_of_outcome (hq ▸ outcome_append he) (hb.trans ⟨rfl, rfl, rfl, rfl, rfl⟩)))
    rw [thread_notifyAll]
  -- a wait: at every look the index and the flag are as they were at the first
  | refuse _ c i hp ht hg he =>
    obtain rfl := eq_of_beq hm
    rw [hp] at h
    obtain ⟨rfl, hb⟩ := h
    refine Or.inr (isOver_wait hb ht ?_)
    rw [hb.ring] at he ⊢
    rw [waitAlone, if_pos ⟨hg, he⟩]
  | begin _ c i hp ht hg =>
    obtain rfl := eq_of_beq hm
    rw [hp] at h
    obtain ⟨rfl, hb⟩ := h
    rw [hb.ring] at hg
    exact Or.inl (goesOn_become rfl ⟨rfl, hb.trans ⟨rfl, rfl, rfl, rfl, rfl⟩, hg⟩)
  | serve _ c w a hp hn he =>
    obtain rfl := eq_of_beq hm
    rw [hp] at h hf
    obtain ⟨rfl, hb, hev⟩ := h
    refine Or.inr (isOver_wait hb hf.target ?_)
    rw [hb.ring] at he hn
    rw [waitAlone, if_neg hev, if_pos hn, Ring.verdict_of_ok he]
  | lapped _ c w e hp hn he =>
    obtain rfl := eq_of_beq hm
    rw [hp] at h hf
    obtain ⟨rfl, hb, hev⟩ := h
    refine Or.inr (isOver_wait hb hf.target ?_)
    rw [hb.ring] at he hn
    rw [waitAlone, if_neg hev, if_pos hn, Ring.verdict_of_error he]
  | cancel _ c w f deadline hp hn hw hraised =>
    obtain rfl := eq_of_beq hm
    rw [hp] at h hf
    obtain ⟨rfl, hb, hev⟩ := h
    refine Or.inr (isOver_wait hb hf.target ?_)
    rw [hb.ring] at hn
    have hup : c.request.limit.raised s.flags = true := by
      rw [← raised_of_for hf, hw, ← hb.flags]
      exact hraised
    rw [waitAlone_of_lt hev hn, if_pos hup]
  | plan _ c w f deadline hp hn hw hdown =>
    obtain rfl := eq_of_beq hm
    rw [hp] at h
    obtain ⟨rfl, hb, hev⟩ := h
    rw [hb.ring] at hn
    refine Or.inl (goesOn_become rfl ⟨rfl, hb.trans ⟨rfl, rfl, rfl, rfl, rfl⟩, hev, hn, ?_⟩)
    rw [hw, ← hb.flags]
    exact hdown
  | sleep _ c w hp hn hw =>
    obtain rfl := eq_of_beq hm
    rw [hp] at h
    obtain ⟨rfl, hb, hev⟩ := h
    rw [hb.ring] at hn
    refine Or.inl (goesOn_become rfl ⟨rfl, hb.trans ⟨rfl, rfl, rfl, rfl, rfl⟩, hev, hn, ?_⟩)
    cases hpatience : w.patience with
    | cancellable f deadline => exact absurd hpatience (hw f deadline)
    | _ => rfl
  | slice _ c w hp | relock _ c w ranOut hp hn | runOut _ c w wake hp hle | stir _ c w wake hp =>
    obtain rfl := eq_of_beq hm
    rw [hp] at h
    exact Or.inl (goesOn_become rfl ⟨h.1, h.2.1.trans ⟨rfl, rfl, rfl, rfl, rfl⟩, h.2.2⟩)
  | again _ c w ranOut hp hl =>
    obtain rfl := eq_of_beq hm
    rw [hp] at h
    exact Or.inl (goesOn_become rfl ⟨h.1, h.2.1.trans ⟨rfl, rfl, rfl, rfl, rfl⟩, h.2.2.1⟩)
  | expire _ c w hp he hn =>
    obtain rfl := eq_of_beq hm
    rw [hp] at h hf
    obtain ⟨rfl, hb, hev, hn', hdown⟩ := h
    obtain ⟨hfor, -⟩ := hf
    refine Or.inr (isOver_wait hb hfor.target ?_)
    rw [raised_of_for hfor] at hdown
    rw [waitAlone_of_lt hev hn', hdown]
    exact untimed_refusal ..

/-! ## Calls seen through -/

/-- While nobody else moves, nothing but time passes for a thread that makes no call. -/
theorem Step.eq_elapse (hs : Step u m u') (hm : m.goesOn t = true) (hi : u.phase t = .idle) :
    ∃ time, u' = u.elapse time := by
  cases hs with
  | elapse time => exact ⟨time, rfl⟩
  | call => cases hm
  | free _ c hp | enter _ c hp | stamp _ c v hp | refuse _ c i hp | begin _ c i hp | perform _ c hp | push _ c x r i d hp
  | overflow _ c x e r hp | unlock _ c i hp | notify _ c i hp | serve _ c w a hp | lapped _ c w e hp | cancel _ c w f d hp
  | plan _ c w f d hp | sleep _ c w hp | slice _ c w hp | relock _ c w r hp | expire _ c w hp | again _ c w r hp
  | runOut _ c w wake hp | stir _ c w wake hp =>
    obtain rfl := eq_of_beq hm
    rw [hi] at hp
    cases hp

theorem IsOver.of_run (h : s.IsOver t q v u) (hr : u.run? moves = some u') (hm : ∀ m ∈ moves, m.goesOn t = true) :
    s.IsOver t q v u' := by
  refine run_invariant (I := fun x => s.IsOver t q v x) ?_ h hr
  rintro x m x' hmem hs ⟨r, hq, hr, hi, hb, ha⟩
  obtain ⟨time, rfl⟩ := hs.eq_elapse (hm m hmem) hi
  exact ⟨r, hq, hr, hi, hb.trans ⟨rfl, rfl, rfl, rfl, rfl⟩, ha⟩

/-- A call that is over while nobody else moved has its outcome. -/
theorem Onward.of_run (h : s.Onward q u (u.phase t)) (hc : u.Coherent log) (hclock : ∀ n a b, s.clock n a = s.clock n b)
    (hr : u.run? moves = some u') (hm : ∀ m ∈ moves, m.goesOn t = true) (hi : u'.phase t = .idle) :
    s.IsOver t q u u' := by
  have hrun : s.GoesOn t q u u' ∨ s.IsOver t q u u' := by
    refine run_prefix_induction (I := fun _ x => s.GoesOn t q u x ∨ s.IsOver t q u x) (Or.inl ⟨h, rfl⟩) ?_ hr
    rintro before x m x' hpre hb hmove ih
    have hs := step_of_move? hmove
    have hgoes : m.goesOn t = true := hm m (hpre.mem (by simp))
    rcases ih with ⟨honward, hrep⟩ | hover
    · rcases honward.step ((hc.of_run hb).fits t) hclock hs hgoes with ⟨honward', hrep'⟩ | ⟨r, hq, hrep', hi', hcame⟩
      · exact Or.inl ⟨honward', hrep'.trans hrep⟩
      · exact Or.inr ⟨r, hq, hrep' ▸ hrep ▸ rfl, hi', hcame⟩
    · have hone : x.run? [m] = some x' := run?_cons_of_move? hmove
      refine Or.inr (hover.of_run hone ?_)
      intro m' hmem
      rw [List.mem_singleton.mp hmem]
      exact hgoes
  rcases hrun with ⟨honward, -⟩ | hover
  · rw [hi] at honward
    exact honward.elim
  · exact hover

/-- A call that is made while nobody else moves, and is over, has its outcome. -/
theorem Coherent.isOver {time : Nat} (h : s.Coherent log) (hclock : ∀ n a b, s.clock n a = s.clock n b)
    (hr : s.run? (.elapse time :: .call t q :: moves) = some s') (hm : ∀ m ∈ moves, m.goesOn t = true)
    (hi : s'.phase t = .idle) : s.IsOver t q s s' := by
  obtain ⟨s₁, hcall, hrest⟩ := Option.bind_eq_some_iff.mp (run?_cons_of_move? (s := s) (m := .elapse time) rfl ▸ hr)
  have hc₁ := (h.step (.elapse time)).step (step_of_move? hcall)
  cases step_of_move? hcall with
  | call _ _ hp =>
    have honward : s.Onward q ((s.elapse time).become t (.ready ((s.elapse time).callOf q)))
        (((s.elapse time).become t (.ready ((s.elapse time).callOf q))).phase t) := by
      rw [phase_become, if_pos rfl]
      exact ⟨rfl, rfl, rfl, rfl, rfl, rfl⟩
    obtain ⟨r, hq, hrep, hidle, hcame⟩ := honward.of_run hc₁ hclock hrest hm hi
    rw [thread_become, if_pos rfl] at hrep
    exact ⟨r, hq, hrep, hidle, hcame⟩

/-- A call seen through has its outcome. -/
theorem Coherent.came {r : Reply α} (h : s.Coherent log) (hclock : ∀ n a b, s.clock n a = s.clock n b)
    (hr : s.SeesThrough t r s') : s.Came r.call.request r.answer s' := by
  obtain ⟨time, moves, hrun, hm, hi, hrep⟩ := hr
  obtain ⟨r', -, hrep', -, hcame⟩ := h.isOver hclock hrun hm hi
  obtain rfl : r' = r := (List.cons.inj (hrep'.symm.trans hrep)).1
  exact hcame

/-- A call that is made while nobody else moves, and is over, was seen through. -/
theorem Coherent.seesThrough {time : Nat} (h : s.Coherent log) (hclock : ∀ n a b, s.clock n a = s.clock n b)
    (hr : s.run? (.elapse time :: .call t q :: moves) = some s') (hm : ∀ m ∈ moves, m.goesOn t = true)
    (hi : s'.phase t = .idle) : ∃ r, r.call.request = q ∧ s.SeesThrough t r s' := by
  obtain ⟨r, rfl, hrep, -⟩ := h.isOver hclock hr hm hi
  exact ⟨r, rfl, time, moves, hr, hm, hi, hrep⟩

theorem SeesThrough.coherent {r : Reply α} (hr : s.SeesThrough t r s') (h : s.Coherent log) :
    ∃ log', s'.Coherent log' := by
  obtain ⟨time, moves, hrun, -⟩ := hr
  exact ⟨_, h.of_run hrun⟩

theorem SeesThrough.clock {r : Reply α} (hr : s.SeesThrough t r s') : s'.clock = s.clock := by
  obtain ⟨time, moves, hrun, -⟩ := hr
  exact run_clock hrun

/-! ## Systems that are the same but for the mark -/

theorem SameBut.stamp (h : s.SameBut marks s₂) (hclock : ∀ n a b, s.clock n a = s.clock n b) (v : α) :
    s₂.stamp v = s.stamp v := by
  unfold System.stamp
  rw [h.clock, h.readings]
  exact congrArg (Sample.mk v) (hclock s.readings s₂.now s.now)

theorem SameBut.waitAlone (h : s.SameBut marks s₂) (q : Request α) (i : Int) : s₂.waitAlone q i = s.waitAlone q i := by
  unfold System.waitAlone Ring.verdict
  rw [h.ring.evicted, h.ring.oldest, h.ring.newest, h.ring.serve, h.flags]

/-- In such systems a request comes to the same, but for the mark and what is told of it. -/
theorem SameBut.outcome (h : s.SameBut marks s₂) (hclock : ∀ n a b, s.clock n a = s.clock n b) (q : Request α) :
    (s.outcome q).SameBut marks q (s₂.outcome q) := by
  by_cases hl : q.lockFree = true
  · rw [outcome_free hl, outcome_free hl, h.answerFree]
    exact ⟨h.ring, rfl, h.readings, Or.inl rfl⟩
  cases ht : q.target? s.settings.start with
  | some i =>
    rw [outcome_wait ht, outcome_wait (h.settings ▸ ht), h.waitAlone]
    exact ⟨h.ring, h.flags, h.readings, Or.inl rfl⟩
  | none =>
    by_cases ha : ∃ v, q = .append v
    · obtain ⟨v, rfl⟩ := ha
      cases he : s.ring.push (s.stamp v) with
      | ok pushed ring =>
        obtain ⟨r₂, he₂, hring⟩ := h.ring.push he
        rw [outcome_append he, outcome_append (h.stamp hclock v ▸ he₂)]
        exact ⟨hring, h.flags, congrArg (· + 1) h.readings, Or.inl rfl⟩
      | error p ring =>
        obtain ⟨r₂, he₂, hring⟩ := h.ring.push_error he
        rw [outcome_append_error he, outcome_append_error (h.stamp hclock v ▸ he₂)]
        exact ⟨hring, h.flags, congrArg (· + 1) h.readings, Or.inl rfl⟩
    · have hl : q.lockFree = false := by simpa using hl
      have ha : ∀ v, q ≠ .append v := fun v e => ha ⟨v, e⟩
      obtain ⟨hring, hanswer⟩ := h.ring.perform s.settings.start q
      rw [outcome_perform hl ha ht, outcome_perform hl ha (h.settings ▸ ht), h.settings]
      exact ⟨hring, h.flags, h.readings, hanswer⟩

/-- A request that looks or marks leaves the series as it is, or marked. -/
theorem outcome_but_mark (hl : q.looks = true ∨ ∃ i, q = .tag i) :
    (s.outcome q).flags = s.flags ∧ (s.outcome q).readings = s.readings ∧
      ((s.outcome q).ring = s.ring ∨ ∃ i, q = .tag i ∧ (s.outcome q).ring = s.ring.tag i) := by
  cases q with
  | append v => rcases hl with hl | ⟨i, hl⟩ <;> cases hl
  | tag i => exact ⟨rfl, rfl, Or.inr ⟨i, rfl, rfl⟩⟩
  | flag a =>
    rcases hl with hl | ⟨i, hl⟩
    · cases a with
      | look n => exact ⟨rfl, rfl, Or.inl rfl⟩
      | _ => cases hl
    · cases hl
  | _ => exact ⟨rfl, rfl, Or.inl rfl⟩

/-- A call seen through that looks or marks leaves such a system. -/
theorem SameBut.of_came {a : Answer α} (h : s.SameBut marks s₂) (hcame : s.Came q a s')
    (hl : q.looks = true ∨ marks ∧ ∃ i, q = .tag i) : s'.SameBut marks s₂ := by
  obtain ⟨hflags, hreadings, hring⟩ := outcome_but_mark (s := s) (hl.imp_right And.right)
  refine ⟨h.settings.trans hcame.left.settings.symm, h.clock.trans hcame.left.clock.symm, ?_,
    h.readings.trans (hcame.left.readings.trans hreadings).symm, h.flags.trans (hcame.left.flags.trans hflags).symm⟩
  rw [hcame.left.ring]
  rcases hring with hring | ⟨i, rfl, hring⟩
  · rw [hring]
    exact h.ring
  · rw [hring]
    rcases hl with hl | ⟨hm, -⟩
    · cases hl
    · exact h.ring.of_tag hm i

/-- Made in such systems, a request is told the same, and leaves such systems. -/
theorem SameBut.came {a a₂ : Answer α} (h : s.SameBut marks s₂) (hclock : ∀ n a b, s.clock n a = s.clock n b)
    (hcame : s.Came q a s') (hcame₂ : s₂.Came q a₂ s₂') :
    s'.SameBut marks s₂' ∧ q.SameBut marks a.untimed a₂.untimed := by
  have ho := h.outcome hclock q
  refine ⟨⟨?_, ?_, ?_, ?_, ?_⟩, ?_⟩
  · rw [hcame₂.left.settings, h.settings, hcame.left.settings]
  · rw [hcame₂.left.clock, h.clock, hcame.left.clock]
  · rw [hcame.left.ring, hcame₂.left.ring]
    exact ho.ring
  · rw [hcame.left.readings, hcame₂.left.readings, ho.readings]
  · rw [hcame.left.flags, hcame₂.left.flags, ho.flags]
  · rw [hcame.answer, hcame₂.answer]
    exact ho.answer.untimed

/-! ## Calls one after another -/

/-- Two runs of calls one after another stay the same if the second is the first without calls that
    look, or mark if `marks` holds: `l` are the replies of the first run, `true` with those that stay. -/
theorem sameBut_of_oneByOne (h : s.SameBut marks s₂) (hc : s.Coherent log) (hc₂ : s₂.Coherent log₂)
    (hclock : ∀ n a b, s.clock n a = s.clock n b) {l : List (Bool × Reply α)} {l₂ : List (Reply α)}
    (hr : s.OneByOne (l.map (·.2)) s') (hr₂ : s₂.OneByOne l₂ s₂')
    (hl : ∀ x ∈ l, x.1 = false → x.2.call.request.looks = true ∨ marks ∧ ∃ i, x.2.call.request = .tag i)
    (hsame : List.Forall₂ (fun r r₂ => r₂.call.request = r.call.request) (staying l) l₂) :
    s'.SameBut marks s₂' ∧ List.Forall₂ (fun r r₂ => r.call.request.SameBut marks r.answer.untimed r₂.answer.untimed)
      (staying l) l₂ := by
  induction l generalizing s s₂ log log₂ l₂ with
  | nil =>
    cases hsame
    cases hr
    cases hr₂
    exact ⟨h, .nil⟩
  | cons x l ih =>
    obtain ⟨stays, r⟩ := x
    obtain ⟨hidle, hlater⟩ := List.forall_mem_cons.mp hl
    cases hr with
    | cons t hsees hrest =>
      obtain ⟨log', hc'⟩ := hsees.coherent hc
      have hclock' : ∀ n a b, _ = _ := fun n a b => hsees.clock ▸ hclock n a b
      have hcame := hc.came hclock hsees
      cases stays with
      | false => exact ih (h.of_came hcame (hidle rfl)) hc' hc₂ hclock' hrest hr₂ hlater hsame
      | true =>
        cases hsame with
        | cons hq hsame =>
          cases hr₂ with
          | cons t₂ hsees₂ hrest₂ =>
            obtain ⟨log₂', hc₂'⟩ := hsees₂.coherent hc₂
            have hcame₂ := hc₂.came (by rw [h.clock]; exact hclock) hsees₂
            rw [hq] at hcame₂
            obtain ⟨h', hanswer⟩ := h.came hclock hcame hcame₂
            obtain ⟨hend, hanswers⟩ := ih h' hc' hc₂' hclock' hrest hrest₂ hlater hsame
            exact ⟨hend, .cons hanswer hanswers⟩

end System

end Chronicle
