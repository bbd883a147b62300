/-
  Chronicle.Proofs.Counts — how many elements there are, and how many there ever were.

  `tally settings n q` is what a request for a number is answered when `n` elements were
  appended in all, however many of them were evicted since, and whatever else was asked on the
  way. The count of them all is made of indices, newest less first plus one, and the ends of
  the range bound what it can tell: it is exact as long as it is an index itself, and a panic
  beyond, where there are still as many appends to come as there are indices left.

  Proved: a request for a number is answered so at once, and changes nothing but the thread
  that makes it, panic or not (`answersQuietly_of_tally`); so was every one that was answered
  on the way (`Coherent.tallied`). A series takes as many appends as there are indices from
  its first one on (`exists_run_of_length`). Together: `counts_exact`.
-/

import Chronicle.Proofs.Ring.Bounds
import Chronicle.Proofs.System.Alone
import Chronicle.Proofs.System.Told

namespace Chronicle

variable {α : Type}

/-! ## The numbers -/

/-- What a request for a number is answered when `n` elements were appended. -/
def tally (settings : Settings) (n : Nat) : Request α → Option (Answer α)
  | .length => some (.count (min n settings.capacity.toNat))
  | .isEmpty => some (.truth (n = 0))
  | .capacity => some (.count settings.capacity.toNat)
  | .start => some (.index settings.start)
  | .countAppended =>
    some (if (n : Int) ≤ Index.greatest then .count n
      else .panicked (if (n : Int) = Index.greatest + 1 then .addOverflow else .subtractOverflow))
  | _ => none

theorem tally_of_target? {settings : Settings} {n : Nat} {q : Request α} {start i : Int}
    (h : q.target? start = some i) : tally settings n q = none := by
  cases q <;> first | rfl | cases h

namespace Ring.Window

variable {σ : Type} {r : Ring σ} {start : Int} {log : List σ}

/-- The elements that are retained are those that were pushed, up to the number of slots. -/
theorem length_eq_min (h : r.Window start log) : r.length = .ok (min log.length r.capacity) := by
  have hnewest := h.newest_eq
  have holdest := h.oldest_eq
  rw [h.length_eq, Except.ok.injEq]
  omega

/-- The count of all elements is exact as long as it is an index. -/
theorem countPushed_eq (h : r.Window start log) :
    r.countPushed start = if (log.length : Int) ≤ Index.greatest then .ok log.length
      else .error (if (log.length : Int) = Index.greatest + 1 then .addOverflow else .subtractOverflow) := by
  have hlast : r.newest - start = log.length - 1 := by
    have := h.newest_eq
    omega
  unfold countPushed Index.difference
  rw [hlast]
  simp only [bind, Except.bind, pure, Except.pure]
  rcases Int.lt_trichotomy log.length (Index.greatest + 1) with hlt | heq | hgt
  · have hspan : Index.InRange ((log.length : Int) - 1) := by
      unfold Index.InRange Index.least Index.greatest at *
      omega
    have hcount : Index.InRange ((log.length : Int) - 1 + 1) := by
      unfold Index.InRange Index.least Index.greatest at *
      omega
    rw [if_pos hspan, if_pos (by omega)]
    simp only [Index.sum_of_inRange hcount, Except.ok.injEq]
    omega
  · have hspan : Index.InRange ((log.length : Int) - 1) := by
      unfold Index.InRange Index.least Index.greatest at *
      omega
    rw [if_pos hspan, if_neg (by omega), if_pos heq]
    simp only [heq, Int.add_sub_cancel, Index.succ_greatest]
  · have hspan : ¬ Index.InRange ((log.length : Int) - 1) := by
      unfold Index.InRange Index.least Index.greatest at *
      omega
    rw [if_neg hspan, if_neg (by omega), if_neg (by omega)]

end Ring.Window

namespace System

variable {s s' u u' : System α} {t : Nat} {q : Request α} {a : Answer α} {log : List (Sample α)}
  {moves : List (Move α)}

/-! ## Requests that change nothing -/

/-- Made now, the request is answered at once, and nothing but the thread itself is changed. -/
def AnswersQuietly (s : System α) (t : Nat) (q : Request α) (a : Answer α) : Prop :=
  ∃ s', s.ask? t q = some s' ∧ s.Untouched t s' ∧ s'.holder = s.holder ∧ s'.phase t = .idle ∧
    (s'.thread t).replies = ⟨s.callOf q, a, s.now⟩ :: (s.thread t).replies

theorem answersQuietly_free (hi : s.phase t = .idle) (hl : q.lockFree = true) (hf : (s.answerFree q).1 = s.flags) :
    s.AnswersQuietly t q (s.answerFree q).2 := by
  have hcall : s.call? t q = some (s.become t (.ready (s.callOf q))) := by simp [call?, hi, callOf]
  have hfree : (s.become t (.ready (s.callOf q))).answerFree q = s.answerFree q := by cases q <;> rfl
  have hstep := step?_free (s := s.become t (.ready (s.callOf q))) (t := t) (c := s.callOf q) (by simp) hl
  change (s.become t (.ready (s.callOf q))).step? t = some
    ({ s.become t (.ready (s.callOf q)) with flags := ((s.become t (.ready (s.callOf q))).answerFree q).1 }.reply t
      (s.callOf q) ((s.become t (.ready (s.callOf q))).answerFree q).2 none) at hstep
  rw [hfree, hf] at hstep
  refine ⟨(s.become t (.ready (s.callOf q))).reply t (s.callOf q) (s.answerFree q).2 none, ?_, ?_, rfl, ?_, ?_⟩
  · rw [ask?, hcall, Option.map_some, rest, mostSteps, drive_step hstep, drive_stop (step?_idle (by simp))]
    rfl
  · refine ⟨rfl, rfl, rfl, rfl, rfl, rfl, ?_⟩
    intro u hu
    rw [thread_reply, if_neg (Ne.symm hu), thread_become, if_neg (Ne.symm hu)]
  · simp
  · rw [thread_reply, if_pos rfl, thread_become, if_pos rfl]
    rfl

/-- The step of a request that needs the lock and no wait. -/
theorem enter_performs {c : Call α} (hne : ∀ v, c.request ≠ .append v)
    (ht : c.request.target? s.settings.start = none) :
    s.enter t c = { s with ring := (s.ring.perform s.settings.start c.request).1 }.release.reply t c
      (s.ring.perform s.settings.start c.request).2 none := by
  unfold enter
  split
  · rename_i v hq
    exact absurd hq (hne v)
  · simp only [ht]

theorem answersQuietly_perform (hi : s.phase t = .idle) (hh : s.holder = none) (hl : q.lockFree = false)
    (hne : ∀ v, q ≠ .append v) (ht : q.target? s.settings.start = none)
    (hr : (s.ring.perform s.settings.start q).1 = s.ring) :
    s.AnswersQuietly t q (s.ring.perform s.settings.start q).2 := by
  have hstep := step?_entered (s := s.entering t q) phase_entering
  rw [enter_performs (s := s.entering t q) (c := s.callOf q) hne ht] at hstep
  change (s.entering t q).step? t = some ({ s.entering t q with ring := (s.ring.perform s.settings.start q).1
    }.release.reply t (s.callOf q) (s.ring.perform s.settings.start q).2 none) at hstep
  rw [hr] at hstep
  refine ⟨(s.entering t q).release.reply t (s.callOf q) (s.ring.perform s.settings.start q).2 none, ?_,
    untouched_entering.trans (untouched_reply _ _ _), hh.symm, by simp, ?_⟩
  · rw [ask?_eq hi hh hl, drive_step hstep, drive_stop (step?_idle (by simp))]
    rfl
  · rw [thread_reply, if_pos rfl, thread_release, replies_entering]
    rfl

/-! ## Requests for a number -/

theorem answerFree_of_tally {n : Nat} (hl : q.lockFree = true) (h : tally s.settings n q = some a) :
    (s.answerFree q).1 = s.flags ∧ (s.answerFree q).2 = a := by
  cases q with
  | capacity | start => cases h; exact ⟨rfl, rfl⟩
  | handle | flag action => cases h
  | _ => cases hl

/-- Answered with the lock, a request for a number is told how many there were. -/
theorem Coherent.perform_of_tally (hc : s.Coherent log) (hl : q.lockFree = false)
    (h : tally s.settings log.length q = some a) :
    (s.ring.perform s.settings.start q).1 = s.ring ∧ (s.ring.perform s.settings.start q).2 = a := by
  have hlength := hc.window.length_eq_min
  rw [hc.capacity] at hlength
  cases q with
  | length =>
    cases h
    exact ⟨rfl, by simp only [Ring.perform, hlength, Answer.ofCount]⟩
  | isEmpty =>
    cases h
    refine ⟨rfl, ?_⟩
    have hpos := hc.window.capacity_pos
    rw [hc.capacity] at hpos
    simp only [Ring.perform, hlength, Answer.truth.injEq, decide_eq_decide]
    omega
  | countAppended =>
    cases h
    refine ⟨rfl, ?_⟩
    simp only [Ring.perform, hc.window.countPushed_eq]
    split <;> rfl
  | capacity | start => cases hl
  | _ => cases h

theorem Coherent.answersQuietly_of_tally (hc : s.Coherent log) (h : tally s.settings log.length q = some a)
    (hi : s.phase t = .idle) (hh : q.lockFree = true ∨ s.holder = none) : s.AnswersQuietly t q a := by
  cases hl : q.lockFree with
  | true =>
    obtain ⟨hf, rfl⟩ := answerFree_of_tally hl h
    exact answersQuietly_free hi hl hf
  | false =>
    obtain ⟨hr, rfl⟩ := hc.perform_of_tally hl h
    have hfree : s.holder = none := hh.resolve_left (by rw [hl]; exact Bool.false_ne_true)
    refine answersQuietly_perform hi hfree hl ?_ ?_ hr
    · rintro v rfl
      cases h
    · cases ht : q.target? s.settings.start with
      | none => rfl
      | some i => rw [tally_of_target? ht] at h; cases h

/-- A request for a number that is answered by a step is told how many there were then. -/
theorem Coherent.tallied (hc : u.Coherent log) (hs : Step u (.step t) u') {r : Reply α}
    (hr : (u'.thread t).replies = r :: (u.thread t).replies)
    (h : tally u.settings log.length r.call.request = some a) : r.answer = a := by
  cases hc.ended hs hr with
  | free c hp hl => exact (answerFree_of_tally hl h).2
  | performed c hp hl => exact (hc.perform_of_tally hl h).2
  | failed c x p hp hq =>
    rw [show c.request = _ from hq] at h
    cases h
  | returned c v j hp hq =>
    rw [show c.request = _ from hq] at h
    cases h
  | told c i b ht =>
    rw [show tally _ _ c.request = _ from tally_of_target? ht] at h
    cases h

/-! ## How many there can be -/

theorem exists_run_of_drive (s : System α) (t n : Nat) : ∃ later, s.run? later = some (s.drive t n) := by
  induction n generalizing s with
  | zero => exact ⟨[], rfl⟩
  | succ n ih =>
    cases hs : s.step? t with
    | none => exact ⟨[], by rw [drive_stop hs]; rfl⟩
    | some u =>
      obtain ⟨later, hr⟩ := ih u
      refine ⟨.step t :: later, ?_⟩
      rw [run?_cons_of_move? (m := .step t) hs, drive_step hs, hr]

/-- What a request made alone comes to is the end of a schedule. -/
theorem exists_run_of_ask? (h : s.ask? t q = some s') : ∃ later, s.run? later = some s' := by
  obtain ⟨u, hcall, rfl⟩ := Option.map_eq_some_iff.mp h
  obtain ⟨later, hr⟩ := exists_run_of_drive u t mostSteps
  exact ⟨.call t q :: later, (run?_cons_of_move? (m := .call t q) hcall).trans hr⟩

variable {o : Opening} {memory : Memory} {clock : Clock} {now : Nat} {s₀ : System α}

/-- There are as many appends as there are indices from the first one on. -/
theorem exists_run_of_length (ho : (o.run memory clock now).2 = .opened s₀) (v : α) (n : Nat)
    (hn : o.settings.start + n - 1 ≤ Index.greatest) :
    ∃ moves s, s₀.run? moves = some s ∧ (s₀.log moves).length = n ∧ s.phase 0 = .idle ∧ s.holder = none := by
  induction n with
  | zero =>
    obtain ⟨-, ring, -, rfl⟩ := Opening.eq_initial_of_opened ho
    exact ⟨[], _, rfl, rfl, by simp [phase], rfl⟩
  | succ n ih =>
    obtain ⟨moves, s, hr, hlen, hi, hh⟩ := ih (by omega)
    have hw := (Coherent.of_reached ho hr).window
    rw [settings_of_reached ho hr] at hw
    have hnewest := hw.newest_eq
    have hpush := hw.push_eq (x := s.stamp v) (by omega)
    obtain ⟨s', hask, happended, -⟩ := ask?_append hi hh hpush
    obtain ⟨later, hlater⟩ := exists_run_of_ask? hask
    have hr' : s₀.run? (moves ++ later) = some s' := by rw [run?_append_of_run? hr, hlater]
    refine ⟨moves ++ later, s', hr', ?_, happended.idle, happended.holder⟩
    have hw' := (Coherent.of_reached ho hr').window
    rw [settings_of_reached ho hr'] at hw'
    have hnewest' := hw'.newest_eq
    rw [happended.ring] at hnewest'
    change s.ring.newest + 1 = _ at hnewest'
    omega

/-- At every moment the series tells how many elements there are and how many there ever were, and
    nothing else comes of asking. The count of them all is exact up to the greatest index, and a panic
    beyond; there are only so many if the first index is not above zero, and never more than 64 bits
    can count. -/
theorem counts_exact (ho : (o.run memory clock now).2 = .opened s₀) (hr : s₀.run? moves = some s) :
    (∀ t q a, tally o.settings (s₀.log moves).length q = some a → s.phase t = .idle →
      q.lockFree = true ∨ s.holder = none → s.AnswersQuietly t q a) ∧
    (∀ t r, r ∈ (s.thread t).replies → ∃ before u u', s₀.EndedBy t r moves before u u' ∧
      ∀ a, tally o.settings (s₀.log before).length r.call.request = some a → r.answer = a) ∧
    (s₀.log moves).length < UInt64.size ∧
    (Index.greatest < (s₀.log moves).length → o.settings.start ≤ 0) ∧
    (o.settings.start ≤ 0 → Nonempty α → ∃ moves' s', s₀.run? moves' = some s' ∧
      Index.greatest < (s₀.log moves').length ∧ s'.phase 0 = .idle ∧ s'.holder = none) := by
  have hc := Coherent.of_reached ho hr
  have hset := settings_of_reached ho hr
  have hnewest := hc.window.newest_eq
  have hlast := hc.window.newest_le
  have hfirst := hc.window.start_gt
  rw [hset] at hnewest hfirst
  refine ⟨?_, ?_, ?_, ?_, ?_⟩
  · intro t q a h hi hh
    exact hc.answersQuietly_of_tally (by rw [hset]; exact h) hi hh
  · intro t r hmem
    obtain ⟨before, u, u', hended⟩ := ended_of_reached ho hr hmem
    obtain ⟨-, hb, hstep, hrep⟩ := id hended
    refine ⟨before, u, u', hended, ?_⟩
    intro a h
    rw [← settings_of_reached ho hb] at h
    exact (Coherent.of_reached ho hb).tallied (step_of_move? hstep) hrep h
  · unfold Index.greatest at hlast
    unfold Index.least at hfirst
    unfold UInt64.size
    omega
  · intro hmany
    omega
  · rintro hstart ⟨v⟩
    have hmax : (Index.greatest + 1).toNat = Index.greatest + 1 := by decide
    obtain ⟨moves', s', hr', hlen, hi, hh⟩ := exists_run_of_length ho v (Index.greatest + 1).toNat (by omega)
    exact ⟨moves', s', hr', by omega, hi, hh⟩

/-- Of three elements appended to two slots two are there, and three are counted. After one more append
    than there are indices above zero the count is a panic, and that there are two is still told. -/
theorem counts_exact_lapped :
    ∃ s moves s', small.run? (appendAlone 0 10 ++ appendAlone 0 20 ++ appendAlone 0 30) = some s ∧
      s.AnswersQuietly 0 .length (.count 2) ∧ s.AnswersQuietly 0 .isEmpty (.truth false) ∧
      s.AnswersQuietly 0 .countAppended (.count 3) ∧ s.AnswersQuietly 0 .start (.index (-1)) ∧
      small.run? moves = some s' ∧ s'.AnswersQuietly 0 .length (.count 2) ∧
      ∃ p, s'.AnswersQuietly 0 .countAppended (.panicked p) := by
  have hrun : (small.run? (appendAlone 0 10 ++ appendAlone 0 20 ++ appendAlone 0 30)).any
      (fun s => (s.phase 0).isIdle && s.holder.isNone) = true := by decide +kernel
  obtain ⟨s, hr, hs⟩ := exists_run hrun
  simp only [Bool.and_eq_true, Option.isNone_iff_eq_none] at hs
  have hlen : (small.log (appendAlone 0 10 ++ appendAlone 0 20 ++ appendAlone 0 30)).length = 3 := by decide +kernel
  obtain ⟨hcounts, -, -, -, hmany⟩ := counts_exact small_opened hr
  rw [hlen] at hcounts
  have hnow : ∀ q a, tally ⟨2, -1, .millis 10⟩ 3 q = some a → s.AnswersQuietly 0 q a := by
    intro q a h
    exact hcounts 0 q a h (Phase.eq_idle hs.1) (.inr hs.2)
  obtain ⟨moves, s', hr', hmost, hidle, hfree⟩ := hmany (by decide) ⟨0⟩
  obtain ⟨hcounts', -⟩ := counts_exact small_opened hr'
  have hlength : s'.AnswersQuietly 0 .length (.count 2) := by
    refine hcounts' 0 .length _ ?_ hidle (.inr hfree)
    have htwo : min (small.log moves).length 2 = 2 := by
      unfold Index.greatest at hmost
      omega
    exact congrArg (fun n => some (Answer.count n)) htwo
  have hcount := hcounts' 0 .countAppended _ rfl hidle (.inr hfree)
  rw [if_neg (by omega)] at hcount
  exact ⟨s, moves, s', hr, hnow .length _ rfl, hnow .isEmpty _ rfl, hnow .countAppended _ rfl, hnow .start _ rfl, hr',
    hlength, _, hcount⟩

end System

end Chronicle
