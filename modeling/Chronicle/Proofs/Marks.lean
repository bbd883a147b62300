/-
  Chronicle.Proofs.Marks — whether the newest index is another than the marked one.

  A series keeps the last index it was told to mark, and tells whether its newest one differs
  from it. `s.marks moves` is what a schedule marks, in order, each index in the state in which
  its thread has the lock. Only these moves change the mark (`Coherent.tagged_step`), so after a
  run it is the last of them (`Coherent.tagged_of_run`); and only a push changes the newest
  index, which it takes one further. So between two marks the newest index passes each index
  once, in order, and is the marked one for as long as it stays there.

  Proved: `change_told_from_marks`.
-/

import Chronicle.Proofs.Counts

namespace Chronicle

variable {α : Type}

/-! ## The comparison -/

theorem Ring.changedSinceTag_iff {σ : Type} {r : Ring σ} : r.changedSinceTag = true ↔ r.newest ≠ r.tagged := by
  unfold changedSinceTag
  rw [bne_iff_ne, ne_comm]

theorem Ring.changedSinceTag_eq_false_iff {σ : Type} {r : Ring σ} : r.changedSinceTag = false ↔ r.newest = r.tagged := by
  rw [← Bool.not_eq_true, changedSinceTag_iff, ne_eq, Decidable.not_not]

theorem Ring.tagged_of_empty? {σ : Type} {r : Ring σ} {memory : Memory} {capacity : Nat} {start : Int}
    (h : empty? memory capacity start = .ok (some r)) : r.tagged = start - 1 := by
  obtain ⟨-, -, rfl⟩ := empty?_eq_some_iff.mp h
  rfl

namespace System

variable {s s' u u' : System α} {t : Nat} {i : Int} {m : Move α} {log : List (Sample α)} {moves later : List (Move α)}

def mark? (s : System α) : Move α → Option Int
  | .step t =>
    match s.phase t with
    | .entered c =>
      match c.request with
      | .tag i => some i
      | _ => none
    | _ => none
  | _ => none

def marks (s : System α) (moves : List (Move α)) : List Int := s.gather mark? moves

/-- The moves of a thread that marks an index and is left alone: the call, the lock, the mark. -/
def markAlone (t : Nat) (i : Int) : List (Move α) := [.call t (.tag i), .step t, .step t]

/-! ## The mark -/

theorem mark?_eq_none {c : Call α} (hp : s.phase t = .entered c) (hc : ∀ i, c.request ≠ .tag i) :
    s.mark? (.step t) = none := by
  cases hq : c.request with
  | tag i => exact absurd hq (hc i)
  | _ => simp [mark?, hp, hq]

/-- A step changes the mark only where it marks an index. -/
theorem Coherent.tagged_step (h : s.Coherent log) (hs : Step s m s') :
    s'.ring.tagged = (s.mark? m).getD s.ring.tagged := by
  cases hs with
  | perform t c hp hne ht =>
    cases hq : c.request with
    | tag i => simp [mark?, hp, hq, Ring.perform, Ring.tag, release, reply]
    | append v => exact absurd hq (hne v)
    | _ => simp [mark?, hp, hq, Ring.perform, release, reply]
  | push t c x r i d hp he =>
    rw [(h.window.push he).2.1]
    simp only [mark?, hp]
    rfl
  | overflow t c x p r hp he =>
    rw [h.window.eq_of_push_error he]
    simp only [mark?, hp]
    rfl
  | stamp t c v hp hq =>
    rw [mark?_eq_none hp (by intro j e; rw [e] at hq; cases hq)]
    rfl
  | refuse t c i hp ht | begin t c i hp ht =>
    rw [mark?_eq_none hp (by intro j e; rw [e] at ht; cases ht)]
    rfl
  | call | runOut | stir | elapse => rfl
  | free t c hp | enter t c hp | unlock t c i hp | notify t c i hp | serve t c w a hp
  | lapped t c w e hp | cancel t c w f d hp | plan t c w f d hp | sleep t c w hp | slice t c w hp | relock t c w r hp
  | expire t c w hp | again t c w r hp =>
    simp only [mark?, hp]
    rfl

/-- After a run the mark is the last one it made, or the one from before. -/
theorem Coherent.tagged_of_run (h : s.Coherent log) (hr : s.run? moves = some s') :
    s'.ring.tagged = (s.marks moves).getLastD s.ring.tagged := by
  refine run_prefix_induction (I := fun before u => u.ring.tagged = (s.marks before).getLastD s.ring.tagged) rfl ?_ hr
  intro before u m u' _ hb hm ih
  rw [(h.of_run hb).tagged_step (step_of_move? hm), ih]
  unfold marks
  rw [gather_concat hb hm]
  cases u.mark? m with
  | none => simp
  | some i => simp

theorem Coherent.newest_run (h : s.Coherent log) (hr : s.run? moves = some s') :
    s'.ring.newest = s.ring.newest + (s.log moves).length := by
  have hnewest := h.window.newest_eq
  have hnewest' := (h.of_run hr).window.newest_eq
  rw [run_settings hr, List.length_append] at hnewest'
  omega

/-! ## The calls -/

/-- The index is marked at once, and nothing else is changed but what is known of the thread. -/
theorem run?_markAlone (hi : s.phase t = .idle) (hh : s.holder = none) :
    ∃ s', s.run? (markAlone t i) = some s' ∧ s.marks (markAlone t i) = [i] ∧
      { s with ring := s.ring.tag i }.Untouched t s' ∧ s'.holder = none ∧ s'.phase t = .idle ∧
      (s'.thread t).replies = ⟨s.callOf (.tag i), .done, s.now⟩ :: (s.thread t).replies := by
  let ready := s.become t (.ready (s.callOf (.tag i)))
  have hcall : s.move? (.call t (.tag i)) = some ready := by simp [move?, call?, hi, ready, callOf]
  have hready : ready.move? (.step t) = some (s.entering t (.tag i)) := step?_ready (by simp [ready]) rfl hh
  have hentered := step?_entered (s := s.entering t (.tag i)) phase_entering
  rw [enter_performs (s := s.entering t (.tag i)) (c := s.callOf (.tag i)) (by intro v e; cases e) rfl] at hentered
  have hmarks : s.marks (markAlone t i) = [i] := by
    unfold marks markAlone
    rw [gather_cons_of_move? hcall, gather_cons_of_move? hready, gather_cons_of_move? (m := .step t) hentered]
    simp [mark?, phase_entering, ready, callOf, gather]
  refine ⟨{ s.entering t (.tag i) with ring := s.ring.tag i }.release.reply t (s.callOf (.tag i)) .done none, ?_, hmarks,
    ?_, rfl, by simp, ?_⟩
  · unfold markAlone
    rw [run?_cons_of_move? hcall, run?_cons_of_move? hready, run?_cons_of_move? (m := .step t) hentered]
    rfl
  · have h := untouched_entering (s := { s with ring := s.ring.tag i }) (t := t) (q := .tag i)
    exact h.trans (untouched_reply _ _ _)
  · rw [thread_reply, if_pos rfl, thread_release]
    exact congrArg (_ :: ·) replies_entering

/-- Asked with the lock whether the newest index is another than the marked one, the series says so. -/
theorem Coherent.change_told (h : u.Coherent log) (hs : Step u (.step t) u') {r : Reply α}
    (hr : (u'.thread t).replies = r :: (u.thread t).replies) (hq : r.call.request = .changedSinceTag) :
    r.answer = .truth u.ring.changedSinceTag := by
  cases h.ended hs hr with
  | performed c => rw [show c.request = _ from hq]; rfl
  | free c hp hl => rw [show c.request = _ from hq] at hl; cases hl
  | failed c x p hp hc | returned c v j hp hc => rw [show c.request = _ from hq] at hc; cases hc
  | told c j a ht => rw [show c.request = _ from hq] at ht; cases ht

variable {o : Opening} {memory : Memory} {clock : Clock} {now : Nat} {s₀ : System α}

/-- A series that was opened has the index before its first one for a mark. -/
theorem tagged_of_reached (ho : (o.run memory clock now).2 = .opened s₀) (hr : s₀.run? moves = some s) :
    s.ring.tagged = (s₀.marks moves).getLastD (o.settings.start - 1) := by
  rw [(Coherent.of_opened ho).tagged_of_run hr]
  obtain ⟨-, ring, hring, rfl⟩ := Opening.eq_initial_of_opened ho
  rw [← Ring.tagged_of_empty? hring]
  rfl

/-- The series tells that its newest index changed exactly when it is another than the last marked
    one, or than the one before the first while there is none. So between two marks: if the newest index
    was marked, from the next push on; if an earlier one was, at once and whatever is evicted; if a
    later one was, except for as long as it is the newest. -/
theorem change_told_from_marks (ho : (o.run memory clock now).2 = .opened s₀) (hr : s₀.run? moves = some s) :
    (s.ring.changedSinceTag = true ↔ s.ring.newest ≠ (s₀.marks moves).getLastD (o.settings.start - 1)) ∧
    (∀ t, s.phase t = .idle → s.holder = none →
      s.AnswersQuietly t .changedSinceTag (.truth s.ring.changedSinceTag) ∧
      ∀ i, ∃ s', s.run? (markAlone t i) = some s' ∧ s.marks (markAlone t i) = [i] ∧
        { s with ring := s.ring.tag i }.Untouched t s' ∧ s'.holder = none ∧ s'.phase t = .idle ∧
        (s'.thread t).replies = ⟨s.callOf (.tag i), .done, s.now⟩ :: (s.thread t).replies) ∧
    (∀ t r, r ∈ (s.thread t).replies → r.call.request = .changedSinceTag →
      ∃ before u u', s₀.EndedBy t r moves before u u' ∧ r.answer = .truth u.ring.changedSinceTag ∧
        (u.ring.changedSinceTag = true ↔ u.ring.newest ≠ (s₀.marks before).getLastD (o.settings.start - 1))) ∧
    (∀ later s' i, s.run? later = some s' → s.marks later = [] → i = (s₀.marks moves).getLastD (o.settings.start - 1) →
      s'.ring.newest = s.ring.newest + (s.log later).length ∧
      (s.ring.newest = i → (s'.ring.changedSinceTag = true ↔ s.log later ≠ [])) ∧
      (i < s.ring.newest → s'.ring.changedSinceTag = true) ∧
      (s.ring.newest < i → (s'.ring.changedSinceTag = false ↔ s'.ring.newest = i))) ∧
    (s₀.marks moves = [] → (s.ring.changedSinceTag = true ↔ s₀.log moves ≠ [])) := by
  have hc := Coherent.of_reached ho hr
  have htagged := tagged_of_reached ho hr
  refine ⟨by rw [Ring.changedSinceTag_iff, htagged], ?_, ?_, ?_, ?_⟩
  · intro t hi hh
    refine ⟨answersQuietly_perform hi hh rfl (by rintro v ⟨⟩) rfl rfl, ?_⟩
    intro i
    exact run?_markAlone hi hh
  · intro t r hmem hq
    obtain ⟨before, u, u', hended⟩ := ended_of_reached ho hr hmem
    obtain ⟨-, hb, hstep, hrep⟩ := id hended
    refine ⟨before, u, u', hended, (Coherent.of_reached ho hb).change_told (step_of_move? hstep) hrep hq, ?_⟩
    rw [Ring.changedSinceTag_iff, tagged_of_reached ho hb]
  · intro later s' i hlater hnone hi
    have hnewest := hc.newest_run hlater
    have hsame : s'.ring.tagged = i := by
      rw [hc.tagged_of_run hlater, hnone, hi]
      exact htagged
    have hlength : (s.log later).length = 0 ↔ s.log later = [] := List.length_eq_zero_iff
    rw [Ring.changedSinceTag_iff, Ring.changedSinceTag_eq_false_iff, hsame]
    refine ⟨hnewest, ?_, ?_, ?_⟩
    · intro hmarked
      rw [ne_eq, ne_eq, ← hlength]
      omega
    · intro hlt
      omega
    · intro _
      rfl
  · intro hnone
    have hnewest := hc.window.newest_eq
    rw [settings_of_reached ho hr] at hnewest
    rw [hnone] at htagged
    have hlength : (s₀.log moves).length = 0 ↔ s₀.log moves = [] := List.length_eq_zero_iff
    rw [Ring.changedSinceTag_iff, htagged, ne_eq, ne_eq, ← hlength, List.getLastD_nil]
    omega

/-- An index is marked two appends ahead, in a series that has one element. That the newest one changed
    is told at once, not after these two appends, of which the second evicts, and again after a third. -/
theorem change_told_from_marks_ahead :
    ∃ s s' s'' : System Nat, small.run? (appendAlone 0 10 ++ markAlone 1 1) = some s ∧
      s.run? (appendAlone 0 20 ++ appendAlone 0 30) = some s' ∧
      s.run? (appendAlone 0 20 ++ appendAlone 0 30 ++ appendAlone 0 40) = some s'' ∧
      s.AnswersQuietly 1 .changedSinceTag (.truth true) ∧ s'.ring.changedSinceTag = false ∧
      s''.ring.changedSinceTag = true := by
  have hrun : (small.run? (appendAlone 0 10 ++ markAlone 1 1)).any (fun s =>
      (s.phase 1).isIdle && s.holder.isNone && decide (s.ring.newest = -1) &&
      decide (s.marks (appendAlone 0 20 ++ appendAlone 0 30) = []) &&
      decide (s.marks (appendAlone 0 20 ++ appendAlone 0 30 ++ appendAlone 0 40) = []) &&
      (s.run? (appendAlone 0 20 ++ appendAlone 0 30)).any (fun s' => decide (s'.ring.newest = 1)) &&
      (s.run? (appendAlone 0 20 ++ appendAlone 0 30 ++ appendAlone 0 40)).any
        fun s'' => decide (s''.ring.newest = 2)) = true := by
    decide +kernel
  obtain ⟨s, hr, hs⟩ := exists_run hrun
  simp only [Bool.and_eq_true, decide_eq_true_eq, Option.isNone_iff_eq_none] at hs
  obtain ⟨⟨⟨⟨⟨⟨hidle, hfree⟩, hnewest⟩, hnone⟩, hnone'⟩, hs'⟩, hs''⟩ := hs
  obtain ⟨s', hr', hnewest'⟩ := exists_run hs'
  obtain ⟨s'', hr'', hnewest''⟩ := exists_run hs''
  have hmark : 1 = (small.marks (appendAlone 0 10 ++ markAlone 1 1)).getLastD (-1 - 1) := by decide +kernel
  obtain ⟨hnow, hcalls, -, hlater, -⟩ := change_told_from_marks small_opened hr
  have hanswer := (hcalls 1 (Phase.eq_idle hidle) hfree).1
  rw [hnow.mpr (by rw [hnewest]; exact fun e => absurd (e.trans hmark.symm) (by decide))] at hanswer
  have hahead : s.ring.newest < 1 := by omega
  obtain ⟨-, -, -, hreached⟩ := hlater _ s' 1 hr' hnone hmark
  obtain ⟨-, -, -, hpassed⟩ := hlater _ s'' 1 hr'' hnone' hmark
  refine ⟨s, s', s'', hr, hr', hr'', hanswer, (hreached hahead).mpr (of_decide_eq_true hnewest'), ?_⟩
  apply eq_true_of_ne_false
  rw [hpassed hahead, of_decide_eq_true hnewest'']
  decide

end System

end Chronicle
