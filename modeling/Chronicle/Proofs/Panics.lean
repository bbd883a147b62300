/-
  Chronicle.Proofs.Panics — which calls are abandoned, and why.

  Three things could go wrong with the lock in hand: an operation on indices leaves their
  range, a slot that should be filled is empty, a wait without limit ends without its index.
  In a series that was opened the first happens to appends at the greatest index, and to
  counts of all elements ever appended; the other two never happen.

  `s.opens? m` is the index whose slot a move takes an element from. A request that waits is
  answered with an element only after a look that found its index there and not evicted, so
  the slot is filled; and a request without limit that sleeps is woken only to look again
  (`Told.ne_panicked`).

  Proved: `arithmetic_in_range`.
-/

import Chronicle.Proofs.Outcomes
import Chronicle.Proofs.Slices
import Chronicle.Proofs.System.Admissions
import Chronicle.Proofs.Ring.Bounds

namespace Chronicle

variable {α : Type}

/-! ## Slots that are opened -/

namespace Ring

variable {r : Ring (Sample α)} {q : Request α} {i : Int} {p : Panic}

/-- The index whose element a request is answered with, once its wait is over. -/
def opens? (r : Ring (Sample α)) : Request α → Option Int
  | .read _ i _ => if r.evicted i then none else some i
  | .newestValue => some r.newest
  | _ => none

/-- Serving a request panics only where it opens a slot and finds it empty. -/
theorem serve_eq_panicked_iff : r.serve q = .ok (.panicked p) ↔ ∃ i, r.opens? q = some i ∧ r.element i = .error p := by
  cases q with
  | read view i limit =>
    cases hev : r.evicted i with
    | true => simp [serve, opens?, hev]
    | false =>
      cases he : r.element i with
      | ok x => cases view <;> simp [serve, opens?, View.answer, hev, he]
      | error p' => simp [serve, opens?, hev, he]
  | newestValue =>
    cases he : r.element r.newest with
    | ok x => simp [serve, opens?, he]
    | error p' => simp [serve, opens?, he]
  | edge which time => cases which <;> simp [serve, opens?]
  | _ => simp [serve, opens?]

/-- A count of all elements ever pushed fails by a sum or a difference that is no index. -/
theorem countPushed_error {start : Int} (h : r.countPushed start = .error p) :
    p = .subtractOverflow ∨ p = .addOverflow := by
  unfold countPushed Index.difference Index.sum at h
  simp only [bind, Except.bind, pure, Except.pure] at h
  split at h
  · rename_i hd
    split at hd
    · cases hd
    · cases hd
      cases h
      exact Or.inl rfl
  · split at h
    · rename_i hs
      split at hs
      · cases hs
      · cases hs
        cases h
        exact Or.inr rfl
    · cases h

/-- Once the wait is over, what is opened is retained. -/
theorem Window.retained_of_opens {start j : Int} {log : List (Sample α)} (h : r.Window start log)
    (ht : q.target? start = some i) (hs : start ≤ i) (hn : i ≤ r.newest) (ho : r.opens? q = some j) :
    r.oldest ≤ j ∧ j ≤ r.newest := by
  cases q with
  | read view k limit =>
    simp only [opens?, Option.ite_none_left_eq_some, Option.some.injEq] at ho
    obtain ⟨hev, rfl⟩ := ho
    obtain rfl : k = i := Option.some.inj ht
    simp only [evicted, decide_eq_true_eq] at hev
    exact ⟨by omega, hn⟩
  | newestValue =>
    obtain rfl : r.newest = j := Option.some.inj ho
    have holdest := h.oldest_eq
    have hnewest := h.newest_eq
    have hpos := h.capacity_pos
    exact ⟨by omega, Int.le_refl _⟩
  | _ => cases ho

/-- So there is an answer. -/
theorem Window.verdict_ne_panicked {start : Int} {log : List (Sample α)} (h : r.Window start log)
    (ht : q.target? start = some i) (hs : start ≤ i) (hn : i ≤ r.newest) (p : Panic) : r.verdict q ≠ .panicked p := by
  intro e
  cases hserve : r.serve q with
  | ok a =>
    rw [verdict_of_ok hserve] at e
    subst e
    obtain ⟨j, hopens, hempty⟩ := serve_eq_panicked_iff.mp hserve
    obtain ⟨hj, hj'⟩ := h.retained_of_opens ht hs hn hopens
    obtain ⟨k, x, -, -, hfilled⟩ := h.element hj hj'
    rw [hfilled] at hempty
    cases hempty
  | error fault =>
    rw [verdict_of_error hserve] at e
    -- only a read of an index that was evicted meanwhile is refused
    cases q with
    | read => cases e
    | edge which time => cases which <;> cases hserve
    | _ => cases hserve

end Ring

theorem Request.refusal_of_time {q : Request α} {d : Duration} (h : q.limit.time? = some d) (e : ReadFault)
    (p : Panic) :
    q.refusal e ≠ .panicked p := by
  cases q with
  | edge which time =>
    cases time with
    | none => cases h
    | some d => intro he; cases he
  | await i limit => cases e <;> (intro he; cases he)
  | read view i limit => intro he; cases he
  | _ => cases h

namespace System

variable {s s' u u' : System α} {t : Nat} {c : Call α} {i : Int} {m : Move α} {log : List (Sample α)}
  {moves : List (Move α)}

/-- The index whose slot a move opens, to answer a request with what is there. -/
def opens? (s : System α) : Move α → Option Int
  | .step t =>
    match s.phase t with
    | .looking c w => if w.target ≤ s.ring.newest then s.ring.opens? c.request else none
    | _ => none
  | _ => none

/-- Only a retained index is looked up. -/
theorem Coherent.retained_of_opens (h : s.Coherent log) (ho : s.opens? m = some i) :
    s.ring.oldest ≤ i ∧ i ≤ s.ring.newest := by
  unfold opens? at ho
  split at ho
  · rename_i t
    split at ho
    · rename_i c w hp
      have hf := h.fits t
      rw [hp] at hf
      split at ho
      · rename_i hn
        exact h.window.retained_of_opens hf.target hf.start_le hn ho
      · cases ho
    · cases ho
  · cases ho

/-! ## Calls that are abandoned -/

/-- A call that waited is never abandoned: where it ends, there is an answer. -/
theorem Told.ne_panicked {a : Answer α} (h : u.Told t c i a) (hc : u.Coherent log)
    (ht : c.request.target? u.settings.start = some i) (p : Panic) : a ≠ .panicked p := by
  cases h with
  | refused _ hg _ =>
    rw [Request.refusal_of_guarded hg]
    intro e
    cases e
  | served w _ hs hn => exact hc.window.verdict_ne_panicked ht hs hn p
  | cancelled w f d _ _ hl _ =>
    rw [Request.refusal_of_cancellable hl]
    intro e
    cases e
  | timedOut w d deadline _ _ hd _ _ => exact Request.refusal_of_time hd _ p

/-- Why a request is abandoned by a step in the state `u`: an append, because there is no next
    index; a count of all elements, because it is no index itself. -/
inductive Abandons (u : System α) : Request α → Panic → Prop
  | append (v : α) : u.ring.newest = Index.greatest → Abandons u (.append v) .addOverflow
  | count (p : Panic) : u.ring.countPushed u.settings.start = .error p → Abandons u .countAppended p

theorem answerFree_ne_panicked (s : System α) (q : Request α) (p : Panic) : (s.answerFree q).2 ≠ .panicked p := by
  intro e
  cases q with
  | flag a => cases a <;> cases e
  | _ => cases e

theorem Coherent.abandons_of_perform (h : u.Coherent log) {q : Request α} {p : Panic}
    (hq : (u.ring.perform u.settings.start q).2 = .panicked p) : u.Abandons q p := by
  cases q with
  | length =>
    simp only [Ring.perform, h.window.length_eq, Answer.ofCount] at hq
    cases hq
  | isEmpty =>
    simp only [Ring.perform, h.window.length_eq] at hq
    cases hq
  | countAppended =>
    refine .count p ?_
    simp only [Ring.perform] at hq
    cases hcount : u.ring.countPushed u.settings.start with
    | ok n => rw [hcount] at hq; cases hq
    | error p' => rw [hcount] at hq; cases hq; rfl
  | _ => cases hq

/-- A step that abandons a call does so for one of these reasons. -/
theorem Coherent.abandons (h : u.Coherent log) (hs : Step u (.step t) u') {r : Reply α}
    (hr : (u'.thread t).replies = r :: (u.thread t).replies) {p : Panic} (ha : r.answer = .panicked p) :
    u.Abandons r.call.request p := by
  cases h.ended hs hr with
  | free c => exact absurd ha (answerFree_ne_panicked _ _ _)
  | performed c => exact h.abandons_of_perform ha
  | failed c x p' hp hq he =>
    obtain rfl : p' = p := by cases ha; rfl
    obtain ⟨rfl, hlast, -⟩ := (h.window.push_eq_error_iff x p' _).mp he
    show u.Abandons c.request _
    rw [hq]
    exact .append x.value hlast
  | returned c v j => cases ha
  | told c j a ht hold => exact absurd ha (hold.ne_panicked h ht p)

/-- An append with its stamp pushes, or is abandoned where there is no next index. -/
theorem Coherent.pushes (h : s.Coherent log) {x : Sample α} (hp : s.phase t = .stamped c x) :
    ∃ s', s.step? t = some s' ∧
      if s.ring.newest = Index.greatest then s.Ends t c (.panicked .addOverflow) s'
      else s'.ring.newest = s.ring.newest + 1 ∧ s'.phase t = .pushed c (s.ring.newest + 1) := by
  by_cases hlast : s.ring.newest = Index.greatest
  · refine ⟨s.release.reply t c (.panicked .addOverflow) none, ?_, ?_⟩
    · simp [step?, hp, Ring.Window.push_eq_error hlast]
    · rw [if_pos hlast]
      exact ends_reply _
  · have hlt : s.ring.newest < Index.greatest := by
      have := h.window.newest_le
      omega
    refine ⟨({ s with ring := s.ring.pushed x }).become t (.pushed c (s.ring.newest + 1)), ?_, ?_⟩
    · simp [step?, hp, h.window.push_eq hlt]
    · rw [if_neg hlast]
      exact ⟨rfl, by simp⟩

variable {o : Opening} {memory : Memory} {clock : Clock} {now : Nat} {s₀ : System α}

/-- In every state of a series that was opened no operation on indices leaves their range but
    the push at the greatest index and the count of all elements: every slot is one of the
    series, every slot that is opened is filled, and a call is abandoned for no other reason. -/
theorem arithmetic_in_range (ho : (o.run memory clock now).2 = .opened s₀) (hr : s₀.run? moves = some s) :
    (0 < s.settings.capacity.toNat ∧ s.settings.capacity.toNat < Ring.slotLimit ∧ Index.least < s.settings.start ∧
      0 < s.settings.pollInterval.toNanos ∧ s.ring.capacity = s.settings.capacity.toNat) ∧
    s.ring.Bounded s.settings.start ∧
    (∀ m i, s.opens? m = some i →
      s.ring.slotOf i < s.ring.capacity ∧ ∃ x, s.ring.slot? (s.ring.slotOf i) = some x ∧ s.ring.element i = .ok x) ∧
    (∀ t c x, s.phase t = .stamped c x → ∃ s', s.step? t = some s' ∧
      if s.ring.newest = Index.greatest then s.Ends t c (.panicked .addOverflow) s'
      else s'.ring.newest = s.ring.newest + 1 ∧ s'.phase t = .pushed c (s.ring.newest + 1)) ∧
    (∀ t r p, r ∈ (s.thread t).replies → r.answer = .panicked p →
      ∃ before u u', s₀.EndedBy t r moves before u u' ∧ u.Abandons r.call.request p) ∧
    ∀ t r, r ∈ (s.thread t).replies →
      r.answer ≠ .panicked .endlessWaitEnded ∧ ∀ i, r.answer ≠ .panicked (.emptySlot i) := by
  have hc := Coherent.of_reached ho hr
  have habandons : ∀ {t r p}, r ∈ (s.thread t).replies → r.answer = .panicked p →
      ∃ before u u', s₀.EndedBy t r moves before u u' ∧ u.Abandons r.call.request p := by
    intro t r p hmem ha
    rcases run_reply hr hmem with hold | ⟨before, u, u', hended⟩
    · obtain ⟨-, ring, -, rfl⟩ := Opening.eq_initial_of_opened ho
      simp at hold
    · obtain ⟨-, hb, hstep, hrep⟩ := id hended
      exact ⟨before, u, u', hended, (Coherent.of_reached ho hb).abandons (step_of_move? hstep) hrep ha⟩
  -- whatever the reason, it is an operation on indices that failed
  have hoverflow : ∀ {u : System α} {q : Request α} {p : Panic}, u.Abandons q p →
      p = .subtractOverflow ∨ p = .addOverflow := by
    intro u q p h
    cases h with
    | append => exact Or.inr rfl
    | count p he => exact Ring.countPushed_error he
  refine ⟨⟨?_, ?_, hc.window.start_gt, pollInterval_pos ho hr, hc.capacity⟩, hc.window.bounded, ?_, ?_, ?_, ?_⟩
  · rw [← hc.capacity]
    exact hc.window.capacity_pos
  · rw [← hc.capacity]
    exact hc.window.capacity_lt
  · intro m i hopens
    obtain ⟨ho', hn⟩ := hc.retained_of_opens hopens
    obtain ⟨k, x, rfl, hx, he⟩ := hc.window.element ho' hn
    refine ⟨Ring.slotOf_lt hc.window.capacity_pos _, x, ?_, he⟩
    exact (hc.window.slot?_iff _ x).mpr ⟨k, hx, ho', rfl⟩
  · intro t c x hp
    exact hc.pushes hp
  · intro t r p hmem ha
    exact habandons hmem ha
  · intro t r hmem
    refine ⟨fun ha => ?_, fun i ha => ?_⟩
    · obtain ⟨-, u, -, -, h⟩ := habandons hmem ha
      rcases hoverflow h with e | e <;> cases e
    · obtain ⟨-, u, -, -, h⟩ := habandons hmem ha
      rcases hoverflow h with e | e <;> cases e

/-- A series of two slots whose first index is the greatest, just opened. -/
def last : System Nat :=
  .initial ⟨2, 9223372036854775807, .millis 10⟩ (.scripted [])
    ⟨2, ∅, Index.greatest, Index.greatest - 1, Index.greatest - 1⟩ 0

theorem last_opened : ((Opening.ofSettings ⟨2, 9223372036854775807, .millis 10⟩).run .ample (.scripted []) 0).2 =
    .opened last := rfl

/-- Two appends, then a read of the least index and one of the greatest. -/
def toTheEnd : List (Move Nat) :=
  [appendAlone 0 10, [.call 0 (.append 20)], List.replicate 3 (.step 0),
    [.call 1 (.read .value Index.least .forever), .step 1, .step 1],
    [.call 1 (.read .value Index.greatest .forever), .step 1, .step 1]].flatten

/-- The series takes the first append, with a slot left over, and abandons the second, which has its
    stamp by then. The read of the greatest index finds its slot filled, that of the least is told
    that it is evicted. -/
theorem arithmetic_in_range_last :
    ∃ s : System Nat, last.run? toTheEnd = some s ∧
      s.ring.newest = Index.greatest ∧ s.ring.length = .ok 1 ∧ s.ring.push ⟨30, 0⟩ = .error .addOverflow s.ring ∧
      (∃ x, s.ring.element Index.greatest = .ok x) ∧
      (∃ r ∈ (s.thread 0).replies, r.call.request = .append 20 ∧ r.answer = .panicked .addOverflow) ∧
      (s.thread 1).replies.map (·.answer.fault?) = [some (.evicted Index.least Index.greatest)] := by
  have hrun : (last.run? toTheEnd).any
      (fun s => decide (s.ring.newest = Index.greatest ∧ s.ring.oldest = Index.greatest) &&
        decide (s.opens? (.step 1) = some Index.greatest) &&
        decide ((s.thread 0).replies.map (fun r => (r.call.request.append?, r.answer.isFailure, r.answer.fault?)) =
          [(some 20, true, none), (some 10, false, none)]) &&
        decide ((s.thread 1).replies.map (·.answer.fault?) = [some (.evicted Index.least Index.greatest)])) = true := by
    decide +kernel
  obtain ⟨s, hr, hs⟩ := exists_run hrun
  simp only [Bool.and_eq_true, decide_eq_true_eq] at hs
  obtain ⟨⟨⟨⟨hnewest, holdest⟩, hopens⟩, h0⟩, h1⟩ := hs
  obtain ⟨-, hbounded, hfilled, -, hreasons, -⟩ := arithmetic_in_range last_opened hr
  have hlength := hbounded.length
  rw [hnewest, holdest] at hlength
  obtain ⟨-, x, -, hx⟩ := hfilled _ _ hopens
  obtain ⟨r, rest, hreplies, hreply, -⟩ := List.map_eq_cons_iff.mp h0
  simp only [Prod.mk.injEq] at hreply
  obtain ⟨happend, hfailed, hfault⟩ := hreply
  have hmem : r ∈ (s.thread 0).replies := by simp [hreplies]
  refine ⟨s, hr, hnewest, hlength, (hbounded.overflow _ _ _).mpr ⟨rfl, hnewest, rfl⟩, ⟨x, hx⟩, ?_, h1⟩
  refine ⟨r, hmem, Request.eq_append happend, ?_⟩
  cases ha : r.answer with
  | panicked p =>
    obtain ⟨-, u, -, -, hwhy⟩ := hreasons 0 r p hmem ha
    rw [Request.eq_append happend] at hwhy
    cases hwhy
    rfl
  | failed e => rw [ha] at hfault; cases hfault
  | _ => rw [ha] at hfailed; cases hfailed

end System

end Chronicle
