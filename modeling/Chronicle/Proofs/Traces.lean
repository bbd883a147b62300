/-
  Chronicle.Proofs.Traces — the events of a thread are its calls that came to nothing.

  A wait comes to nothing in one of three ways, and each of them is found out at more than one
  place: an index may be evicted on entry or since, a limit may be that of a read or of a wait
  that then tells `false`. Wherever it is found out, the thread reports it in the step that ends
  its call (`Coherent.reports`): so there is one event for each such call, in the order of the
  calls, and none for any other.

  `r.ReportedBy start e`: the event `e` reports the reply `r`. If the reply is a fault, it is the
  event of that fault, measured time included; if it is that an index did not come in time, it
  names that index.

  Proved: `traces_record_failures`.
-/

import Mathlib.Data.List.Forall2
import Chronicle.Proofs.Outcomes

namespace Chronicle

variable {α : Type}

/-! ## Replies and their events -/

/-- The call was refused, or its index did not come in time. -/
def Reply.cameToNothing (r : Reply α) : Bool :=
  match r.call.request, r.answer with
  | _, .failed _ => true
  | .await .., .truth false => true
  | _, _ => false

/-- The event reports the reply, in a series that begins at `start`. -/
inductive Reply.ReportedBy (start : Int) (r : Reply α) : Event → Prop
  | rejected (i oldest : Int) : r.answer = .failed (.evicted i oldest) → r.call.request.target? start = some i →
      ReportedBy start r (.rejected i oldest)
  | timedOut (i : Int) (waited : Duration) : r.answer = .failed (.timeout i waited) →
      r.call.request.target? start = some i → ReportedBy start r (.timedOut i waited)
  | late (i : Int) (limit : Limit) (waited : Duration) : r.answer = .truth false → r.call.request = .await i limit →
      ReportedBy start r (.timedOut i waited)
  | cancelled (i : Int) : r.answer = .failed (.cancelled i) → r.call.request.target? start = some i →
      ReportedBy start r (.cancelled i)

def Answer.sentence? : Answer α → Option String
  | .failed (.evicted ..) => some "read rejected, index evicted"
  | .failed (.timeout ..) | .truth false => some "wait timed out"
  | .failed (.cancelled _) => some "wait cancelled"
  | _ => none

namespace Reply

variable {c : Call α} {a : Answer α} {n : Nat}

/-- Only a call that waits for an index is reported. -/
theorem ReportedBy.target {r : Reply α} {start : Int} {e : Event} (h : r.ReportedBy start e) :
    ∃ i, r.call.request.target? start = some i := by
  cases h with
  | rejected i _ _ ht | timedOut i _ _ ht | cancelled i _ ht => exact ⟨i, ht⟩
  | late i limit waited _ hq => exact ⟨i, by rw [hq]; rfl⟩

/-- The event of a fault reports a call that failed with it. -/
theorem reportedBy_event {r : Reply α} {start : Int} {e : ReadFault} (ha : r.answer = .failed e)
    (ht : r.call.request.target? start = some e.index) : r.ReportedBy start e.event := by
  cases e with
  | evicted i oldest => exact .rejected i oldest ha ht
  | timeout i waited => exact .timedOut i waited ha ht
  | cancelled i => exact .cancelled i ha ht

theorem ReportedBy.sentence {r : Reply α} {start : Int} {e : Event} (h : r.ReportedBy start e) :
    r.answer.sentence? = some e.message := by
  cases h with
  | rejected _ _ ha _ | timedOut _ _ ha _ | late _ _ _ ha _ | cancelled _ ha _ =>
    rw [ha]
    rfl

theorem cameToNothing_failed (e : ReadFault) : (⟨c, .failed e, n⟩ : Reply α).cameToNothing = true := by
  unfold cameToNothing
  cases c.request <;> rfl

/-- Only a wait for an index comes to nothing without a fault. -/
theorem cameToNothing_eq_false (hf : ∀ e, a ≠ .failed e) (ha : ∀ i limit, c.request = .await i limit → a ≠ .truth false) :
    (⟨c, a, n⟩ : Reply α).cameToNothing = false := by
  unfold cameToNothing
  split
  · rename_i e he
    exact absurd he (hf e)
  · rename_i hq he
    exact absurd he (ha _ _ hq)
  · rfl

end Reply

namespace Ring

variable {r : Ring (Sample α)} {q : Request α}

/-- Served, a request is told no fault, and a wait that the index is there. -/
theorem serve_ok {a : Answer α} (h : r.serve q = .ok a) :
    (∀ e, a ≠ .failed e) ∧ ∀ i limit, q = .await i limit → a ≠ .truth false := by
  cases q with
  | read view i limit =>
    refine ⟨?_, by rintro i limit ⟨⟩⟩
    rintro e rfl
    simp only [serve] at h
    cases hev : r.evicted i <;> rw [hev] at h
    · cases he : r.element i <;> rw [he] at h
      · cases h
      · cases view <;> cases h
    · cases h
  | newestValue =>
    refine ⟨?_, by rintro i limit ⟨⟩⟩
    rintro e rfl
    simp only [serve] at h
    cases he : r.element r.newest <;> rw [he] at h <;> cases h
  | edge which time => cases which <;> cases h <;> exact ⟨by rintro e ⟨⟩, by rintro i limit ⟨⟩⟩
  | await i limit => cases h; exact ⟨by rintro e ⟨⟩, by rintro j limit' - ⟨⟩⟩
  | _ => cases h; exact ⟨by rintro e ⟨⟩, by rintro i limit ⟨⟩⟩

/-- Only a read is not served although its index was pushed, and only if it is evicted by then. -/
theorem serve_error {e : ReadFault} (h : r.serve q = .error e) :
    ∃ view i limit, q = .read view i limit ∧ e = .evicted i r.oldest := by
  cases q with
  | read view i limit =>
    simp only [serve] at h
    cases hev : r.evicted i <;> rw [hev] at h
    · cases h
    · cases h
      exact ⟨view, i, limit, rfl, rfl⟩
  | edge which time => cases which <;> cases h
  | _ => cases h

/-- A request that does not wait is told no fault, -/
theorem perform_ne_failed (r : Ring (Sample α)) (start : Int) (q : Request α) (e : ReadFault) :
    (r.perform start q).2 ≠ .failed e := by
  cases q with
  | length | isEmpty => unfold perform; cases r.length <;> rintro ⟨⟩
  | countAppended => unfold perform; cases r.countPushed start <;> rintro ⟨⟩
  | _ => rintro ⟨⟩

end Ring

namespace System

variable {s s' u u' : System α} {t : Nat} {m : Move α} {log : List (Sample α)} {moves : List (Move α)}

/-- whether it needs the lock or not. -/
theorem answerFree_ne_failed (s : System α) (q : Request α) (e : ReadFault) : (s.answerFree q).2 ≠ .failed e := by
  cases q with
  | flag a => cases a <;> rintro ⟨⟩
  | _ => rintro ⟨⟩

/-! ## Steps -/

/-- What a move adds to what is known of a thread: nothing, or the reply of a call that its own
    step ended, with the event that reports the reply if it came to nothing. -/
def Reports (s : System α) (t : Nat) (m : Move α) (s' : System α) : Prop :=
  ((s'.thread t).replies = (s.thread t).replies ∧ (s'.thread t).trace = (s.thread t).trace) ∨
    ∃ r, m = .step t ∧ (s'.thread t).replies = r :: (s.thread t).replies ∧
      (r.cameToNothing = false ∧ (s'.thread t).trace = (s.thread t).trace ∨
        r.cameToNothing = true ∧ ∃ e, (s'.thread t).trace = e :: (s.thread t).trace ∧ r.ReportedBy s.settings.start e)

/-- A reply that reports nothing came to something. -/
theorem reports_reply {v : System α} {v₀ : Nat} {c : Call α} {a : Answer α}
    (hv : (v.thread t).replies = (s.thread t).replies ∧ (v.thread t).trace = (s.thread t).trace)
    (hf : ∀ e, a ≠ .failed e) (ha : ∀ i limit, c.request = .await i limit → a ≠ .truth false) :
    s.Reports t (.step v₀) (v.reply v₀ c a none) := by
  unfold Reports
  by_cases e : v₀ = t
  · subst e
    rw [thread_reply, if_pos rfl, hv.1, hv.2]
    exact Or.inr ⟨_, rfl, rfl, Or.inl ⟨Reply.cameToNothing_eq_false hf ha, rfl⟩⟩
  · rw [thread_reply, if_neg e]
    exact Or.inl hv

/-- A call that is given up came to nothing, and the event of the fault reports it. -/
theorem reports_giveUp {v₀ : Nat} {c : Call α} {e : ReadFault} (ht : c.request.target? s.settings.start = some e.index)
    (ha : c.request.refusal e = .failed e ∨
      ∃ i limit waited, c.request = .await i limit ∧ e = .timeout i waited) :
    s.Reports t (.step v₀) (s.giveUp v₀ c e) := by
  unfold Reports
  by_cases he : v₀ = t
  · subst he
    rw [thread_giveUp, if_pos rfl]
    refine Or.inr ⟨_, rfl, rfl, Or.inr ?_⟩
    rcases ha with ha | ⟨i, limit, waited, hq, rfl⟩
    · rw [ha]
      exact ⟨Reply.cameToNothing_failed e, _, rfl, Reply.reportedBy_event rfl ht⟩
    · have hr : c.request.refusal (.timeout i waited) = .truth false := by rw [hq]; rfl
      rw [hr]
      refine ⟨?_, _, rfl, .late i limit waited rfl hq⟩
      simp [Reply.cameToNothing, hq]
  · rw [thread_giveUp, if_neg he]
    exact Or.inl ⟨rfl, rfl⟩

/-- A wait that has a deadline may time out. -/
theorem refusal_of_timeout {q : Request α} {i start : Int} {d waited : Duration} (ht : q.target? start = some i)
    (hd : q.limit.time? = some d) :
    q.refusal (.timeout i waited) = .failed (.timeout i waited) ∨
      ∃ j limit w, q = .await j limit ∧ ReadFault.timeout i waited = .timeout j w := by
  cases q with
  | read view j limit => exact Or.inl rfl
  | await j limit => cases ht; exact Or.inr ⟨i, limit, waited, rfl, rfl⟩
  | edge which time =>
    cases time with
    | none => cases hd
    | some _ => exact Or.inl rfl
  | newestValue => cases hd
  | _ => cases ht

/-- Every step adds to the events of a thread what it adds to its calls that came to nothing. -/
theorem Coherent.reports (h : u.Coherent log) (hs : Step u m u') (t : Nat) : u.Reports t m u' := by
  cases hs with
  | free v c hp hl =>
    refine reports_reply ⟨rfl, rfl⟩ (answerFree_ne_failed u c.request) ?_
    intro i limit hq
    rw [hq] at hl
    cases hl
  | perform v c hp hv hn =>
    refine reports_reply ⟨rfl, rfl⟩ (Ring.perform_ne_failed u.ring u.settings.start c.request) ?_
    intro i limit hq
    rw [hq] at hn
    cases hn
  | overflow v c x p r hp he => exact reports_reply ⟨rfl, rfl⟩ (by rintro e ⟨⟩) (by rintro i limit - ⟨⟩)
  | notify v c i hp =>
    refine reports_reply ?_ (by rintro e ⟨⟩) (by rintro i limit - ⟨⟩)
    rw [thread_notifyAll]
    exact ⟨rfl, rfl⟩
  | serve v c w a hp hn he =>
    obtain ⟨hf, ha⟩ := Ring.serve_ok he
    exact reports_reply ⟨rfl, rfl⟩ hf ha
  | refuse v c i hp ht hg he => exact reports_giveUp ht (Or.inl (Request.refusal_of_guarded hg))
  | lapped v c w e hp hn he =>
    have hf := h.fits v
    rw [hp] at hf
    obtain ⟨view, i, limit, hq, rfl⟩ := Ring.serve_error he
    refine reports_giveUp ?_ (Or.inl ?_)
    · rw [hq]
      rfl
    · rw [hq]
      rfl
  | cancel v c w f deadline hp hn hw hraised =>
    have hf := h.fits v
    rw [hp] at hf
    obtain ⟨d, hl⟩ := hf.cancellable hw
    exact reports_giveUp hf.target (Or.inl (Request.refusal_of_cancellable hl))
  | expire v c w hp he hn =>
    have hf := h.fits v
    rw [hp] at hf
    obtain ⟨hfor, hslept⟩ := hf
    obtain ⟨planned, -, wake, hle, hwake⟩ := hslept rfl
    obtain ⟨d, -, hd, -, -⟩ := Waiter.deadline_passed hfor he hwake hle
    exact reports_giveUp hfor.target (refusal_of_timeout hfor.target hd)
  | elapse time => exact Or.inl ⟨rfl, rfl⟩
  | call v | enter v | stamp v | begin v | push v | unlock v | plan v | sleep v | slice v | relock v | again v
  | runOut v | stir v =>
    refine Or.inl ?_
    by_cases e : v = t <;> simp [e]

/-! ## Runs -/

/-- The events of a thread report its replies that came to nothing, one each, in their order. -/
def Faithful (s : System α) (t : Nat) : Prop :=
  List.Forall₂ (fun r e => r.ReportedBy s.settings.start e) ((s.thread t).replies.filter (·.cameToNothing))
    (s.thread t).trace

theorem Faithful.step (h : u.Faithful t) (hs : u.Reports t m u') (hst : u'.settings = u.settings) : u'.Faithful t := by
  unfold Faithful at h ⊢
  rw [hst]
  rcases hs with ⟨hr, he⟩ | ⟨r, -, hr, ⟨hn, he⟩ | ⟨hn, e, he, hrep⟩⟩
  · rw [hr, he]
    exact h
  · rw [hr, he, List.filter_cons_of_neg (by simp [hn])]
    exact h
  · rw [hr, he, List.filter_cons_of_pos hn]
    exact .cons hrep h

/-- Whatever a schedule does, the events of each thread report its calls that came to nothing. -/
theorem Coherent.faithful_of_run (h : u.Coherent log) (hf : u.Faithful t) (hr : u.run? moves = some u') :
    u'.Faithful t := by
  refine run_prefix_induction (I := fun _ v => v.Faithful t) hf ?_ hr
  intro before v m v' _ hb hm ih
  have hs := step_of_move? hm
  exact ih.step ((h.of_run hb).reports hs t) hs.settings

/-- A call that came to nothing was one that waits for an index. -/
theorem Faithful.target (h : s.Faithful t) {r : Reply α} (hm : r ∈ (s.thread t).replies) (hn : r.cameToNothing = true) :
    ∃ i, r.call.request.target? s.settings.start = some i := by
  obtain ⟨k, hk, hr⟩ := List.mem_iff_getElem.mp (List.mem_filter.mpr ⟨hm, hn⟩)
  have hlen := h.length_eq
  have hrep := h.get hk (hlen ▸ hk)
  simp only [List.get_eq_getElem, hr] at hrep
  exact hrep.target

theorem Faithful.sentences (h : s.Faithful t) :
    ((s.thread t).replies.filter (·.cameToNothing)).map (·.answer.sentence?) =
      (s.thread t).trace.map (some ·.message) := by
  rw [← List.forall₂_eq_eq_eq, List.forall₂_map_left_iff, List.forall₂_map_right_iff]
  exact h.imp fun _ _ hrep => hrep.sentence

variable {o : Opening} {memory : Memory} {clock : Clock} {now : Nat} {s₀ : System α}

/-- The events of a thread are those of its calls that came to nothing, one for each and in
    their order, each told by the step that ended the call. A request that waits for nothing
    leaves no event. -/
theorem traces_record_failures (ho : (o.run memory clock now).2 = .opened s₀) (hr : s₀.run? moves = some s) (t : Nat) :
    List.Forall₂ (fun r e => r.ReportedBy o.settings.start e) ((s.thread t).replies.filter (·.cameToNothing))
        (s.thread t).trace ∧
      ((s.thread t).replies.filter (·.cameToNothing)).map (·.answer.sentence?) =
        (s.thread t).trace.map (some ·.message) ∧
      (∀ r ∈ (s.thread t).replies, r.call.request.target? o.settings.start = none → r.cameToNothing = false) ∧
      ∀ m s', s.move? m = some s' → s.Reports t m s' := by
  have hf : s.Faithful t := by
    apply (Coherent.of_opened ho).faithful_of_run ?_ hr
    obtain ⟨-, ring, -, rfl⟩ := Opening.eq_initial_of_opened ho
    unfold Faithful
    rw [thread_initial]
    exact .nil
  rw [← settings_of_reached ho hr]
  refine ⟨hf, hf.sentences, ?_, ?_⟩
  · intro r hm hn
    cases hc : r.cameToNothing with
    | false => rfl
    | true =>
      obtain ⟨i, hi⟩ := hf.target hm hc
      rw [hn] at hi
      cases hi
  · intro m s' hm
    exact (Coherent.of_reached ho hr).reports (step_of_move? hm) t

/-- A sleeper finds its index evicted, as three more came while it slept. Another thread waits in
    vain, makes a handle, then reads what is there, and then what is not. -/
def lapses : List (Move Nat) :=
  List.flatten
    [[.call 1 (.read .value (-1) .forever)], List.replicate 3 (.step 1),
      [.call 2 (.await 9 (.within (.millis 1)))], List.replicate 3 (.step 2),
      [.elapse 1000000, .runOut 2, .step 2, .step 2, .call 2 .handle, .step 2],
      appendAlone 0 7, appendAlone 0 8, appendAlone 0 9, List.replicate 3 (.step 1),
      [.call 2 (.read .value 0 .forever)], List.replicate 3 (.step 2),
      [.call 2 (.read .value (-1) .forever)], List.replicate 2 (.step 2)]

theorem traces_record_failures_lapped :
    ∃ (s : System Nat) (r r' r'' : Reply Nat), small.run? lapses = some s ∧
      (s.thread 1).replies = [r] ∧ r.ReportedBy (-1) (.rejected (-1) 0) ∧
      (s.thread 2).replies.length = 4 ∧ (s.thread 2).replies.filter (·.cameToNothing) = [r'', r'] ∧
      r''.ReportedBy (-1) (.rejected (-1) 0) ∧ r'.ReportedBy (-1) (.timedOut 9 (.millis 1)) := by
  have hrun : (small.run? lapses).any
      (fun s => decide ((s.thread 1).trace = [.rejected (-1) 0] ∧ (s.thread 1).replies.length = 1 ∧
        (s.thread 2).trace = [.rejected (-1) 0, .timedOut 9 (.millis 1)] ∧ (s.thread 2).replies.length = 4)) = true := by
    decide +kernel
  obtain ⟨s, hr, hs⟩ := exists_run hrun
  obtain ⟨htrace, hone, htrace', hfour⟩ := of_decide_eq_true hs
  obtain ⟨hfaithful, -⟩ := traces_record_failures small_opened hr 1
  obtain ⟨hfaithful', -⟩ := traces_record_failures small_opened hr 2
  rw [htrace] at hfaithful
  rw [htrace'] at hfaithful'
  obtain ⟨r, none, hrep, hnone, hr₁⟩ := List.forall₂_cons_right_iff.mp hfaithful
  obtain rfl := List.forall₂_nil_right_iff.mp hnone
  obtain ⟨r'', rest, hrep'', hrest, hr₂⟩ := List.forall₂_cons_right_iff.mp hfaithful'
  obtain ⟨r', none', hrep', hnone', rfl⟩ := List.forall₂_cons_right_iff.mp hrest
  obtain rfl := List.forall₂_nil_right_iff.mp hnone'
  obtain ⟨r₀, hone⟩ := List.length_eq_one_iff.mp hone
  have hr₀ : r₀ = r := by
    have hmem : r ∈ (s.thread 1).replies := List.mem_of_mem_filter (hr₁ ▸ List.mem_singleton.mpr rfl)
    rw [hone] at hmem
    exact (List.mem_singleton.mp hmem).symm
  exact ⟨s, r, r', r'', hr, hr₀ ▸ hone, hrep, hfour, hr₂, hrep'', hrep'⟩

end System

end Chronicle
