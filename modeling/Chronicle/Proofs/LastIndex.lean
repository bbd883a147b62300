/-
  Chronicle.Proofs.LastIndex — the append past the last index.

  Once the greatest index was given out, an append still takes the lock and reads the clock,
  and fails before it changes anything. So from then on the series changes by marks only, the
  readings are all that the appends leave behind, and whoever waits finds every index there
  or evicted: nobody falls asleep any more.

  Proved: what an append comes to (`abandoned_of_entered`, `abandoned_of_idle`), what those
  that were under way then come to (`Coherent.fails_of_run`), that nobody falls asleep
  (`Coherent.asleep_of_run`), and what is to be had of a schedule without them
  (`Coherent.spares_of_run`). Together: `append_past_last_atomic`.
-/

import Chronicle.Proofs.Panics
import Chronicle.Proofs.System.Alone
import Chronicle.Proofs.System.Readings
import Chronicle.Proofs.System.Spared
import Chronicle.Proofs.Wakeups

namespace Chronicle

variable {α : Type}

/-- An append that has pushed and has not returned. -/
def Phase.HasPushed (c : Call α) (p : Phase α) : Prop := ∃ i, p = .pushed c i ∨ p = .unlocked c i

theorem Phase.HasPushed.of_notified {c : Call α} {p : Phase α} (h : p.notified.HasPushed c) : p.HasPushed c := by
  obtain ⟨i, h⟩ := h
  cases p with
  | asleep => rcases h with h | h <;> cases h
  | _ => exact ⟨i, h⟩

namespace System

variable {s s' : System α} {t : Nat} {c : Call α} {v : α} {m : Move α} {log : List (Sample α)}
  {moves later : List (Move α)}

/-! ## One append -/

/-- The append was abandoned with the lock released, after one reading of the clock, and nothing
    else was changed. -/
structure Abandoned (s : System α) (t : Nat) (c : Call α) (s' : System α) : Prop where
  ends : s.Ends t c (.panicked .addOverflow) s'
  readings : s'.readings = s.readings + 1
  futile : s.Futile t s'

theorem Futile.trans {s'' : System α} (h : s.Futile t s') (h' : s'.Futile t s'') : s.Futile t s'' :=
  ⟨h'.settings.trans h.settings, h'.clock.trans h.clock, h'.ring.trans h.ring, h'.flags.trans h.flags,
    h'.now.trans h.now, fun u hu => (h'.others u hu).trans (h.others u hu), h'.own.trans h.own⟩

/-- An append that has the lock at the greatest index is abandoned with two steps. -/
theorem abandoned_of_entered (hlast : s.ring.newest = Index.greatest) (hp : s.phase t = .entered c)
    (hq : c.request = .append v) :
    ∃ s₁ s', s.step? t = some s₁ ∧ s₁.step? t = some s' ∧ s.Abandoned t c s' := by
  let s₁ := { s with readings := s.readings + 1 }.become t (.stamped c (s.stamp v))
  have h₁ : s.step? t = some s₁ := by rw [step?_entered hp, enter_append hq]
  have hp₁ : s₁.phase t = .stamped c (s.stamp v) := by simp [s₁]
  have hlast₁ : s₁.ring.newest = Index.greatest := hlast
  have h₂ : s₁.step? t = some (s₁.release.reply t c (.panicked .addOverflow) none) := by
    simp [step?, hp₁, Ring.Window.push_eq_error hlast₁]
  have hvain : c.request.append?.isSome = true := by rw [hq]; rfl
  have htoils : s.toils (.step t) = true := by simp [toils, hp, Phase.vain, hvain]
  have htoils₁ : s₁.toils (.step t) = true := by simp [toils, hp₁, Phase.vain, hvain]
  obtain ⟨t₁, ht₁, hfutile₁⟩ := (step_of_move? (m := .step t) h₁).futile hlast htoils
  obtain ⟨t₂, ht₂, hfutile₂⟩ := (step_of_move? (m := .step t) h₂).futile hlast₁ htoils₁
  cases ht₁
  cases ht₂
  refine ⟨s₁, _, h₁, h₂, ⟨by simp, rfl, rfl, ?_⟩, rfl, hfutile₁.trans hfutile₂⟩
  rw [(ends_reply _).replies, thread_become, if_pos rfl]
  rfl

/-- One that is made while nobody has the lock is abandoned at once. -/
theorem abandoned_of_idle (hlast : s.ring.newest = Index.greatest) (hi : s.phase t = .idle) (hh : s.holder = none)
    (v : α) : ∃ s', s.ask? t (.append v) = some s' ∧ s.Abandoned t (s.callOf (.append v)) s' := by
  obtain ⟨s₁, s', h₁, h₂, hends, hreadings, hfutile⟩ :=
    abandoned_of_entered (s := s.entering t (.append v)) (t := t) (v := v) hlast phase_entering rfl
  have hown : ((s.entering t (.append v)).thread t).spared = (s.thread t).spared := by
    let s₀ := s.become t (.ready (s.callOf (.append v)))
    have hready : (s₀.thread t).spared = (s.thread t).spared := spared_become (by rw [hi]; rfl) rfl
    have hentered := spared_become (s := { s₀ with holder := some t }) (t := t) (p := .entered (s.callOf (.append v)))
      (by rw [phase_setHolder, phase_become, if_pos rfl]; rfl) rfl
    exact hentered.trans hready
  refine ⟨s', ?_, hends.of_untouched untouched_entering replies_entering, hreadings,
    (futile_of_untouched untouched_entering hown).trans hfutile⟩
  rw [ask?_eq hi hh rfl, drive_step h₁, drive_step h₂, drive_stop (step?_idle hends.phase)]

/-! ## All of them -/

/-- At the greatest index, whoever has pushed and not returned had done so before. -/
theorem Step.hasPushed (h : Step s m s') (hlast : s.ring.newest = Index.greatest) (hp : (s'.phase t).HasPushed c) :
    (s.phase t).HasPushed c := by
  by_cases hm : m.mover? ≠ some t
  · rcases h.phase_other hm with e | e
    · rwa [e] at hp
    · rw [e] at hp
      exact hp.of_notified
  replace hm := Decidable.not_not.mp hm
  obtain ⟨i, hp⟩ := hp
  cases h with
  | elapse time => cases hm
  | push _ c' x r j d hu he =>
    rw [Ring.Window.push_eq_error hlast] at he
    cases he
  | unlock _ c' j hu =>
    cases hm
    rw [phase_become, if_pos rfl] at hp
    rcases hp with hp | hp
    · cases hp
    · cases hp
      exact ⟨i, Or.inl hu⟩
  | free u | refuse u | perform u | overflow u | notify u | serve u | lapped u | cancel u | expire u =>
    cases hm
    simp only [phase_reply, phase_giveUp, if_true] at hp
    rcases hp with hp | hp <;> cases hp
  | call u | enter u | stamp u | begin u | plan u | sleep u | slice u | relock u | again u | runOut u | stir u =>
    cases hm
    simp only [phase_become, if_true] at hp
    rcases hp with hp | hp <;> cases hp

theorem Coherent.newest_of_run (h : s.Coherent log) (hlast : s.ring.newest = Index.greatest)
    (hr : s.run? moves = some s') : s'.ring.newest = Index.greatest := by
  have hle := (h.bounds_le hr).2
  have hmost := (h.of_run hr).window.newest_le
  omega

/-- The series changes by marks only. -/
theorem Coherent.ring_of_run (h : s.Coherent log) (hlast : s.ring.newest = Index.greatest)
    (hr : s.run? moves = some s') : ∃ j, s'.ring = s.ring.tag j := by
  refine run_prefix_induction (I := fun _ v => ∃ j, v.ring = s.ring.tag j) ⟨s.ring.tagged, rfl⟩ ?_ hr
  rintro before v m v' - hb hm ⟨j, hring⟩
  rcases (step_of_move? hm).ring (h.of_run hb).window with ⟨hsame | ⟨k, hmark⟩, -⟩ | ⟨t, c, x, i, d, -, -, hpush, -⟩
  · exact ⟨j, hsame.trans hring⟩
  · exact ⟨k, by rw [hmark, hring]; rfl⟩
  · rw [Ring.Window.push_eq_error (h.newest_of_run hlast hb)] at hpush
    cases hpush

/-- Every append that ends from now on fails, unless it had pushed. -/
theorem Coherent.fails_of_run (h : s.Coherent log) (hlast : s.ring.newest = Index.greatest)
    (hr : s.run? moves = some s') (t : Nat) :
    ∃ newer, (s'.thread t).replies = newer ++ (s.thread t).replies ∧ ∀ r ∈ newer, ∀ v, r.call.request = .append v →
      r.answer = .panicked .addOverflow ∨ (s.phase t).HasPushed r.call := by
  refine (run_prefix_induction (I := fun _ x => (∀ c, (x.phase t).HasPushed c → (s.phase t).HasPushed c) ∧
    ∃ newer, (x.thread t).replies = newer ++ (s.thread t).replies ∧ ∀ r ∈ newer, ∀ v, r.call.request = .append v →
      r.answer = .panicked .addOverflow ∨ (s.phase t).HasPushed r.call)
    ⟨fun _ hc => hc, [], rfl, fun r hmem => by cases hmem⟩ ?_ hr).2
  rintro before x m x' - hb hm ⟨hpushed, newer, hrep, hall⟩
  have hs := step_of_move? hm
  have hx := h.of_run hb
  have hnewest := h.newest_of_run hlast hb
  refine ⟨fun c hc => hpushed c (hs.hasPushed hnewest hc), ?_⟩
  rcases hs.replies t with hsame | ⟨r, rfl, -, -, hnew⟩
  · exact ⟨newer, hsame.trans hrep, hall⟩
  · refine ⟨r :: newer, by rw [hnew, hrep]; rfl, ?_⟩
    intro r' hmem v hv
    rcases List.mem_cons.mp hmem with rfl | hmem
    · have other : r'.call.request.append? = none → False := by
        intro hc
        rw [hv] at hc
        cases hc
      cases hx.ended hs hnew with
      | free c hp hl => exact (other (append?_of_lockFree hl)).elim
      | performed c hp hl hne => exact (other (append?_of_ne hne)).elim
      | failed c y p hp _ he =>
        rw [Ring.Window.push_eq_error hnewest] at he
        cases he
        exact Or.inl rfl
      | returned c _ j hp => exact Or.inr (hpushed c ⟨j, Or.inr hp⟩)
      | told c j a ht => exact (other (append?_of_target? ht)).elim
    · exact hall r' hmem v hv

/-! ## Whoever waits -/

/-- Nobody falls asleep on an index any more. -/
theorem Coherent.asleep_of_run (h : s.Coherent log) (hlast : s.ring.newest = Index.greatest)
    (hr : s.run? moves = some s') {w : Waiter} {wake : Option Nat} (hp : s'.phase t = .asleep c w wake)
    (hi : w.target ≤ Index.greatest) : s.phase t = .asleep c w wake := by
  refine run_prefix_induction (I := fun _ x => x.phase t = .asleep c w wake → s.phase t = .asleep c w wake)
    id ?_ hr hp
  intro before x m x' _ hb hm ih hp'
  have hnewest := h.newest_of_run hlast hb
  rcases (step_of_move? hm).asleep hp' with hold | ⟨-, hplan | ⟨-, hlt⟩⟩
  · exact ih hold
  · -- who plans to sleep has not found its index
    have hf := (h.of_run hb).fits t
    rw [hplan] at hf
    have := hf.2.1
    omega
  · omega

/-- A request that waits for an index is answered at once. -/
theorem answers_of_last (hlast : s.ring.newest = Index.greatest) {q : Request α} {i : Int}
    (hi : s.phase t = .idle) (hh : s.holder = none) (ht : q.target? s.settings.start = some i)
    (hle : i ≤ Index.greatest) : ∃ a, s.Answers t q a := by
  by_cases hg : q.guarded = true ∧ s.ring.evicted i = true
  · exact ⟨_, answers_evicted hi hh ht hg.1 hg.2⟩
  · exact ⟨_, answers_served hi hh ht hg (by omega)⟩

variable {o : Opening} {memory : Memory} {clock : Clock} {now : Nat} {s₀ : System α}

/-- Each append that gets the lock from now on reads the clock once, and nobody else does. -/
theorem readings_of_reached (ho : (o.run memory clock now).2 = .opened s₀) (hr : s₀.run? moves = some s)
    (hl : s.run? later = some s') :
    s'.readings = s.readings + (s.stampings later).length ∧
      ∀ t, s'.attempts t = s.attempts t ++ valuesOf t (s.stampings later) := by
  have hbefore := clocked_of_reached ho hr
  have hafter := clocked_of_reached ho ((run?_append_of_run? hr).trans hl)
  have hsplit : s₀.stampings (moves ++ later) = s₀.stampings moves ++ s.stampings later := gather_append hr
  rw [hsplit] at hafter
  refine ⟨?_, fun t => ?_⟩
  · rw [hafter.count, hbefore.count, List.length_append]
  · rw [hafter.attempts, hbefore.attempts]
    exact List.filterMap_append

/-- Once the greatest index was given out, the series changes by marks only. Whatever an append does
    is futile: once it has the lock it is abandoned with two steps, after one reading of the clock;
    so is one that is made while nobody has the lock; and so ends every one that had not pushed.
    Whatever else is done comes to the same without them, and no request that waits for an index
    falls asleep. -/
theorem append_past_last_atomic (ho : (o.run memory clock now).2 = .opened s₀) (hr : s₀.run? moves = some s)
    (hlast : s.ring.newest = Index.greatest) (hl : s.run? later = some s') :
    (∃ j, s'.ring = s.ring.tag j) ∧
    (∀ m u, s'.move? m = some u → s'.toils m = true → ∃ t, m.mover? = some t ∧ s'.Futile t u) ∧
    (∀ t c v, s'.phase t = .entered c → c.request = .append v →
      ∃ s₁ u, s'.step? t = some s₁ ∧ s₁.step? t = some u ∧ s'.Abandoned t c u) ∧
    (∀ t v, s'.phase t = .idle → s'.holder = none →
      ∃ u, s'.ask? t (.append v) = some u ∧ s'.Abandoned t (s'.callOf (.append v)) u) ∧
    (∀ t, ∃ newer, (s'.thread t).replies = newer ++ (s.thread t).replies ∧ ∀ r ∈ newer, ∀ v,
      r.call.request = .append v → r.answer = .panicked .addOverflow ∨ (s.phase t).HasPushed r.call) ∧
    (s'.readings = s.readings + (s.stampings later).length ∧
      ∀ t, s'.attempts t = s.attempts t ++ valuesOf t (s.stampings later)) ∧
    (∃ s₂, s.spared.run? (s.gather spared? later) = some s₂ ∧ s'.Spares s₂ ∧
      s₂.holder = s'.holder.filter fun t => !(s'.phase t).vain) ∧
    (∀ t q i, s'.phase t = .idle → s'.holder = none → q.target? s'.settings.start = some i → i ≤ Index.greatest →
      ∃ a, s'.Answers t q a) ∧
    ∀ t c w wake, s'.phase t = .asleep c w wake → w.target ≤ Index.greatest → s.phase t = .asleep c w wake := by
  have hc := Coherent.of_reached ho hr
  have hc' := hc.of_run hl
  have hlast' := hc.newest_of_run hlast hl
  refine ⟨hc.ring_of_run hlast hl, ?_, ?_, ?_, hc.fails_of_run hlast hl, readings_of_reached ho hr hl, ?_, ?_, ?_⟩
  · intro m u hm ht
    exact (step_of_move? hm).futile hlast' ht
  · intro t c v hp hq
    exact abandoned_of_entered hlast' hp hq
  · intro t v hi hh
    exact abandoned_of_idle hlast' hi hh v
  · obtain ⟨s₂, hrun, hspares, hl₂⟩ := hc.spares_of_run hlast hl
    exact ⟨s₂, hrun, hspares, hspares.holder hc'.locked hl₂⟩
  · intro t q i hi hh ht hle
    exact answers_of_last hlast' hi hh ht hle
  · intro t c w wake hp hle
    exact hc.asleep_of_run hlast hl hp hle

/-- An append of the thread 1, and a read of the greatest index that comes between. -/
def pastLast : List (Move Nat) :=
  [[.call 1 (.append 20), .call 2 (.read .value Index.greatest .forever)], List.replicate 3 (.step 1),
    List.replicate 3 (.step 2)].flatten

/-- After one append the series of two slots that begins at the greatest index is at its end, with a
    slot left over. The next append is abandoned after one reading of the clock, and the read comes to
    the same without it. -/
theorem append_past_last_atomic_begun :
    ∃ s s' s₂ : System Nat, last.run? (appendAlone 0 10) = some s ∧ s.run? pastLast = some s' ∧
      s.ring.newest = Index.greatest ∧ (∃ j, s'.ring = s.ring.tag j) ∧ s'.readings = s.readings + 1 ∧
      (∃ r ∈ (s'.thread 1).replies, r.call.request = .append 20 ∧ r.answer = .panicked .addOverflow) ∧
      s.spared.run? (s.gather spared? pastLast) = some s₂ ∧
      (s.gather spared? pastLast).map Move.mover? = List.replicate 4 (some 2) ∧
      (s₂.thread 2).replies = (s'.thread 2).replies ∧ (s₂.thread 2).replies.map (·.answer.isFailure) = [false] := by
  have hrun : (last.run? (appendAlone 0 10)).any (fun s => decide (s.ring.newest = Index.greatest) &&
      decide ((s.stampings pastLast).length = 1) && decide ((s.thread 1).replies.length = 0) && (s.phase 1).isIdle &&
      decide ((s.gather spared? pastLast).map Move.mover? = List.replicate 4 (some 2)) &&
      (s.run? pastLast).any fun s' =>
        decide ((s'.thread 1).replies.map (·.call.request.append?) = [some 20]) &&
        decide ((s'.thread 2).replies.map (fun r => (r.vain, r.answer.isFailure)) = [(false, false)])) = true := by
    decide +kernel
  obtain ⟨s, hr, hs⟩ := exists_run hrun
  simp only [Bool.and_eq_true, decide_eq_true_eq] at hs
  obtain ⟨⟨⟨⟨⟨hlast, hone⟩, hnone⟩, hidle⟩, hleft⟩, hs⟩ := hs
  obtain ⟨s', hl, hs'⟩ := exists_run hs
  simp only [Bool.and_eq_true, decide_eq_true_eq] at hs'
  obtain ⟨hring, -, -, -, hfails, ⟨hreadings, -⟩, ⟨s₂, hspared, hspares, -⟩, -⟩ :=
    append_past_last_atomic last_opened hr hlast hl
  refine ⟨s, s', s₂, hr, hl, hlast, hring, by rw [hreadings, hone], ?_, hspared, hleft, ?_⟩
  · obtain ⟨newer, hrep, hall⟩ := hfails 1
    rw [List.eq_nil_of_length_eq_zero hnone, List.append_nil] at hrep
    obtain ⟨r, rest, hreplies, hrequest, -⟩ := List.map_eq_cons_iff.mp hs'.1
    have hmem : r ∈ newer := by rw [← hrep, hreplies]; exact List.mem_cons_self
    refine ⟨r, hrep ▸ hmem, Request.eq_append hrequest, ?_⟩
    rcases hall r hmem 20 (Request.eq_append hrequest) with hpanicked | ⟨i, hp⟩
    · exact hpanicked
    · rw [Phase.eq_idle hidle] at hp
      rcases hp with hp | hp <;> cases hp
  · obtain ⟨r, rest, hreplies, hreply, hrest⟩ := List.map_eq_cons_iff.mp hs'.2
    obtain rfl := List.map_eq_nil_iff.mp hrest
    have hthread := congrArg Thread.replies (hspares.threads 2)
    simp only [Prod.mk.injEq] at hreply
    change _ = (s'.thread 2).replies.filter _ at hthread
    rw [hreplies, List.filter_cons_of_pos (by rw [hreply.1]; rfl)] at hthread
    rw [hthread, hreplies]
    exact ⟨rfl, by rw [List.filter_nil, List.map_singleton, hreply.2]⟩

end System

end Chronicle
