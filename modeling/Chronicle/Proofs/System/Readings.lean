/-
  Chronicle.Proofs.System.Readings — the readings of the clock, and the appends they are for.

  `s.stampings moves` are the samples that the readings of a schedule were taken for, each with
  the thread that appends it, in the order the clock was read.

  An append that gets the lock reads the clock, pushes, and only then gives the lock up, so
  the way from one to the next has room for one: an append that has the lock and has not read
  the clock (`entering?`), a sample that has its stamp and is not pushed (`stamping?`). What
  goes in at one end comes out at the other, in the same order (`Coherent.passes`): the
  appends that get the lock, the readings, the pushes. The last of these may fail, at the
  greatest index; then the reading was taken all the same, and there is no push after it.

  Proved: every append that has got as far is behind one reading (`Coherent.attempts_step`);
  in every reachable state the three lists are one list, as far as they go
  (`clocked_of_reached`).
-/

import Chronicle.Proofs.System.Admissions

namespace Chronicle

variable {α : Type}

namespace Phase

/-- The value of an append that has the lock and has not read the clock. -/
def entering? : Phase α → Option α
  | .entered c => c.request.append?
  | _ => none

/-- The sample that has its stamp and is not pushed. -/
def stamping? : Phase α → Option (Sample α)
  | .stamped _ x => some x
  | _ => none

/-- The value of an append that has read the clock and has not returned. -/
def attempted? : Phase α → Option α
  | .stamped c _ | .pushed c _ | .unlocked c _ => c.request.append?
  | _ => none

variable (p : Phase α)

theorem entering?_notified : p.notified.entering? = p.entering? := by cases p <;> rfl

theorem stamping?_notified : p.notified.stamping? = p.stamping? := by cases p <;> rfl

theorem attempted?_notified : p.notified.attempted? = p.attempted? := by cases p <;> rfl

end Phase

/-- The values of a thread's appends that have read the clock, in the order they did. -/
def Thread.attempts (th : Thread α) : List α :=
  (th.replies.filterMap (·.call.request.append?)).reverse ++ th.phase.attempted?.toList

/-- The values that a thread has a reading for. -/
def valuesOf (t : Nat) (stampings : List (Nat × Sample α)) : List α :=
  stampings.filterMap fun p => if p.1 = t then some p.2.value else none

namespace System

/-- The sample that a move reads the clock for, and its thread. -/
def stamping (s : System α) : Move α → Option (Nat × Sample α)
  | .step t => (s.phase t).entering?.map fun v => (t, ⟨v, s.clock s.readings s.now⟩)
  | _ => none

/-- The samples of a schedule that got a stamp, in the order they did. -/
def stampings (s : System α) (moves : List (Move α)) : List (Nat × Sample α) := s.gather stamping moves

/-- The sample that a move fails to push. -/
def lost? (s : System α) : Move α → Option (Sample α)
  | .step t => (s.phase t).stamping?.bind fun x =>
    match s.ring.push x with
    | .ok .. => none
    | .error .. => some x
  | _ => none

def entering? (s : System α) : Option (Nat × α) := s.holder.bind fun t => (s.phase t).entering?.map (t, ·)

def stamping? (s : System α) : Option (Sample α) := s.holder.bind fun t => (s.phase t).stamping?

variable {s s' u : System α} {t : Nat} {m : Move α} {log : List (Sample α)} {moves : List (Move α)}

/-! ## From the lock to the push -/

/-- What a move takes out of the way from the lock to the push is what was there, with what it
    puts in, in order. -/
structure Passes (s : System α) (m : Move α) (s' : System α) : Prop where
  enters : s.entering?.toList ++ (s.admission? m).toList =
    ((s.stamping m).map fun p => (p.1, p.2.value)).toList ++ s'.entering?.toList
  stamps : s.stamping?.toList ++ ((s.stamping m).map (·.2)).toList =
    (s.addition? m).toList ++ (s.lost? m).toList ++ s'.stamping?.toList

theorem entering?_of_holder (h : s.holder = some t) : s.entering? = (s.phase t).entering?.map (t, ·) := by
  rw [entering?, h]
  rfl

theorem stamping?_of_holder (h : s.holder = some t) : s.stamping? = (s.phase t).stamping? := by
  rw [stamping?, h]
  rfl

theorem stages_of_free (h : s.holder = none) : s.entering? = none ∧ s.stamping? = none := by
  rw [entering?, stamping?, h]
  exact ⟨rfl, rfl⟩

theorem stages_of_section (h : s.holder = some t) (he : (s.phase t).entering? = none)
    (hs : (s.phase t).stamping? = none) :
    s.entering? = none ∧ s.stamping? = none := by
  rw [entering?_of_holder h, stamping?_of_holder h, he, hs]
  exact ⟨rfl, rfl⟩

/-- What a thread that is at neither place passes on. -/
theorem yields_of_phase (he : (s.phase t).entering? = none) (hs : (s.phase t).stamping? = none) :
    s.stamping (.step t) = none ∧ s.addition? (.step t) = none ∧ s.lost? (.step t) = none := by
  refine ⟨?_, ?_, ?_⟩
  · simp only [stamping, he, Option.map_none]
  · cases hp : s.phase t with
    | stamped c x => rw [hp] at hs; cases hs
    | _ => simp [addition?, hp]
  · simp only [lost?, hs, Option.bind_none]

/-- A move that nothing passes by leaves both places as they are. -/
theorem Passes.of_none (ha : s.admission? m = none) (hr : s.stamping m = none) (hp : s.addition? m = none)
    (hl : s.lost? m = none) (he : s'.entering? = s.entering?) (hs : s'.stamping? = s.stamping?) : Passes s m s' := by
  constructor
  · rw [ha, hr, he]
    simp
  · rw [hr, hp, hl, hs]
    simp

/-- A thread with the lock that is at neither place, before or after. -/
theorem Passes.of_section (hh : s.holder = some t) (he : (s.phase t).entering? = none)
    (hs : (s.phase t).stamping? = none)
    (h' : s'.entering? = none ∧ s'.stamping? = none) : Passes s (.step t) s' := by
  obtain ⟨hr, hp, hl⟩ := yields_of_phase he hs
  obtain ⟨he', hs'⟩ := stages_of_section hh he hs
  refine .of_none ?_ hr hp hl (h'.1.trans he'.symm) (h'.2.trans hs'.symm)
  cases hp : s.phase t <;> simp [admission?, hp, hh]

/-- A thread without the lock leaves both places to the one that has it. -/
theorem Step.stages_outside (h : Step s m s') (hl : s.Locked) (hm : m.mover? = some t) (ht : (s.phase t).holds = false)
    (hh : s'.holder = s.holder) : s'.entering? = s.entering? ∧ s'.stamping? = s.stamping? := by
  cases hu : s.holder with
  | none =>
    obtain ⟨he, hs⟩ := stages_of_free hu
    obtain ⟨he', hs'⟩ := stages_of_free (hh.trans hu)
    exact ⟨he'.trans he.symm, hs'.trans hs.symm⟩
  | some u =>
    have hne : m.mover? ≠ some u := by
      rw [hm]
      intro e
      cases e
      rw [(hl t).mp hu] at ht
      cases ht
    rw [entering?_of_holder hu, stamping?_of_holder hu, entering?_of_holder (hh.trans hu),
      stamping?_of_holder (hh.trans hu), h.reading_other Phase.entering?_notified hne,
      h.reading_other Phase.stamping?_notified hne]
    exact ⟨rfl, rfl⟩

theorem Step.passes_outside (h : Step s m s') (hl : s.Locked) (hm : m.mover? = some t) (ht : (s.phase t).holds = false)
    (hh : s'.holder = s.holder) (ha : s.admission? m = none) : Passes s m s' := by
  obtain ⟨he, hs⟩ := h.stages_outside hl hm ht hh
  have hat : (s.phase t).entering? = none ∧ (s.phase t).stamping? = none := by
    cases hp : s.phase t with
    | entered | stamped => rw [hp] at ht; cases ht
    | _ => exact ⟨rfl, rfl⟩
  cases m with
  | step t' =>
    obtain rfl : t' = t := Option.some.inj hm
    obtain ⟨hr, hp, hlost⟩ := yields_of_phase hat.1 hat.2
    exact .of_none ha hr hp hlost he hs
  | call | runOut | stir | elapse => exact .of_none rfl rfl rfl rfl he hs

/-- The one that gets the lock comes to the first place if it appends. -/
theorem Passes.of_lock {p : Phase α} (hh : s.holder = none) (he : (s.phase t).entering? = none)
    (hs : (s.phase t).stamping? = none) (hp : p.stamping? = none)
    (ha : s.admission? (.step t) = p.entering?.map (t, ·)) :
    Passes s (.step t) ({ s with holder := some t }.become t p) := by
  obtain ⟨hr, hadd, hlost⟩ := yields_of_phase he hs
  obtain ⟨he₀, hs₀⟩ := stages_of_free hh
  have hh' : ({ s with holder := some t }.become t p).holder = some t := rfl
  constructor
  · rw [he₀, hr, ha, entering?_of_holder hh', phase_become, if_pos rfl]
    rfl
  · rw [hs₀, hr, hadd, hlost, stamping?_of_holder hh', phase_become, if_pos rfl, hp]
    rfl

theorem lost?_of_push {c : Call α} {x : Sample α} (hp : s.phase t = .stamped c x)
    {ring : Ring (Sample α)} {d : Int × Option (Sample α)} (he : s.ring.push x = .ok d ring) :
    s.lost? (.step t) = none := by
  simp [lost?, hp, Phase.stamping?, he]

theorem lost?_of_push_error {c : Call α} {x : Sample α} (hp : s.phase t = .stamped c x) {p : Panic}
    {ring : Ring (Sample α)} (he : s.ring.push x = .error p ring) : s.lost? (.step t) = some x := by
  simp [lost?, hp, Phase.stamping?, he]

/-- Every move passes on what there was, in order. -/
theorem Coherent.passes (h : s.Coherent log) (hs : Step s m s') : Passes s m s' := by
  have hl := h.locked
  have holds : ∀ {t p}, s.phase t = p → p.holds = true → s.holder = some t := by
    intro t p hp hh
    rw [← hp] at hh
    exact (hl t).mpr hh
  have hs' := hs
  cases hs with
  | elapse time => exact .of_none rfl rfl rfl rfl rfl rfl
  | call t q hp | runOut t c w wake hp | stir t c w wake hp =>
    exact hs'.passes_outside hl rfl (by rw [hp]; rfl) rfl rfl
  | notify t c i hp => exact hs'.passes_outside hl rfl (by rw [hp]; rfl) rfl (by simp [admission?, hp])
  | free t c hp hlf =>
    refine hs'.passes_outside hl rfl (by rw [hp]; rfl) rfl ?_
    cases hh : s.holder <;> simp [admission?, hp, hh, append?_of_lockFree hlf]
  | enter t c hp _ hh =>
    exact .of_lock hh (by rw [hp]; rfl) (by rw [hp]; rfl) rfl (by simp [admission?, hp, hh, Phase.entering?])
  | relock t c w r hp hh =>
    exact .of_lock hh (by rw [hp]; rfl) (by rw [hp]; rfl) rfl (by simp [admission?, hp, Phase.entering?])
  | stamp t c v hp hq =>
    -- from the first place to the second, by a reading
    have hh := holds hp rfl
    have hh' : ({ s with readings := s.readings + 1 }.become t
        (.stamped c ⟨v, s.clock s.readings s.now⟩)).holder = some t := hh
    constructor
    · rw [entering?_of_holder hh, entering?_of_holder hh', hp, phase_become, if_pos rfl]
      simp [admission?, stamping, hp, hq, Phase.entering?, Request.append?]
    · rw [stamping?_of_holder hh, stamping?_of_holder hh', hp, phase_become, if_pos rfl]
      simp [stamping, addition?, lost?, hp, hq, Phase.entering?, Phase.stamping?, Request.append?]
  | push t c x r i d hp he =>
    have hh := holds hp rfl
    obtain ⟨he', hs'⟩ := stages_of_section (s := { s with ring := r }.become t (.pushed c i)) (t := t) hh
      (by simp [Phase.entering?]) (by simp [Phase.stamping?])
    constructor
    · rw [entering?_of_holder hh, he', hp]
      simp [admission?, stamping, hp, Phase.entering?]
    · rw [stamping?_of_holder hh, hs', hp, h.addition_of_push hp he, lost?_of_push hp he]
      simp [stamping, hp, Phase.entering?, Phase.stamping?]
  | overflow t c x p r hp he =>
    have hh := holds hp rfl
    obtain ⟨he', hs'⟩ := stages_of_free (s := { s with ring := r }.release.reply t c (.panicked p) none) rfl
    constructor
    · rw [entering?_of_holder hh, he', hp]
      simp [admission?, stamping, hp, Phase.entering?]
    · rw [stamping?_of_holder hh, hs', hp, lost?_of_push_error hp he]
      simp [stamping, addition?, hp, he, Phase.entering?, Phase.stamping?]
  | begin t c i hp ht =>
    have hh := holds hp rfl
    exact .of_section hh (by rw [hp]; exact append?_of_target? ht) (by rw [hp]; rfl)
      (stages_of_section (t := t) hh (by simp [Phase.entering?]) (by simp [Phase.stamping?]))
  | refuse t c i hp ht =>
    exact .of_section (holds hp rfl) (by rw [hp]; exact append?_of_target? ht) (by rw [hp]; rfl) (stages_of_free rfl)
  | perform t c hp hne =>
    exact .of_section (holds hp rfl) (by rw [hp]; exact append?_of_ne hne) (by rw [hp]; rfl) (stages_of_free rfl)
  | plan t c w f d hp | again t c w r hp =>
    have hh := holds hp rfl
    exact .of_section hh (by rw [hp]; rfl) (by rw [hp]; rfl)
      (stages_of_section (t := t) hh (by simp [Phase.entering?]) (by simp [Phase.stamping?]))
  | unlock t c i hp | serve t c w a hp | lapped t c w e hp | cancel t c w f d hp | sleep t c w hp | slice t c w hp
  | expire t c w hp =>
    exact .of_section (holds hp rfl) (by rw [hp]; rfl) (by rw [hp]; rfl) (stages_of_free rfl)

/-! ## One reading for each append -/

def attempts (s : System α) (t : Nat) : List α := (s.thread t).attempts

theorem attempts_of_phase {p : Phase α} (hp : s.phase t = p) :
    s.attempts t = ((s.thread t).replies.filterMap (·.call.request.append?)).reverse ++ p.attempted?.toList := by
  subst hp
  rfl

theorem attempts_become (p : Phase α) :
    (s.become t p).attempts t =
      ((s.thread t).replies.filterMap (·.call.request.append?)).reverse ++ p.attempted?.toList := by
  simp [attempts, Thread.attempts]

theorem attempts_reply (c : Call α) (a : Answer α) (e : Option Event) :
    (s.reply t c a e).attempts t =
      ((s.thread t).replies.filterMap (·.call.request.append?)).reverse ++ c.request.append?.toList := by
  simp only [attempts, Thread.attempts, thread_reply, if_true, Phase.attempted?, List.filterMap_cons]
  cases c.request.append? <;> simp

/-- A thread that is not moved has made no further attempt. -/
theorem Step.attempts_other (h : Step s m s') (hu : m.mover? ≠ some t) : s'.attempts t = s.attempts t := by
  have hrep : (s'.thread t).replies = (s.thread t).replies := h.replies_other fun e => hu (by rw [e]; rfl)
  have hphase : (s'.phase t).attempted? = (s.phase t).attempted? :=
    h.reading_other Phase.attempted?_notified hu
  rw [attempts_of_phase rfl, attempts_of_phase rfl, hrep, hphase]

theorem mover_of_stamping {p : Nat × Sample α} (h : s.stamping m = some p) : m = .step p.1 := by
  cases m with
  | step t =>
    obtain ⟨v, -, rfl⟩ := Option.map_eq_some_iff.mp h
    rfl
  | _ => cases h

theorem valuesOf_of_ne (hu : m.mover? ≠ some t) : valuesOf t (s.stamping m).toList = [] := by
  cases h : s.stamping m with
  | none => rfl
  | some p =>
    have hne : p.1 ≠ t := by
      intro e
      rw [mover_of_stamping h, e] at hu
      exact hu rfl
    simp [valuesOf, hne]

/-- An attempt is made by reading the clock, and stays one however it ends. -/
theorem Coherent.attempts_step (h : s.Coherent log) (hs : Step s m s') (t : Nat) :
    s'.attempts t = s.attempts t ++ valuesOf t (s.stamping m).toList := by
  by_cases hu : m.mover? ≠ some t
  · rw [hs.attempts_other hu, valuesOf_of_ne hu, List.append_nil]
  replace hu := Decidable.not_not.mp hu
  have hf := h.fits t
  -- what ends without having read the clock is no append
  have ended : ∀ {c : Call α} {p : Phase α}, s.phase t = p → p.attempted? = none → c.request.append? = none →
      ((s.thread t).replies.filterMap (·.call.request.append?)).reverse ++ c.request.append?.toList = s.attempts t := by
    intro c p hp hno hc
    rw [attempts_of_phase hp, hno, hc]
  have silent : (s.phase t).entering? = none → valuesOf t (s.stamping (.step t)).toList = [] := by
    intro he
    simp [stamping, he, valuesOf]
  cases hs with
  | elapse time => cases hu
  | call _ q hp | runOut _ c w wake hp | stir _ c w wake hp =>
    cases hu
    rw [attempts_become, attempts_of_phase hp]
    simp [stamping, valuesOf, Phase.attempted?]
  | stamp _ c v hp hq =>
    cases hu
    rw [attempts_become, attempts_of_phase hp]
    simp [stamping, valuesOf, hp, hq, Phase.entering?, Phase.attempted?, Request.append?]
  | enter _ c hp | plan _ c w f d hp | sleep _ c w hp | slice _ c w hp | relock _ c w r hp | again _ c w r hp
  | push _ c x r i d hp | unlock _ c i hp =>
    cases hu
    rw [attempts_become, attempts_of_phase hp, silent (by rw [hp]; rfl), List.append_nil]
    rfl
  | begin _ c i hp ht =>
    cases hu
    rw [attempts_become, attempts_of_phase hp, silent (by rw [hp]; exact append?_of_target? ht), List.append_nil]
    rfl
  | free _ c hp hl =>
    cases hu
    rw [attempts_reply, silent (by rw [hp]; rfl), List.append_nil]
    exact ended hp rfl (append?_of_lockFree hl)
  | refuse _ c i hp ht =>
    cases hu
    have hc := append?_of_target? ht
    rw [giveUp, attempts_reply, silent (by rw [hp]; exact hc), List.append_nil]
    exact ended hp rfl hc
  | perform _ c hp hne =>
    cases hu
    have hc := append?_of_ne hne
    rw [attempts_reply, silent (by rw [hp]; exact hc), List.append_nil]
    exact ended hp rfl hc
  | serve _ c w a hp =>
    cases hu
    rw [hp] at hf
    rw [attempts_reply, silent (by rw [hp]; rfl), List.append_nil]
    exact ended hp rfl (append?_of_target? hf.target)
  | lapped _ c w e hp | cancel _ c w f d hp =>
    cases hu
    rw [hp] at hf
    rw [giveUp, attempts_reply, silent (by rw [hp]; rfl), List.append_nil]
    exact ended hp rfl (append?_of_target? hf.target)
  | expire _ c w hp =>
    cases hu
    rw [hp] at hf
    rw [giveUp, attempts_reply, silent (by rw [hp]; rfl), List.append_nil]
    exact ended hp rfl (append?_of_target? hf.1.target)
  | overflow _ c x p r hp =>
    cases hu
    rw [attempts_reply, attempts_of_phase hp, silent (by rw [hp]; rfl), List.append_nil]
    rfl
  | notify _ c i hp =>
    cases hu
    rw [attempts_reply, attempts_of_phase hp, silent (by rw [hp]; rfl), List.append_nil, thread_notifyAll]
    rfl

theorem Step.readings (h : Step s m s') : s'.readings = s.readings + (s.stamping m).toList.length := by
  cases h with
  | stamp t c v hp hq => simp [stamping, hp, hq, Phase.entering?, Request.append?, become]
  | begin t c i hp ht => simp [stamping, hp, Phase.entering?, append?_of_target? ht, become]
  | refuse t c i hp ht => simp [stamping, hp, Phase.entering?, append?_of_target? ht, giveUp, release, reply]
  | perform t c hp hne => simp [stamping, hp, Phase.entering?, append?_of_ne hne, release, reply]
  | call | runOut | stir | elapse => rfl
  | free t c hp | enter t c hp | push t c x r i d hp | overflow t c x p r hp | unlock t c i hp | notify t c i hp
  | serve t c w a hp | lapped t c w e hp | cancel t c w f d hp | plan t c w f d hp | sleep t c w hp | slice t c w hp
  | relock t c w r hp | expire t c w hp | again t c w r hp =>
    have hnone : s.stamping (.step t) = none := by simp [stamping, hp, Phase.entering?]
    rw [hnone]
    rfl

/-! ## Three lists -/

theorem Coherent.newest_lt_of_addition (h : s.Coherent log) (hs : Step s m s') {x : Sample α}
    (hx : s.addition? m = some x) : s.ring.newest < Index.greatest := by
  rcases hs.ring h.window with ⟨-, hnone⟩ | ⟨t, c, y, i, d, -, -, he, -⟩
  · rw [hnone] at hx
    cases hx
  · exact h.window.newest_lt_of_push he

theorem Coherent.newest_eq_of_lost (h : s.Coherent log) {x : Sample α} (hx : s.lost? m = some x) :
    s.ring.newest = Index.greatest := by
  cases m with
  | step t =>
    obtain ⟨y, -, hy⟩ := Option.bind_eq_some_iff.mp hx
    split at hy
    · cases hy
    · exact h.window.newest_eq_of_push_error ‹_›
  | _ => cases hx

/-- The readings are as many as the system counts; they are for the appends that got the lock, in
    that order, and for each thread's own, in its order; and the pushes are the first of
    them, up to the ones that failed for want of an index. -/
structure Clocked (s : System α) (stampings : List (Nat × Sample α)) (admitted : List (Nat × α))
    (log : List (Sample α)) : Prop where
  count : s.readings = stampings.length
  attempts : ∀ t, s.attempts t = valuesOf t stampings
  admitted : admitted = stampings.map (fun p => (p.1, p.2.value)) ++ s.entering?.toList
  pushed : ∃ lost, stampings.map (·.2) = log ++ lost ++ s.stamping?.toList ∧
    (lost ≠ [] → s.ring.newest = Index.greatest)

theorem Clocked.step {stampings : List (Nat × Sample α)} {admitted : List (Nat × α)}
    (h : s.Clocked stampings admitted log) (hc : s.Coherent log) (hs : Step s m s') :
    s'.Clocked (stampings ++ (s.stamping m).toList) (admitted ++ (s.admission? m).toList)
      (log ++ (s.addition? m).toList) := by
  have hpasses := hc.passes hs
  refine ⟨?_, ?_, ?_, ?_⟩
  · rw [hs.readings, h.count, List.length_append]
  · intro t
    rw [hc.attempts_step hs, h.attempts]
    exact List.filterMap_append.symm
  · rw [h.admitted, List.append_assoc, hpasses.enters, List.map_append, List.append_assoc, Option.toList_map]
  · obtain ⟨lost, hlost, hlast⟩ := h.pushed
    have hle := hc.newest_le_step hs
    have hle' := (hc.step hs).window.newest_le
    have hmap : (stampings ++ (s.stamping m).toList).map (·.2) =
        log ++ lost ++ ((s.addition? m).toList ++ (s.lost? m).toList ++ s'.stamping?.toList) := by
      rw [List.map_append, hlost, List.append_assoc, ← hpasses.stamps, Option.toList_map]
    cases hadd : s.addition? m with
    | none =>
      refine ⟨lost ++ (s.lost? m).toList, ?_, ?_⟩
      · rw [hmap, hadd]
        simp
      · intro hne
        have hfull : s.ring.newest = Index.greatest := by
          cases hl : s.lost? m with
          | none =>
            rw [hl] at hne
            exact hlast (by simpa using hne)
          | some x => exact hc.newest_eq_of_lost hl
        omega
    | some x =>
      -- where one pushes, none has failed
      have hlt := hc.newest_lt_of_addition hs hadd
      have hnil : lost = [] := by
        by_cases e : lost = []
        · exact e
        · have := hlast e
          omega
      have hnone : s.lost? m = none := by
        cases hl : s.lost? m with
        | none => rfl
        | some y =>
          have := hc.newest_eq_of_lost hl
          omega
      refine ⟨[], ?_, fun hne => absurd rfl hne⟩
      rw [hmap, hadd, hnil, hnone]
      simp

variable {o : Opening} {memory : Memory} {clock : Clock} {now : Nat} {s₀ : System α}

theorem Clocked.of_opened (ho : (o.run memory clock now).2 = .opened s₀) : s₀.Clocked [] [] [] := by
  obtain ⟨-, ring, -, rfl⟩ := Opening.eq_initial_of_opened ho
  refine ⟨rfl, fun t => ?_, rfl, [], rfl, fun hne => absurd rfl hne⟩
  simp [System.attempts, thread_initial, Thread.attempts, Phase.attempted?, valuesOf]

/-- In every reachable state the readings are in step with the appends and the pushes. -/
theorem clocked_of_reached (ho : (o.run memory clock now).2 = .opened s₀) (hr : s₀.run? moves = some s) :
    s.Clocked (s₀.stampings moves) (s₀.admissions moves) (s₀.log moves) := by
  refine run_prefix_induction (I := fun before u => u.Clocked (s₀.stampings before) (s₀.admissions before)
    (s₀.log before)) (Clocked.of_opened ho) ?_ hr
  intro before u m u' _ hb hm ih
  have hstep := ih.step (Coherent.of_reached ho hb) (step_of_move? hm)
  rw [stampings, admissions, gather_concat hb hm, gather_concat hb hm, log_concat hb hm]
  exact hstep

end System

end Chronicle
