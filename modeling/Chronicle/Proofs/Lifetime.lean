/-
  Chronicle.Proofs.Lifetime — an index lives once, with one content.

  `r.life i` is where the index `i` is in its life: to come, retained, evicted. A push
  appends one index and evicts at most one, which was retained; nothing else moves the
  ends of the series (`Coherent.life_turns`). So no index goes back, the ends never
  recede, and what a read was told of an index is what the log has there for good.

  A request whose index is evicted when it is made is told so on entry, whenever it gets
  the lock, with an oldest index that has not gone back (`refused_of_call`).

  Proved: `index_lives_once`.
-/

import Chronicle.Proofs.Outcomes
import Chronicle.Proofs.System.Ask

namespace Chronicle

variable {α : Type}

inductive Life where
  | future
  | retained
  | evicted
  deriving DecidableEq, Repr

namespace Life

/-- How far a life has come. -/
def age : Life → Nat
  | .future => 0
  | .retained => 1
  | .evicted => 2

/-- One move brings a life no further than to its next stage. -/
inductive Turns : Life → Life → Prop
  | stays (l : Life) : Turns l l
  | appended : Turns .future .retained
  | evicted : Turns .retained .evicted

theorem Turns.age_le {l l' : Life} (h : l.Turns l') : l.age ≤ l'.age := by
  cases h with
  | stays => exact Nat.le_refl _
  | appended | evicted => decide

end Life

namespace Ring

def life {σ : Type} (r : Ring σ) (i : Int) : Life :=
  if i < r.oldest then .evicted else if i ≤ r.newest then .retained else .future

def edge {σ : Type} (r : Ring σ) : Edge → Int
  | .oldest => r.oldest
  | .newest => r.newest

section

variable {σ : Type} {r : Ring σ} {i : Int}

theorem life_of_lt (h : i < r.oldest) : r.life i = .evicted := if_pos h

theorem life_of_le (ho : r.oldest ≤ i) (hn : i ≤ r.newest) : r.life i = .retained := by
  unfold life
  rw [if_neg (by omega), if_pos hn]

theorem life_of_gt (ho : r.oldest ≤ i) (hn : r.newest < i) : r.life i = .future := by
  unfold life
  rw [if_neg (by omega), if_neg (by omega)]

theorem Window.oldest_pushed {start : Int} {log : List σ} (h : r.Window start log) (x : σ) :
    (pushed r x).oldest = r.oldest ∨ (pushed r x).oldest = r.oldest + 1 ∧ r.oldest ≤ r.newest := by
  have hpos := h.capacity_pos
  unfold pushed
  by_cases hroom : r.newest + 1 < r.oldest + r.capacity
  · exact Or.inl (if_pos hroom)
  · exact Or.inr ⟨if_neg hroom, by omega⟩

/-- A push appends the next index, and evicts at most the oldest one. -/
theorem Window.life_pushed {start : Int} {log : List σ} (h : r.Window start log) (x : σ) (i : Int) :
    (r.life i).Turns ((pushed r x).life i) := by
  have hle := h.oldest_le_newest_succ
  have hnew : (pushed r x).newest = r.newest + 1 := rfl
  have hold := h.oldest_pushed x
  by_cases hev : i < r.oldest
  · rw [life_of_lt hev, life_of_lt (by omega)]
    exact .stays _
  by_cases hin : i ≤ r.newest
  · rw [life_of_le (by omega) hin]
    by_cases hlast : i < (pushed r x).oldest
    · rw [life_of_lt hlast]
      exact .evicted
    · rw [life_of_le (by omega) (by omega)]
      exact .stays _
  · rw [life_of_gt (by omega) (by omega)]
    by_cases hnext : i ≤ r.newest + 1
    · rw [life_of_le (by omega) (by omega)]
      exact .appended
    · rw [life_of_gt (by omega) (by omega)]
      exact .stays _

end

end Ring

/-- The end of the history that a reply tells of. -/
def Reply.observes? (r : Reply α) : Option (Edge × Int) :=
  match r.call.request, r.answer with
  | .edge which _, .index b => some (which, b)
  | .read .., .failed (.evicted _ oldest) | .await .., .failed (.evicted _ oldest) => some (.oldest, oldest)
  | _, _ => none

theorem Reply.observes?_of_evicted {r : Reply α} {i oldest : Int} (hg : r.call.request.guarded = true)
    (ha : r.answer = .failed (.evicted i oldest)) : r.observes? = some (.oldest, oldest) := by
  unfold observes?
  rw [ha]
  cases hq : r.call.request <;> first | rfl | (rw [hq] at hg; cases hg)

/-- A reply that tells of an end of the history is one to a request that waits. -/
theorem Reply.target?_of_observes? {r : Reply α} {e : Edge × Int} (h : r.observes? = some e) (start : Int) :
    ∃ i, r.call.request.target? start = some i := by
  unfold observes? at h
  cases hq : r.call.request <;> first | exact ⟨_, rfl⟩ | (rw [hq] at h; cases h)

/-- The call has not been decided: it wants the lock, or has just got it. -/
def Phase.Enters (c : Call α) : Phase α → Prop
  | .ready c' | .entered c' => c' = c
  | _ => False

theorem Phase.Enters.notified {p : Phase α} {c : Call α} (h : p.Enters c) : p.notified.Enters c := by
  cases p <;> exact h

namespace System

variable {s s' u u' : System α} {t : Nat} {c : Call α} {m : Move α} {i : Int} {log : List (Sample α)}
  {moves : List (Move α)}

/-! ## One way -/

/-- No move takes an index back, or past a stage of its life. -/
theorem Coherent.life_turns (h : s.Coherent log) (hs : Step s m s') (i : Int) :
    (s.ring.life i).Turns (s'.ring.life i) := by
  rcases hs.ring h.window with ⟨hr | ⟨j, hr⟩, -⟩ | ⟨t, c, x, j, d, rfl, hp, he, -⟩
  · rw [hr]; exact .stays _
  · rw [hr]; exact .stays _
  · rw [(h.window.push he).2.1]; exact h.window.life_pushed x i

theorem Coherent.life_age_le (h : s.Coherent log) (hr : s.run? moves = some s') (i : Int) :
    (s.ring.life i).age ≤ (s'.ring.life i).age := by
  refine (run_induction (I := fun l u => u.Coherent l ∧ (s.ring.life i).age ≤ (u.ring.life i).age) ?_
    ⟨h, Nat.le_refl _⟩ hr).2
  rintro l u m u' - hs ⟨hu, hle⟩
  exact ⟨hu.step hs, Nat.le_trans hle (hu.life_turns hs i).age_le⟩

/-! ## What is seen of the ends -/

/-- A reply that tells of an end of the history tells of it as it was then. -/
theorem Told.observed {a : Answer α} (h : u.Told t c i a) {n b : Int} {n' : Nat} {which : Edge}
    (ht : c.request.target? n = some i) (hobs : (⟨c, a, n'⟩ : Reply α).observes? = some (which, b)) :
    b = u.ring.edge which := by
  simp only [Reply.observes?] at hobs
  cases hq : c.request with
  | read view j limit =>
    rw [hq] at ht
    cases ht
    cases h with
    | refused _ _ hi => rw [hq] at hobs; cases hobs; rfl
    | served w _ _ hn =>
      by_cases hi : i < u.ring.oldest
      · rw [hq, Ring.verdict_evicted hi] at hobs; cases hobs; rfl
      · have hev : u.ring.evicted i = false := by simpa [Ring.evicted] using hi
        rw [hq] at hobs
        simp only [Ring.verdict, Ring.serve, hev] at hobs
        cases he : u.ring.element i with
        | ok x => rw [he] at hobs; cases view <;> cases hobs
        | error p => rw [he] at hobs; cases hobs
    | cancelled | timedOut => rw [hq] at hobs; cases hobs
  | await j limit =>
    cases h with
    | refused _ _ hi => rw [hq] at hobs; cases hobs; rfl
    | served | cancelled | timedOut => rw [hq] at hobs; cases hobs
  | edge end' time =>
    cases h with
    | refused _ hg => rw [hq] at hg; cases hg
    | served w _ _ hn => rw [hq] at hobs; cases end' <;> cases hobs <;> rfl
    | cancelled | timedOut => rw [hq] at hobs; cases time <;> cases hobs
  | newestValue => rw [hq] at hobs; cases hobs
  | _ => rw [hq] at ht; cases ht

/-! ## Evicted for good -/

/-- An entry that has not been decided stays so, or is refused: the index was evicted when
    the call was made. -/
theorem Coherent.refused_of_call (h : s.Coherent log) (hp : s.phase t = .ready c)
    (ht : c.request.target? s.settings.start = some i) (hg : c.request.guarded = true) (hi : i < s.ring.oldest)
    (hr : s.run? moves = some s') :
    (s'.thread t).replies = (s.thread t).replies ∧ (s'.phase t).Enters c ∨
      ∃ newer r oldest, s.ring.oldest ≤ oldest ∧ (s'.thread t).replies = newer ++ r :: (s.thread t).replies ∧
        r.call = c ∧ r.answer = .failed (.evicted i oldest) := by
  refine run_prefix_induction (I := fun _ v =>
    (v.thread t).replies = (s.thread t).replies ∧ (v.phase t).Enters c ∨
      ∃ newer r oldest, s.ring.oldest ≤ oldest ∧ (v.thread t).replies = newer ++ r :: (s.thread t).replies ∧
        r.call = c ∧ r.answer = .failed (.evicted i oldest)) ?_ ?_ hr
  · refine Or.inl ⟨rfl, ?_⟩
    rw [hp]
    exact rfl
  intro before v m v' _ hb hm ih
  have hs := step_of_move? hm
  rcases ih with ⟨hrep, hv⟩ | ⟨newer, r, oldest, hle, hrep, hcall, ha⟩
  · by_cases hself : m = .step t
    · subst hself
      have hstep : v.step? t = some v' := hm
      cases hphase : v.phase t with
      | ready c' =>
        rw [hphase] at hv
        obtain rfl : c' = c := hv
        rw [step?_ready_acquire hphase (lockFree_of_target? ht)] at hstep
        obtain ⟨-, rfl⟩ := (acquire_eq_some v t).mp hstep
        refine Or.inl ⟨by simp [hrep], ?_⟩
        simp only [phase_become, if_true]
        exact rfl
      | entered c' =>
        rw [hphase] at hv
        obtain rfl : c' = c := hv
        have hle := (h.bounds_le hb).1
        have hev : v.ring.evicted i = true := by simp only [Ring.evicted, decide_eq_true_eq]; omega
        have hends := ends_of_refused hphase (run_settings hb ▸ ht) hg hev hstep
        exact Or.inr ⟨[], _, v.ring.oldest, hle, by rw [hends.replies, hrep]; rfl, rfl, rfl⟩
      | _ => rw [hphase] at hv; cases hv
    · have hother : m.mover? ≠ some t := by
        intro hmover
        refine hself (hs.eq_step hmover ?_ ?_)
        · intro e; rw [e] at hv; cases hv
        · intro c' w wake e; rw [e] at hv; cases hv
      exact Or.inl ⟨(hs.replies_other hself).trans hrep,
        hs.kept_other (P := fun p => p.Enters c) Phase.Enters.notified hother hv⟩
  · obtain ⟨newer', hrep'⟩ := hs.replies_newer hrep
    exact Or.inr ⟨newer', r, oldest, hle, hrep', hcall, ha⟩

/-- The request, made in `v`, is told on entry that the index is evicted, and of an oldest
    index that is not before `oldest`: at once if the lock is free, else when its thread gets
    it. -/
structure RefusedOnEntry (v : System α) (t : Nat) (q : Request α) (i oldest : Int) : Prop where
  alone : v.phase t = .idle → v.holder = none →
    ∃ oldest', oldest ≤ oldest' ∧ v.Answers t q (.failed (.evicted i oldest'))
  amid : ∀ v' later s', v.call? t q = some v' → v'.run? later = some s' →
    (s'.thread t).replies = (v.thread t).replies ∧ (s'.phase t).Enters (v.callOf q) ∨
      ∃ newer r oldest', oldest ≤ oldest' ∧ (s'.thread t).replies = newer ++ r :: (v.thread t).replies ∧
        r.call = v.callOf q ∧ r.answer = .failed (.evicted i oldest')

theorem Coherent.refusedOnEntry {q : Request α} {oldest : Int} (h : s.Coherent log)
    (ht : q.target? s.settings.start = some i) (hg : q.guarded = true) (hi : i < oldest) (hle : oldest ≤ s.ring.oldest) :
    s.RefusedOnEntry t q i oldest := by
  constructor
  · intro hidle hh
    exact ⟨s.ring.oldest, hle, answers_evicted hidle hh ht hg (by simp only [Ring.evicted, decide_eq_true_eq]; omega)⟩
  · intro v' later s' hcall hrun
    have hv' : v' = s.become t (.ready (s.callOf q)) := by
      unfold call? at hcall
      split at hcall
      · cases hcall; rfl
      · cases hcall
    subst hv'
    have hc := h.step (step_of_move? (m := .call t q) hcall)
    have hready : (s.become t (.ready (s.callOf q))).phase t = .ready (s.callOf q) := by simp
    rcases hc.refused_of_call hready ht hg (by show i < s.ring.oldest; omega) hrun with
      ⟨hrep, henters⟩ | ⟨newer, r, oldest', hle', hrep, hcall', ha⟩
    · exact Or.inl ⟨by rw [hrep, thread_become, if_pos rfl], henters⟩
    · exact Or.inr ⟨newer, r, oldest', Int.le_trans hle hle', by rw [hrep, thread_become, if_pos rfl], hcall', ha⟩

variable {o : Opening} {memory : Memory} {clock : Clock} {now : Nat} {s₀ : System α}

/-- What a reply tells of an end of the history, its thread saw with the lock, when that was
    the end. -/
theorem EndedBy.observed (ho : (o.run memory clock now).2 = .opened s₀) {r : Reply α} {before : List (Move α)}
    (h : s₀.EndedBy t r moves before u u') {which : Edge} {b : Int} (hobs : r.observes? = some (which, b)) :
    u.holder = some t ∧ b = u.ring.edge which := by
  obtain ⟨-, hb, hstep, hrep⟩ := h
  have hc := Coherent.of_reached ho hb
  obtain ⟨i, ht⟩ := Reply.target?_of_observes? hobs u.settings.start
  obtain ⟨htold, -⟩ := hc.told (step_of_move? hstep) hrep ht
  exact ⟨htold.holder hc.locked, htold.observed ht hobs⟩

theorem edge_le {r r' : Ring (Sample α)} (h : r.oldest ≤ r'.oldest ∧ r.newest ≤ r'.newest) (which : Edge) :
    r.edge which ≤ r'.edge which := by
  cases which with
  | oldest => exact h.1
  | newest => exact h.2

/-- A read that has a value has what the log had at its index when the read was answered. -/
theorem sample_of_read (ho : (o.run memory clock now).2 = .opened s₀) (hr : s₀.run? moves = some s) {r : Reply α} {view : View}
    {limit : Limit} (hmem : r ∈ (s.thread t).replies) (hq : r.call.request = .read view i limit)
    (ha : r.answer.isFailure = false) :
    ∃ before u u' k x, s₀.EndedBy t r moves before u u' ∧ i = o.settings.start + (k : Nat) ∧
      (s₀.log before)[k]? = some x ∧ u.ring.life i = .retained ∧ view.Shows x r.answer := by
  obtain ⟨before, u, u', hended, htold⟩ := told_of_reached ho hr hmem (by rw [hq]; rfl)
  obtain ⟨-, hb, -, -⟩ := id hended
  obtain ⟨k, x, hoi, hin, hk, hx, hax⟩ := (htold.readsOff (Coherent.of_reached ho hb) hq).of_not_isFailure ha
  rw [settings_of_reached ho hb] at hk
  exact ⟨before, u, u', k, x, hended, hk, hx, Ring.life_of_le hoi hin, hax⟩

/-- An index goes from to come to retained to evicted, and every read that has its value has
    the sample that was appended there, which was appended before; once a read was told that
    it is evicted, whoever asks for it, or for one before it, is told so on entry; and the ends
    of the history, seen with the lock, never go back. -/
theorem index_lives_once (ho : (o.run memory clock now).2 = .opened s₀) (hr : s₀.run? moves = some s) :
    (∀ m s' i, s.move? m = some s' → (s.ring.life i).Turns (s'.ring.life i)) ∧
    (∀ later s' i, s.run? later = some s' → (s.ring.life i).age ≤ (s'.ring.life i).age) ∧
    (∀ t r t' r' view view' i limit limit', r ∈ (s.thread t).replies → r' ∈ (s.thread t').replies →
      r.call.request = .read view i limit → r'.call.request = .read view' i limit' →
      r.answer.isFailure = false → r'.answer.isFailure = false →
      ∃ x : Sample α, view.Shows x r.answer ∧ view'.Shows x r'.answer) ∧
    (∀ t r view i limit, r ∈ (s.thread t).replies → r.call.request = .read view i limit →
      r.answer.isFailure = false → ∃ before u u' k x, s₀.EndedBy t r moves before u u' ∧
        i = o.settings.start + (k : Nat) ∧ (s₀.log before)[k]? = some x ∧ u.ring.life i = .retained ∧
        view.Shows x r.answer) ∧
    (∀ t r i oldest, r ∈ (s.thread t).replies → r.call.request.guarded = true →
      r.answer = .failed (.evicted i oldest) →
      ∀ later v t' q j, s.run? later = some v → q.target? o.settings.start = some j → q.guarded = true →
        j < oldest → v.RefusedOnEntry t' q j oldest) ∧
    (∀ t r which b, r ∈ (s.thread t).replies → r.observes? = some (which, b) →
      ∃ before u u', s₀.EndedBy t r moves before u u' ∧ u.holder = some t ∧ b = u.ring.edge which) ∧
    (∀ t r before u u' t' r' before' v v' which b b', s₀.EndedBy t r moves before u u' →
      s₀.EndedBy t' r' moves before' v v' → before <+: before' → r.observes? = some (which, b) →
      r'.observes? = some (which, b') → b ≤ b') := by
  have hc := Coherent.of_reached ho hr
  have hobserved : ∀ {t r which b}, r ∈ (s.thread t).replies → r.observes? = some (which, b) →
      ∃ before u u', s₀.EndedBy t r moves before u u' ∧ u.holder = some t ∧ b = u.ring.edge which := by
    intro t r which b hmem hobs
    obtain ⟨i, ht⟩ := Reply.target?_of_observes? hobs o.settings.start
    obtain ⟨before, u, u', hended, -⟩ := told_of_reached ho hr hmem ht
    exact ⟨before, u, u', hended, hended.observed ho hobs⟩
  refine ⟨?_, ?_, ?_, ?_, ?_, ?_, ?_⟩
  · intro m s' i hm
    exact hc.life_turns (step_of_move? hm) i
  · intro later s' i hrun
    exact hc.life_age_le hrun i
  · intro t r t' r' view view' i limit limit' hmem hmem' hq hq' ha ha'
    obtain ⟨before, u, u', k, x, ⟨hpre, hb, -⟩, hk, hx, -, hax⟩ := sample_of_read ho hr hmem hq ha
    obtain ⟨before', v, v', k', x', ⟨hpre', hb', -⟩, hk', hx', -, hax'⟩ :=
      sample_of_read ho hr hmem' hq' ha'
    obtain rfl : k' = k := by omega
    have hlog := log_getElem? ((List.prefix_append _ _).trans hpre) hb hx
    have hlog' := log_getElem? ((List.prefix_append _ _).trans hpre') hb' hx'
    obtain rfl : x' = x := Option.some.inj (hlog'.symm.trans hlog)
    exact ⟨x', hax, hax'⟩
  · intro t r view i limit hmem hq ha
    exact sample_of_read ho hr hmem hq ha
  · intro t r i oldest hmem hg ha later v t' q j hlater ht hgq hj
    obtain ⟨before, u, u', ⟨hpre, hb, -⟩, -, hbound⟩ := hobserved hmem (Reply.observes?_of_evicted hg ha)
    obtain ⟨rest, -, hrest⟩ := run_split hr ((List.prefix_append _ _).trans hpre) hb
    have hu := (Coherent.of_reached ho hb).bounds_le hrest
    have hv := (hc.bounds_le hlater).1
    have hle : oldest ≤ v.ring.oldest := by rw [hbound]; exact Int.le_trans hu.1 hv
    refine (hc.of_run hlater).refusedOnEntry ?_ hgq hj hle
    rw [run_settings hlater, settings_of_reached ho hr]
    exact ht
  · intro t r which b hmem hobs
    exact hobserved hmem hobs
  · intro t r before u u' t' r' before' v v' which b b' hended hended' hpre hobs hobs'
    obtain ⟨-, rfl⟩ := hended.observed ho hobs
    obtain ⟨-, rfl⟩ := hended'.observed ho hobs'
    obtain ⟨rest, -, hrest⟩ := run_split hended'.2.1 hpre hended.2.1
    exact edge_le ((Coherent.of_reached ho hended.2.1).bounds_le hrest) which

/-- Three appends to two slots from −1 on, with reads of the index 0 before the last of them and after. -/
def readTwice : List (Move Nat) :=
  [appendAlone 0 10, appendAlone 0 20, [.call 1 (.read .value 0 .forever)], List.replicate 3 (.step 1),
    [.call 1 (.read .stampMs 0 .forever)], List.replicate 3 (.step 1), appendAlone 0 30,
    [.call 2 (.read .sample 0 .forever)], List.replicate 3 (.step 2), [.call 2 (.read .stampS 0 .forever)],
    List.replicate 3 (.step 2), [.call 2 (.read .value (-1) .forever), .step 2, .step 2]].flatten

/-- What was read of the index 0 before the last append is what is read of it after, in every view;
    the index −1 is gone, and stays so. -/
theorem index_lives_once_lapped :
    ∃ (s : System Nat) (r₁ r₂ r₃ r₄ r₅ : Reply Nat) (x : Sample Nat), timed.run? readTwice = some s ∧
      (s.thread 1).replies = [r₂, r₁] ∧ (s.thread 2).replies = [r₅, r₄, r₃] ∧
      r₁.answer = .value 20 ∧ r₂.answer = .stampMs 20.0 ∧ r₃.answer = .sample ⟨20, 20.0⟩ ∧
      r₄.answer = .stampS (20.0 / 1000.0) ∧ r₃.answer = .sample x ∧ r₄.answer = .stampS (x.stampMs / 1000.0) ∧
      r₅.answer = .failed (.evicted (-1) 0) ∧
      ∃ oldest, 0 ≤ oldest ∧ s.Answers 3 (.await (-1) .forever) (.failed (.evicted (-1) oldest)) := by
  have hrun : (timed.run? readTwice).any
      (fun s => (s.phase 3).isIdle && s.holder.isNone &&
        decide ((s.thread 1).replies.map (fun r => (r.call.request.read?, r.answer.isFailure)) =
          [(some (.stampMs, 0, .forever), false), (some (.value, 0, .forever), false)]) &&
        decide ((s.thread 2).replies.map (fun r => (r.call.request.read?, r.answer.isFailure, r.answer.fault?)) =
          [(some (.value, -1, .forever), true, some (.evicted (-1) 0)),
            (some (.stampS, 0, .forever), false, none), (some (.sample, 0, .forever), false, none)])) = true := by
    decide +kernel
  obtain ⟨s, hr, hs⟩ := exists_run hrun
  simp only [Bool.and_eq_true, decide_eq_true_eq, Option.isNone_iff_eq_none] at hs
  obtain ⟨⟨⟨hidle, hfree⟩, h1⟩, h2⟩ := hs
  obtain ⟨r₂, rest, hr1, hread₂, hrest⟩ := List.map_eq_cons_iff.mp h1
  obtain ⟨r₁, rfl, hread₁⟩ := List.map_eq_singleton_iff.mp hrest
  obtain ⟨r₅, rest, hr2, hread₅, hrest⟩ := List.map_eq_cons_iff.mp h2
  obtain ⟨r₄, rest, rfl, hread₄, hrest⟩ := List.map_eq_cons_iff.mp hrest
  obtain ⟨r₃, rfl, hread₃⟩ := List.map_eq_singleton_iff.mp hrest
  simp only [Prod.mk.injEq] at hread₁ hread₂ hread₃ hread₄ hread₅
  have hfault : r₅.answer = .failed (.evicted (-1) 0) := Answer.eq_failed hread₅.2.2
  obtain ⟨-, -, hsame, hcontent, hgone, -⟩ := index_lives_once timed_opened hr
  have hlog : timed.log readTwice = [⟨10, 10.0⟩, ⟨20, 20.0⟩, ⟨30, 30.0⟩] := rfl
  have hshows : ∀ {t r view}, r ∈ (s.thread t).replies → r.call.request.read? = some (view, 0, .forever) →
      r.answer.isFailure = false → view.Shows ⟨20, 20.0⟩ r.answer := by
    intro t r view hmem hq ha
    obtain ⟨before, u, u', k, x, ⟨hpre, hb, -⟩, hk, hx, -, hshows⟩ :=
      hcontent t r view 0 .forever hmem (Request.eq_read hq) ha
    obtain rfl : k = 1 := by change (0 : Int) = -1 + k at hk; omega
    have hlater := log_getElem? ((List.prefix_append _ _).trans hpre) hb hx
    rw [hlog] at hlater
    cases hlater
    exact hshows
  have hmem₁ : r₁ ∈ (s.thread 1).replies := by simp [hr1]
  have hmem₂ : r₂ ∈ (s.thread 1).replies := by simp [hr1]
  have hmem₃ : r₃ ∈ (s.thread 2).replies := by simp [hr2]
  have hmem₄ : r₄ ∈ (s.thread 2).replies := by simp [hr2]
  obtain ⟨x, hx₃, hx₄⟩ := hsame 2 r₃ 2 r₄ .sample .stampS 0 .forever .forever hmem₃ hmem₄ (Request.eq_read hread₃.1)
    (Request.eq_read hread₄.1) hread₃.2.1 hread₄.2.1
  have hrefused := hgone 2 r₅ (-1) 0 (by simp [hr2]) (by rw [Request.eq_read hread₅.1]; rfl) hfault [] s 3
    (.await (-1) .forever) (-1) rfl rfl rfl (by decide)
  exact ⟨s, r₁, r₂, r₃, r₄, r₅, x, hr, hr1, hr2, hshows hmem₁ hread₁.1 hread₁.2, hshows hmem₂ hread₂.1 hread₂.2,
    hshows hmem₃ hread₃.1 hread₃.2.1, hshows hmem₄ hread₄.1 hread₄.2.1, hx₃, hx₄, hfault,
    hrefused.alone (Phase.eq_idle hidle) hfree⟩

end System

end Chronicle
