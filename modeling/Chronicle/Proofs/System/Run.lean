/-
  Chronicle.Proofs.System.Run — schedules, and what they append.

  `s.log moves` is what a schedule adds to the history of a series, in the order of the
  pushes: for each append whose push succeeds, the value it was called with and the stamp
  it was given. It is one case of `gather`, the list of what the moves of a schedule yield,
  each in the state it is made in.

  Proved: what holds at the start and at each further move holds at the end
  (`run_prefix_induction`), so what one step preserves, with the log it adds to, a run
  preserves (`run_induction`, `run_invariant`); replies are only ever added
  (`run_replies`), each by a step of its thread (`run_reply`).
-/

import Chronicle.Proofs.System.Step

namespace Chronicle

variable {α : Type}

def Phase.sleepsOn? : Phase α → Option Int
  | .asleep _ w _ => some w.target
  | _ => none

theorem Phase.eq_asleep {p : Phase α} {i : Int} (h : p.sleepsOn? = some i) :
    ∃ c w wake, p = .asleep c w wake ∧ w.target = i := by
  cases p <;> cases h
  exact ⟨_, _, _, rfl, rfl⟩

theorem Phase.eq_idle {p : Phase α} (h : p.isIdle = true) : p = .idle := by
  cases p <;> first | rfl | cases h

def Request.read? : Request α → Option (View × Int × Limit)
  | .read view i limit => some (view, i, limit)
  | _ => none

theorem Request.eq_read {q : Request α} {view : View} {i : Int} {limit : Limit} (h : q.read? = some (view, i, limit)) :
    q = .read view i limit := by
  cases q <;> cases h
  rfl

def Answer.fault? : Answer α → Option ReadFault
  | .failed e => some e
  | _ => none

theorem Answer.eq_failed {a : Answer α} {e : ReadFault} (h : a.fault? = some e) : a = .failed e := by
  cases a <;> cases h
  rfl

namespace System

/-- The sample that a move adds to the history, if it pushes one. -/
def addition? (s : System α) : Move α → Option (Sample α)
  | .step t =>
    match s.phase t with
    | .stamped c x =>
      match c.request, s.ring.push x with
      | .append v, .ok .. => some ⟨v, x.stampMs⟩
      | _, _ => none
    | _ => none
  | _ => none

/-- What the moves of a schedule yield, in order, each by the state it is made in. -/
def gather {β : Type} (yields : System α → Move α → Option β) (s : System α) : List (Move α) → List β
  | [] => []
  | m :: moves =>
    (yields s m).toList ++
      match s.move? m with
      | some s' => s'.gather yields moves
      | none => []

def log (s : System α) : List (Move α) → List (Sample α)
  | [] => []
  | m :: moves =>
    (s.addition? m).toList ++
      match s.move? m with
      | some s' => s'.log moves
      | none => []

/-- The moves of an append that is left alone: the call, the lock, the clock, the push, the
    release and the wake-up. -/
def appendAlone (t : Nat) (v : α) : List (Move α) := .call t (.append v) :: List.replicate 5 (.step t)

variable {s s' s'' : System α} {m : Move α} {moves before after : List (Move α)}

/-! ## Runs -/

@[simp] theorem run?_nil : s.run? [] = some s := rfl

theorem run?_cons : s.run? (m :: moves) = (s.move? m).bind (·.run? moves) := rfl

theorem run?_cons_of_move? (h : s.move? m = some s') : s.run? (m :: moves) = s'.run? moves := by
  simp [run?_cons, h]

theorem run?_append : s.run? (before ++ after) = (s.run? before).bind (·.run? after) :=
  List.foldlM_append ..

theorem run?_append_of_run? (h : s.run? before = some s') : s.run? (before ++ after) = s'.run? after := by
  simp [run?_append, h]

section

variable {β : Type} {yields : System α → Move α → Option β}

theorem gather_cons_of_move? (h : s.move? m = some s') :
    s.gather yields (m :: moves) = (yields s m).toList ++ s'.gather yields moves := by
  simp [gather, h]

theorem gather_append (h : s.run? before = some s') :
    s.gather yields (before ++ after) = s.gather yields before ++ s'.gather yields after := by
  induction before generalizing s with
  | nil => cases h; rfl
  | cons m before ih =>
    obtain ⟨s₁, h₁, h₂⟩ := Option.bind_eq_some_iff.mp h
    rw [List.cons_append, gather_cons_of_move? h₁, gather_cons_of_move? h₁, ih h₂, List.append_assoc]

theorem gather_concat (h : s.run? before = some s') (hm : s'.move? m = some s'') :
    s.gather yields (before ++ [m]) = s.gather yields before ++ (yields s' m).toList := by
  rw [gather_append h, gather_cons_of_move? hm]
  simp [gather]

end

/-- The history is one of the things a schedule yields. -/
theorem log_eq_gather (s : System α) (moves : List (Move α)) : s.log moves = s.gather addition? moves := by
  induction moves generalizing s with
  | nil => rfl
  | cons m moves ih =>
    unfold log gather
    cases s.move? m with
    | none => rfl
    | some s' => simp only [ih s']

theorem log_append (h : s.run? before = some s') : s.log (before ++ after) = s.log before ++ s'.log after := by
  simp only [log_eq_gather, gather_append h]

theorem log_concat (h : s.run? before = some s') (hm : s'.move? m = some s'') :
    s.log (before ++ [m]) = s.log before ++ (s'.addition? m).toList := by
  simp only [log_eq_gather, gather_concat h hm]

/-- A run goes on from wherever it has come. -/
theorem run_split (hr : s.run? moves = some s'') (hpre : before <+: moves) (hb : s.run? before = some s') :
    ∃ later, moves = before ++ later ∧ s'.run? later = some s'' := by
  obtain ⟨later, rfl⟩ := hpre
  rw [run?_append_of_run? hb] at hr
  exact ⟨later, rfl, hr⟩

/-- What was appended stays in the history. -/
theorem log_extends (hpre : before <+: moves) (hb : s.run? before = some s') : s.log before <+: s.log moves := by
  obtain ⟨later, rfl⟩ := hpre
  rw [log_append hb]
  exact List.prefix_append _ _

theorem log_getElem? (hpre : before <+: moves) (hb : s.run? before = some s') {k : Nat} {x : Sample α}
    (hx : (s.log before)[k]? = some x) : (s.log moves)[k]? = some x := by
  obtain ⟨rest, he⟩ := log_extends hpre hb
  rw [← he, List.getElem?_append_left (List.getElem?_eq_some_iff.mp hx).1]
  exact hx

/-- What holds at the start of a run, and at each further move of it, holds at its end. -/
theorem run_prefix_induction {I : List (Move α) → System α → Prop} (start : I [] s)
    (step : ∀ before u m u', before ++ [m] <+: moves → s.run? before = some u → u.move? m = some u' → I before u →
      I (before ++ [m]) u')
    (hr : s.run? moves = some s') : I moves s' := by
  suffices h : ∀ rest before u, before ++ rest = moves → s.run? before = some u → I before u →
      u.run? rest = some s' → I moves s' from h moves [] s rfl rfl start hr
  intro rest
  induction rest with
  | nil =>
    rintro before u rfl - h hu
    cases hu
    rwa [List.append_nil]
  | cons m rest ih =>
    intro before u hmoves hb h hu
    obtain ⟨u', h₁, h₂⟩ := Option.bind_eq_some_iff.mp hu
    have hmoves' : before ++ [m] ++ rest = moves := by rw [← hmoves]; simp
    have hb' : s.run? (before ++ [m]) = some u' := by rw [run?_append_of_run? hb, run?_cons_of_move? h₁]; rfl
    exact ih _ u' hmoves' hb' (step before u m u' ⟨rest, hmoves'⟩ hb h₁ h) h₂

/-- What holds of a system and its history, and is preserved by every step, holds after
    every run. -/
theorem run_induction {I : List (Sample α) → System α → Prop}
    (step : ∀ l s m s', m ∈ moves → Step s m s' → I l s → I (l ++ (s.addition? m).toList) s')
    {l : List (Sample α)} (h : I l s) (hr : s.run? moves = some s') : I (l ++ s.log moves) s' := by
  refine run_prefix_induction (I := fun before u => I (l ++ s.log before) u) (by simpa [log] using h) ?_ hr
  intro before u m u' hpre hb hm hI
  have hmem : m ∈ moves := hpre.mem (by simp)
  rw [log_concat hb hm, ← List.append_assoc]
  exact step _ u m u' hmem (step_of_move? hm) hI

theorem run_invariant {I : System α → Prop} (step : ∀ s m s', m ∈ moves → Step s m s' → I s → I s') (h : I s)
    (hr : s.run? moves = some s') : I s' :=
  run_induction (I := fun _ => I) (l := []) (fun _ s m s' hm hs => step s m s' hm hs) h hr

/-- What a schedule yields is yielded by a move on the way. -/
theorem gather_getElem? {β : Type} {yields : System α → Move α → Option β} (hr : s.run? moves = some s') {k : Nat} {y : β}
    (h : (s.gather yields moves)[k]? = some y) :
    ∃ before m u, before ++ [m] <+: moves ∧ s.run? before = some u ∧ yields u m = some y ∧
      (s.gather yields before).length = k := by
  refine run_prefix_induction (I := fun l _ => (s.gather yields l)[k]? = some y → ∃ before m u, before ++ [m] <+: moves ∧
    s.run? before = some u ∧ yields u m = some y ∧ (s.gather yields before).length = k) ?_ ?_ hr h
  · intro h
    cases h
  · intro before u m u' hpre hb hm ih h
    rw [gather_concat hb hm] at h
    rcases Nat.lt_or_ge k (s.gather yields before).length with hlt | hge
    · rw [List.getElem?_append_left hlt] at h
      exact ih h
    · rw [List.getElem?_append_right hge] at h
      have hk := (List.getElem?_eq_some_iff.mp h).1
      cases hy : yields u m with
      | none => rw [hy] at hk; cases hk
      | some y' =>
        rw [hy] at h hk
        obtain hzero : k - (s.gather yields before).length = 0 := by
          simp only [Option.toList_some, List.length_singleton] at hk
          omega
        rw [hzero] at h
        cases h
        exact ⟨before, m, u, hpre, hb, hy, by omega⟩

theorem run_settings (hr : s.run? moves = some s') : s'.settings = s.settings :=
  run_invariant (I := fun u => u.settings = s.settings) (fun _ _ _ _ hs h => hs.settings.trans h) rfl hr

theorem run_clock (hr : s.run? moves = some s') : s'.clock = s.clock :=
  run_invariant (I := fun u => u.clock = s.clock) (fun _ _ _ _ hs h => hs.clock.trans h) rfl hr

/-- A run can be told by what it comes to. -/
theorem exists_run {p : System α → Bool} (h : (s.run? moves).any p = true) :
    ∃ s', s.run? moves = some s' ∧ p s' = true := by
  cases hr : s.run? moves with
  | none => rw [hr] at h; cases h
  | some s' => rw [hr] at h; exact ⟨s', rfl, h⟩

/-! ## A thread's part in a run -/

/-- A thread that no move is made by, and that made no call, is idle. -/
theorem run_idle {t : Nat} (hi : s.phase t = .idle) (hm : ∀ m ∈ moves, m.mover? ≠ some t)
    (hr : s.run? moves = some s') : s'.phase t = .idle := by
  refine run_invariant (I := fun u => u.phase t = .idle) ?_ hi hr
  intro u m u' hmem hs h
  rcases hs.phase_other (hm m hmem) with e | e
  · rw [e, h]
  · rw [e, h]; rfl

/-- Replies are never taken back. -/
theorem run_replies (hr : s.run? moves = some s') (t : Nat) :
    ∃ newer, (s'.thread t).replies = newer ++ (s.thread t).replies := by
  refine run_invariant (I := fun u => ∃ newer, (u.thread t).replies = newer ++ (s.thread t).replies) ?_ ⟨[], rfl⟩ hr
  rintro u m u' - hs ⟨newer, h⟩
  exact hs.replies_newer h

/-- The thread's own step with which a call ended, on the way of a schedule. -/
def EndedBy (s : System α) (t : Nat) (r : Reply α) (moves before : List (Move α)) (u u' : System α) : Prop :=
  before ++ [.step t] <+: moves ∧ s.run? before = some u ∧ u.step? t = some u' ∧
    (u'.thread t).replies = r :: (u.thread t).replies

/-- Every reply was there before, or was made by a step of its thread. -/
theorem run_reply {t : Nat} {r : Reply α} (hr : s.run? moves = some s') (hm : r ∈ (s'.thread t).replies) :
    r ∈ (s.thread t).replies ∨ ∃ before u u', s.EndedBy t r moves before u u' := by
  refine run_prefix_induction (I := fun l v => r ∈ (v.thread t).replies → r ∈ (s.thread t).replies ∨
    ∃ before u u', s.EndedBy t r moves before u u') Or.inl ?_ hr hm
  intro l v m v' hpre hl hstep ih hmem
  rcases (step_of_move? hstep).replies t with he | ⟨r', rfl, -, -, he⟩
  · exact ih (he ▸ hmem)
  · rw [he] at hmem
    rcases List.mem_cons.mp hmem with rfl | hmem
    · exact Or.inr ⟨l, v, v', hpre, hl, hstep, he⟩
    · exact ih hmem

theorem ne_of_reply {r : Reply α} {newer old : List (Reply α)} : old ≠ newer ++ r :: old := fun h => by
  have := congrArg List.length h
  simp only [List.length_append, List.length_cons] at this
  omega

/-- The reply that comes first after a moment is the one that every later moment shows. -/
theorem first_reply {r r' : Reply α} {newer newer' old : List (Reply α)}
    (h : newer ++ r :: old = newer' ++ r' :: old) : r = r' := by
  have hl : newer.length = newer'.length := by
    have := congrArg List.length h
    simp only [List.length_append, List.length_cons] at this
    omega
  have := (List.append_inj h hl).2
  simp only [List.cons.injEq, and_true] at this
  exact this

end System

end Chronicle
