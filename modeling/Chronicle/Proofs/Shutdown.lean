/-
  Chronicle.Proofs.Shutdown — a reader that is shut down has drained the series.

  The reader asks for one index after another, from the first on, each with the same flag and
  no time, and stops at the first answer that is not a value (`drains`). A look tries the
  index before it tries the flag; so when the flag stops the reader, the index it asks for
  is the one that comes next, and all that was appended by then it has collected
  (`Collects`). It makes no difference when the flag goes up, or down again, or how appends
  and looks fall in between.

  The one other way for the reader to stop is to be lapped. A time out there is none, for
  there is no time (`Told.drain_cases`).

  Proved: `shutdown_drains`.
-/

import Chronicle.Proofs.Outcomes
import Chronicle.Proofs.System.Call

namespace Chronicle

variable {α : Type}

/-! ## The loop -/

def Reply.value? (r : Reply α) : Option α :=
  match r.answer with
  | .value v => some v
  | _ => none

theorem Reply.value?_eq_some {r : Reply α} {v : α} : r.value? = some v ↔ r.answer = .value v := by
  unfold value?
  split
  · rename_i w ha
    rw [ha, Option.some.injEq, Answer.value.injEq]
  · rename_i hne
    constructor
    · intro h
      cases h
    · intro h
      exact absurd h (hne v)

/-- What a reader has collected, in the order it did; replies come newest first. -/
def collected (replies : List (Reply α)) : List α := (replies.filterMap Reply.value?).reverse

/-- The index a reader goes on with, if all its replies have values. -/
def upcoming? (start : Int) (replies : List (Reply α)) : Option Int :=
  if replies.all (·.value?.isSome) then some (start + replies.length) else none

/-- If the thread makes a call, it is the one that the loop makes next. -/
def drains (t flag : Nat) (s : System α) : Move α → Bool
  | .call u q => u ≠ t ||
    match upcoming? s.settings.start (s.thread t).replies, q.read? with
    | some i, some request => request = (.value, i, .cancellable flag none)
    | _, _ => false
  | _ => true

theorem of_drains {t flag : Nat} {s : System α} {q : Request α} (h : drains t flag s (.call t q) = true) :
    (∀ r ∈ (s.thread t).replies, ∃ v, r.answer = .value v) ∧
      q = .read .value (s.settings.start + (s.thread t).replies.length) (.cancellable flag none) := by
  simp only [drains, ne_eq, not_true_eq_false, decide_false, Bool.false_or] at h
  split at h
  · rename_i i request hi hq
    obtain rfl := of_decide_eq_true h
    unfold upcoming? at hi
    split at hi
    · rename_i hall
      cases hi
      refine ⟨fun r hr => ?_, Request.eq_read hq⟩
      obtain ⟨v, hv⟩ := Option.isSome_iff_exists.mp (List.all_eq_true.mp hall r hr)
      exact ⟨v, Reply.value?_eq_some.mp hv⟩
    · cases hi
  · cases h

/-! ## What the reader collects -/

/-- Every reply has its value, and the values are the first ones of the log. -/
structure Collects (log : List (Sample α)) (replies : List (Reply α)) : Prop where
  values : ∀ r ∈ replies, ∃ v, r.answer = .value v
  length_le : replies.length ≤ log.length
  collected_eq : collected replies = (log.take replies.length).map (·.value)

namespace Collects

variable {log log' : List (Sample α)} {replies : List (Reply α)}

theorem nil (log : List (Sample α)) : Collects log [] :=
  ⟨fun _ hr => absurd hr List.not_mem_nil, Nat.zero_le _, rfl⟩

theorem mono (h : Collects log replies) (hl : log <+: log') : Collects log' replies := by
  obtain ⟨rest, rfl⟩ := hl
  refine ⟨h.values, ?_, ?_⟩
  · rw [List.length_append]
    exact Nat.le_add_right_of_le h.length_le
  · rw [List.take_append_of_le_length h.length_le]
    exact h.collected_eq

theorem cons (h : Collects log replies) {x : Sample α} (hx : log[replies.length]? = some x) {r : Reply α}
    (ha : r.answer = .value x.value) : Collects log (r :: replies) := by
  refine ⟨?_, ?_, ?_⟩
  · intro r' hr'
    rcases List.mem_cons.mp hr' with rfl | hr'
    · exact ⟨x.value, ha⟩
    · exact h.values r' hr'
  · exact (List.getElem?_eq_some_iff.mp hx).1
  · calc collected (r :: replies) = collected replies ++ [x.value] := by
          simp [collected, Reply.value?_eq_some.mpr ha]
      _ = (log.take (r :: replies).length).map (·.value) := by
          rw [h.collected_eq, List.length_cons, List.take_add_one, hx, List.map_append]
          rfl

/-- A reader that has as many values as there are has them all. -/
theorem all (h : Collects log replies) (hl : log.length ≤ replies.length) : collected replies = log.map (·.value) := by
  rw [h.collected_eq, List.take_of_length_le hl]

end Collects

namespace System

variable {s₀ s u u' : System α} {t flag : Nat} {c : Call α} {i : Int} {before moves : List (Move α)}
  {log : List (Sample α)}

/-- All that a read of a value that waits for its index or a flag can be told. -/
theorem Told.drain_cases {a : Answer α} (h : u.Told t c i a) (hc : u.Coherent log)
    (hq : c.request = .read .value i (.cancellable flag none)) (hi : u.settings.start ≤ i) :
    (∃ (k : Nat) (x : Sample α), i = u.settings.start + k ∧ log[k]? = some x ∧ a = .value x.value) ∨
    (a = .failed (.cancelled i) ∧ u.ring.newest < i ∧ u.flags.isRaised flag = true ∧ ∃ w, u.phase t = .looking c w) ∨
    (i + u.ring.capacity ≤ u.ring.newest ∧ a = .failed (.evicted i (u.ring.newest - u.ring.capacity + 1))) := by
  cases h with
  | refused _ _ hev =>
    have holdest := hc.window.oldest_eq
    have hnewest := hc.window.newest_eq
    have hlap : u.ring.oldest = u.ring.newest - u.ring.capacity + 1 := by omega
    refine Or.inr (Or.inr ⟨by omega, ?_⟩)
    rw [hq, ← hlap]
    rfl
  | served w _ _ hn =>
    have htells := hc.window.tells (q := c.request) (by rw [hq]; rfl) hi hn
    rw [hq] at htells ⊢
    rcases htells with ⟨-, k, x, hk, hx, ha⟩ | hlapped
    · exact Or.inl ⟨k, x, hk, hx, ha⟩
    · exact Or.inr (Or.inr hlapped)
  | cancelled w f d hp hn hl hflag =>
    rw [hq] at hl ⊢
    cases hl
    exact Or.inr (Or.inl ⟨rfl, hn, hflag, w, hp⟩)
  | timedOut w d deadline _ _ hd =>
    rw [hq] at hd
    cases hd

/-- How the reader was stopped by the reply `r`, with the replies `older` before it: a look saw
    its flag up and found everything collected that was appended by then, or it was lapped. -/
structure Stopped (s₀ : System α) (t flag : Nat) (moves : List (Move α)) (r : Reply α) (older : List (Reply α)) :
    Prop where
  request : r.call.request = .read .value (s₀.settings.start + older.length) (.cancellable flag none)
  ended : ∃ before u u', s₀.EndedBy t r moves before u u' ∧ Collects (s₀.log before) older ∧
    (r.answer = .failed (.cancelled (s₀.settings.start + older.length)) ∧
        (∃ w, u.phase t = .looking r.call w) ∧ u.flags.isRaised flag = true ∧
        u.ring.newest < s₀.settings.start + older.length ∧ collected older = (s₀.log before).map (·.value) ∨
      s₀.settings.start + older.length + u.ring.capacity ≤ u.ring.newest ∧
        r.answer = .failed (.evicted (s₀.settings.start + older.length) (u.ring.newest - u.ring.capacity + 1)))

theorem Stopped.ne_value {r : Reply α} {older : List (Reply α)} (h : s₀.Stopped t flag moves r older) (v : α) :
    r.answer ≠ .value v := by
  intro e
  obtain ⟨_, _, _, _, _, hend⟩ := h.ended
  rw [e] at hend
  rcases hend with ⟨ha, -⟩ | ⟨-, ha⟩
  · cases ha
  · cases ha

/-- The reader is collecting, and asks for the index that comes next; or it was stopped, and
    asks for nothing. -/
inductive Draining (s₀ : System α) (t flag : Nat) (moves : List (Move α)) (log : List (Sample α)) (u : System α) : Prop
  | collecting : Collects log (u.thread t).replies →
      (∀ c, (u.phase t).call? = some c →
        c.request = .read .value (s₀.settings.start + (u.thread t).replies.length) (.cancellable flag none)) →
      Draining s₀ t flag moves log u
  | stopped (r : Reply α) (older : List (Reply α)) : (u.thread t).replies = r :: older → u.phase t = .idle →
      s₀.Stopped t flag moves r older → Draining s₀ t flag moves log u

/-- What the end of a call makes of a reader that is collecting. -/
theorem Draining.of_ended {r : Reply α} (hc : u.Coherent (s₀.log before)) (hs : u.settings = s₀.settings)
    (hcollects : Collects (s₀.log before) (u.thread t).replies)
    (hq : r.call.request = .read .value (s₀.settings.start + (u.thread t).replies.length) (.cancellable flag none))
    (hended : s₀.EndedBy t r moves before u u') (hidle : u'.phase t = .idle)
    (hlog : s₀.log before <+: s₀.log (before ++ [.step t])) :
    s₀.Draining t flag moves (s₀.log (before ++ [.step t])) u' := by
  obtain ⟨hpre, hb, hstep, hrep⟩ := id hended
  obtain ⟨htold, -⟩ := hc.told (step_of_move? hstep) hrep (by rw [hq]; rfl)
  have hnewest := hc.window.newest_eq
  rw [hs] at hnewest
  rcases htold.drain_cases hc hq (by rw [hs]; omega) with ⟨k, x, hk, hx, ha⟩ | ⟨ha, hn, hflag, hw⟩ | ⟨hlap, ha⟩
  · rw [hs] at hk
    obtain rfl : k = (u.thread t).replies.length := by omega
    refine .collecting ?_ ?_
    · rw [hrep]
      exact (hcollects.cons hx ha).mono hlog
    · intro c hcall
      rw [hidle] at hcall
      cases hcall
  · refine .stopped r _ hrep hidle ⟨hq, before, u, u', hended, hcollects, Or.inl ⟨ha, hw, hflag, hn, ?_⟩⟩
    exact hcollects.all (by omega)
  · exact .stopped r _ hrep hidle ⟨hq, before, u, u', hended, hcollects, Or.inr ⟨hlap, ha⟩⟩

variable {o : Opening} {memory : Memory} {clock : Clock} {now : Nat}

/-- A reader that keeps to its loop is draining, whatever the others do. -/
theorem draining_of_run (ho : (o.run memory clock now).2 = .opened s₀) (hr : s₀.run? moves = some s)
    (hloop : s₀.allMoves (drains t flag) moves = true) : s₀.Draining t flag moves (s₀.log moves) s := by
  refine run_prefix_induction (I := fun before v => s₀.Draining t flag moves (s₀.log before) v) ?_ ?_ hr
  · obtain ⟨-, ring, -, rfl⟩ := Opening.eq_initial_of_opened ho
    refine .collecting ?_ ?_
    · rw [thread_initial]
      exact Collects.nil _
    · intro c hcall
      simp only [phase, thread_initial] at hcall
      cases hcall
  intro before u m u' hpre hb hm ih
  have hs := step_of_move? hm
  have hset := run_settings hb
  have hlog : s₀.log before <+: s₀.log (before ++ [m]) := by
    rw [log_concat hb hm]
    exact List.prefix_append _ _
  cases ih with
  | collecting hcollects hcall =>
    rcases hs.call_cases t with ⟨hsame, hrep⟩ | ⟨q, rfl, -, hnew, hrep⟩ | ⟨c, a, rfl, hold, hidle, hrep⟩
    · refine .collecting (hrep ▸ hcollects.mono hlog) ?_
      rw [hsame, hrep]
      exact hcall
    · refine .collecting (hrep ▸ hcollects.mono hlog) ?_
      intro c hc
      obtain rfl : u.callOf q = c := Option.some.inj (hnew.symm.trans hc)
      rw [hrep, ← hset]
      exact (of_drains (allows_of_allMoves hloop hpre hb)).2
    · exact Draining.of_ended (r := ⟨c, a, u.now⟩) (Coherent.of_reached ho hb) hset hcollects (hcall c hold)
        ⟨hpre, hb, hm, hrep⟩ hidle hlog
  | stopped r older hreplies hidle hstopped =>
    rcases hs.call_cases t with ⟨hsame, hrep⟩ | ⟨q, rfl, -, -, -⟩ | ⟨c, a, rfl, hold, -, -⟩
    · refine .stopped r older (hrep.trans hreplies) ?_ hstopped
      rw [hidle] at hsame
      exact Phase.call?_eq_none.mp hsame
    · -- the loop makes no call after a reply that is not a value
      obtain ⟨v, hv⟩ := (of_drains (allows_of_allMoves hloop hpre hb)).1 r (by rw [hreplies]; exact List.mem_cons_self)
      exact absurd hv (hstopped.ne_value v)
    · rw [hidle] at hold
      cases hold

/-- A reader that asks for one index after another until its flag stops it has collected, in
    order, all that was appended before the look that saw the flag up. Nothing else stops it,
    but being lapped by as many elements as there are slots. -/
theorem shutdown_drains (ho : (o.run memory clock now).2 = .opened s₀) (hr : s₀.run? moves = some s)
    (hloop : s₀.allMoves (drains t flag) moves = true) :
    (∀ r ∈ (s.thread t).replies.tail, ∃ v, r.answer = .value v) ∧
    ((∀ r ∈ (s.thread t).replies, ∃ v, r.answer = .value v) →
      (s.thread t).replies.length ≤ (s₀.log moves).length ∧
      collected (s.thread t).replies = ((s₀.log moves).take (s.thread t).replies.length).map (·.value) ∧
      (o.settings.start + (s₀.log moves).length - 1 < Index.greatest →
        Index.InRange (o.settings.start + (s.thread t).replies.length))) ∧
    ∀ r older, (s.thread t).replies = r :: older → (∀ v, r.answer ≠ .value v) → s.phase t = .idle ∧
      ∃ before u u' i, s₀.EndedBy t r moves before u u' ∧ i = o.settings.start + older.length ∧
        r.call.request = .read .value i (.cancellable flag none) ∧
        collected older = ((s₀.log before).take older.length).map (·.value) ∧
        (r.answer = .failed (.cancelled i) ∧ (∃ w, u.phase t = .looking r.call w) ∧ u.flags.isRaised flag = true ∧
            u.ring.newest < i ∧ i = o.settings.start + (s₀.log before).length ∧
            collected older = (s₀.log before).map (·.value) ∨
          ∃ oldest, r.answer = .failed (.evicted i oldest) ∧ i + o.settings.capacity.toNat ≤ u.ring.newest ∧
            oldest = u.ring.newest - o.settings.capacity.toNat + 1) := by
  have hset := settings_of_opened ho
  have hc := Coherent.of_reached ho hr
  have hgt := hc.window.start_gt
  rw [settings_of_reached ho hr] at hgt
  cases draining_of_run ho hr hloop with
  | collecting hcollects hcall =>
    refine ⟨fun r hmem => hcollects.values r (List.mem_of_mem_tail hmem), ?_, ?_⟩
    · intro _
      have hle := hcollects.length_le
      refine ⟨hle, hcollects.collected_eq, fun hroom => ⟨?_, ?_⟩⟩
      · omega
      · omega
    · intro r older hreplies hne
      obtain ⟨v, hv⟩ := hcollects.values r (by rw [hreplies]; exact List.mem_cons_self)
      exact absurd hv (hne v)
  | stopped r older hreplies hidle hstopped =>
    obtain ⟨before, u, u', hended, hcollects, hend⟩ := hstopped.ended
    have hq := hstopped.request
    have hu := Coherent.of_reached ho hended.2.1
    have hcap : u.ring.capacity = o.settings.capacity.toNat := by rw [hu.capacity, settings_of_reached ho hended.2.1]
    have hnewest := hu.window.newest_eq
    rw [settings_of_reached ho hended.2.1] at hnewest
    rw [hset] at hq hend
    rw [hcap] at hend
    refine ⟨?_, ?_, ?_⟩
    · rw [hreplies]
      exact hcollects.values
    · intro hall
      obtain ⟨v, hv⟩ := hall r (by rw [hreplies]; exact List.mem_cons_self)
      exact absurd hv (hstopped.ne_value v)
    · intro r' older' hreplies' _
      obtain ⟨rfl, rfl⟩ := List.cons.inj (hreplies.symm.trans hreplies')
      refine ⟨hidle, before, u, u', _, hended, rfl, hq, hcollects.collected_eq, ?_⟩
      rcases hend with ⟨ha, hw, hflag, hn, hall⟩ | ⟨hlap, ha⟩
      · have hle := hcollects.length_le
        exact Or.inl ⟨ha, hw, hflag, hn, by omega, hall⟩
      · exact Or.inr ⟨_, ha, hlap, rfl⟩

/-- A reader, thread 1, goes to sleep on the second index; its flag goes up, and only then is
    that index appended. -/
def lateRaise : List (Move Nat) :=
  [appendAlone 0 10, [.call 1 (.read .value (-1) (.cancellable 0 none))], List.replicate 3 (.step 1),
    [.call 1 (.read .value 0 (.cancellable 0 none))], List.replicate 4 (.step 1), [.call 2 (.flag (.raise 0)), .step 2],
    appendAlone 0 20, List.replicate 3 (.step 1), [.call 1 (.read .value 1 (.cancellable 0 none))],
    List.replicate 3 (.step 1)].flatten

/-- The second value is collected although the flag was raised before it was appended, and the
    next call is cancelled. -/
theorem shutdown_drains_raced :
    ∃ (s : System Nat) (r : Reply Nat) (older : List (Reply Nat)), small.run? lateRaise = some s ∧
      (s.thread 1).replies = r :: older ∧ r.answer = .failed (.cancelled 1) ∧ collected older = [10, 20] ∧
      ∃ before u, small.run? before = some u ∧ u.flags.isRaised 0 = true ∧ u.ring.newest < 1 ∧
        (small.log before).map (·.value) = [10, 20] := by
  have hrun : (small.run? lateRaise).any (fun s =>
      decide ((s.thread 1).replies.map (fun r => (r.value?, r.answer.fault?)) =
        [(none, some (.cancelled 1)), (some 20, none), (some 10, none)])) = true := by
    decide +kernel
  have hloop : small.allMoves (drains 1 0) lateRaise = true := by decide +kernel
  obtain ⟨s, hr, hs⟩ := exists_run hrun
  obtain ⟨r, older, hreplies, hr', holder⟩ := List.map_eq_cons_iff.mp (of_decide_eq_true hs)
  simp only [Prod.mk.injEq] at hr'
  have ha : r.answer = .failed (.cancelled 1) := Answer.eq_failed hr'.2
  have hcollected : collected older = [10, 20] := by
    obtain ⟨r₂, rest, rfl, h₂, hrest⟩ := List.map_eq_cons_iff.mp holder
    obtain ⟨r₁, rfl, h₁⟩ := List.map_eq_singleton_iff.mp hrest
    simp only [Prod.mk.injEq] at h₁ h₂
    simp [collected, h₁.1, h₂.1]
  obtain ⟨-, -, hstopped⟩ := shutdown_drains small_opened hr hloop
  obtain ⟨-, before, u, u', i, hended, -, -, -, hend⟩ := hstopped r older hreplies (by rw [ha]; intro v e; cases e)
  rw [ha] at hend
  rcases hend with ⟨hi, -, hflag, hn, -, hall⟩ | ⟨oldest, hi, -⟩
  · cases hi
    exact ⟨s, r, older, hr, hreplies, ha, hcollected, before, u, hended.2.1, hflag, hn, hall ▸ hcollected⟩
  · cases hi

end System

end Chronicle
