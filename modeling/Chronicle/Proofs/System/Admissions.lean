/-
  Chronicle.Proofs.System.Admissions — appends, in the order in which they get the lock.

  `s.admissions moves` are the appends of a schedule, each with its thread, in the order in
  which they take the lock. What comes of a thread's own appends stands in its account: the
  one that has the lock and has not pushed, and the values and indices of those that have.

  The lock is given up only after the push, so the k-th append to take it is the k-th to push
  and gets the k-th index, whoever makes it: of the indices each thread has its share
  (`shares`), and at most one append is on the list that has not pushed. Only where there is
  no further index an append gets the lock for nothing.

  Proved: what a move does to the accounts (`Coherent.appendTurn`), and from it that they add
  up in every reachable state (`accounted_of_reached`).
-/

import Mathlib.Data.List.Induction
import Chronicle.Proofs.System.Coherence

namespace Chronicle

variable {α : Type}

/-! ## Accounts -/

def Request.append? : Request α → Option α
  | .append v => some v
  | _ => none

theorem Request.eq_append {q : Request α} {v : α} (h : q.append? = some v) : q = .append v := by
  cases q <;> cases h
  rfl

/-- The value of an append that has the lock and has not pushed. -/
def Phase.pending? : Phase α → Option α
  | .entered c | .stamped c _ => c.request.append?
  | _ => none

/-- The value and the index of an append that has pushed and has not returned. -/
def Phase.owed? : Phase α → Option (α × Int)
  | .pushed c i | .unlocked c i => c.request.append?.map (·, i)
  | _ => none

def Reply.granted? (r : Reply α) : Option (α × Int) :=
  match r.answer with
  | .index i => r.call.request.append?.map (·, i)
  | _ => none

/-- The values and indices of a thread's appends that returned, in the order they did. -/
def Thread.returned (th : Thread α) : List (α × Int) := (th.replies.filterMap Reply.granted?).reverse

structure Account (α : Type) where
  /-- The one that has not pushed. -/
  pending : Option α
  /-- The values and indices of those that have, in the order they did. -/
  granted : List (α × Int)

def Thread.account (th : Thread α) : Account α := ⟨th.phase.pending?, th.returned ++ th.phase.owed?.toList⟩

/-! ## Shares -/

/-- The values and indices that fall to a thread if the appends got the lock in this order. -/
def shares (start : Int) (t : Nat) (admitted : List (Nat × α)) : List (α × Int) :=
  admitted.zipIdx.filterMap fun p => if p.1.1 = t then some (p.1.2, start + p.2) else none

theorem shares_concat (start : Int) (t u : Nat) (admitted : List (Nat × α)) (v : α) :
    shares start t (admitted ++ [(u, v)]) =
      shares start t admitted ++ if u = t then [(v, start + admitted.length)] else [] := by
  simp only [shares, List.zipIdx_append, List.filterMap_append, List.append_cancel_left_eq]
  by_cases e : u = t <;> simp [e]

theorem mem_shares {start i : Int} {t : Nat} {admitted : List (Nat × α)} {v : α} :
    (v, i) ∈ shares start t admitted ↔ ∃ k : Nat, i = start + k ∧ admitted[k]? = some (t, v) := by
  simp only [shares, List.mem_filterMap]
  constructor
  · rintro ⟨⟨⟨u, w⟩, k⟩, hk, he⟩
    rw [List.mem_zipIdx_iff_getElem?] at hk
    split at he
    · rename_i hu
      cases he
      cases hu
      exact ⟨k, rfl, hk⟩
    · cases he
  · rintro ⟨k, rfl, hk⟩
    exact ⟨((t, v), k), List.mem_zipIdx_iff_getElem?.mpr hk, by simp⟩

/-- A thread's share goes up. -/
theorem shares_increasing (start : Int) (t : Nat) (admitted : List (Nat × α)) :
    (shares start t admitted).Pairwise fun a b => a.2 < b.2 := by
  induction admitted using List.reverseRecOn with
  | nil => exact List.Pairwise.nil
  | append_singleton admitted p ih =>
    obtain ⟨u, v⟩ := p
    rw [shares_concat, List.pairwise_append]
    refine ⟨ih, by split <;> simp, ?_⟩
    rintro ⟨w, i⟩ hw b hb
    obtain ⟨k, rfl, hk⟩ := mem_shares.mp hw
    have hlt := (List.getElem?_eq_some_iff.mp hk).1
    split at hb
    · cases List.mem_singleton.mp hb
      show start + (k : Int) < start + (admitted.length : Int)
      omega
    · cases hb

/-- Each index falls to one append. -/
theorem shares_unique {start i : Int} {t u : Nat} {admitted : List (Nat × α)} {v w : α}
    (h : (v, i) ∈ shares start t admitted) (h' : (w, i) ∈ shares start u admitted) : t = u ∧ v = w := by
  obtain ⟨k, hi, hk⟩ := mem_shares.mp h
  obtain ⟨k', hi', hk'⟩ := mem_shares.mp h'
  obtain rfl : k' = k := by omega
  simpa using hk.symm.trans hk'

namespace System

/-- The append that gets the lock by a move, and its thread. -/
def admission? (s : System α) : Move α → Option (Nat × α)
  | .step t =>
    match s.phase t, s.holder with
    | .ready c, none => c.request.append?.map (t, ·)
    | _, _ => none
  | _ => none

/-- The appends of a schedule, in the order in which they get the lock. -/
def admissions (s : System α) (moves : List (Move α)) : List (Nat × α) := s.gather admission? moves

def account (s : System α) (t : Nat) : Account α := (s.thread t).account

variable {s s' u : System α} {t : Nat} {m : Move α} {log : List (Sample α)} {moves : List (Move α)}

/-! ## What a move does to the accounts -/

/-- What a move does to the appends: nothing; it admits one, whose thread gets the lock; the
    one that was admitted pushes and gets the next index; or it fails, at the greatest index. -/
inductive AppendTurn (s : System α) (m : Move α) (s' : System α) : Prop
  | nothing : s.admission? m = none → s.addition? m = none → (∀ u, s'.account u = s.account u) → AppendTurn s m s'
  | admitted (t : Nat) (v : α) : s.admission? m = some (t, v) → s.addition? m = none →
      (∀ u, (s.account u).pending = none) →
      (∀ u, s'.account u = if t = u then ⟨some v, (s.account t).granted⟩ else s.account u) → AppendTurn s m s'
  | pushed (t : Nat) (x : Sample α) : s.admission? m = none → s.addition? m = some x →
      s.ring.newest < Index.greatest → (s.account t).pending = some x.value →
      (∀ u, s'.account u = if t = u then ⟨none, (s.account t).granted ++ [(x.value, s.ring.newest + 1)]⟩
        else s.account u) → AppendTurn s m s'
  | failed (t : Nat) (v : α) : s.admission? m = none → s.addition? m = none → s.ring.newest = Index.greatest →
      (s.account t).pending = some v →
      (∀ u, s'.account u = if t = u then ⟨none, (s.account t).granted⟩ else s.account u) → AppendTurn s m s'

theorem account_of_phase {p : Phase α} (hp : s.phase t = p) :
    s.account t = ⟨p.pending?, (s.thread t).returned ++ p.owed?.toList⟩ := by
  subst hp
  rfl

/-- Granted is what was returned, and what is about to be. -/
theorem mem_granted {v : α} {i : Int} : (v, i) ∈ (s.account t).granted ↔
    (∃ r ∈ (s.thread t).replies, r.call.request = .append v ∧ r.answer = .index i) ∨
      (s.phase t).owed? = some (v, i) := by
  show (v, i) ∈ (s.thread t).returned ++ (s.phase t).owed?.toList ↔ _
  rw [List.mem_append, Thread.returned, List.mem_reverse, List.mem_filterMap, Option.mem_toList]
  refine or_congr (exists_congr fun r => and_congr_right fun _ => ?_) Iff.rfl
  unfold Reply.granted?
  constructor
  · intro h
    split at h
    · rename_i j ha
      obtain ⟨w, hw, he⟩ := Option.map_eq_some_iff.mp h
      cases he
      exact ⟨Request.eq_append hw, ha⟩
    · cases h
  · rintro ⟨hq, ha⟩
    rw [hq, ha]
    rfl

theorem account_become (p : Phase α) :
    (s.become t p).account t = ⟨p.pending?, (s.thread t).returned ++ p.owed?.toList⟩ := by
  simp [account, Thread.account, Thread.returned]

theorem account_reply (c : Call α) (a : Answer α) (e : Option Event) :
    (s.reply t c a e).account t = ⟨none, (s.thread t).returned ++ (Reply.granted? ⟨c, a, s.now⟩).toList⟩ := by
  simp only [account, Thread.account, Thread.returned, thread_reply, if_true, Phase.pending?, Phase.owed?,
    List.filterMap_cons]
  cases Reply.granted? ⟨c, a, s.now⟩ <;> simp

theorem Phase.pending?_notified (p : Phase α) : p.notified.pending? = p.pending? := by cases p <;> rfl

theorem Phase.owed?_notified (p : Phase α) : p.notified.owed? = p.owed? := by cases p <;> rfl

/-- An append that has not pushed has the lock. -/
theorem holds_of_pending {v : α} (h : (s.account t).pending = some v) : (s.phase t).holds = true := by
  replace h : (s.phase t).pending? = some v := h
  cases hp : s.phase t <;> rw [hp] at h <;> first | rfl | cases h

theorem Locked.pending_unique (hl : s.Locked) {v w : α} (h : (s.account t).pending = some v) {t' : Nat}
    (h' : (s.account t').pending = some w) : t' = t ∧ w = v := by
  obtain rfl := hl.unique (holds_of_pending h') (holds_of_pending h)
  exact ⟨rfl, Option.some.inj (h'.symm.trans h)⟩

theorem Locked.not_pending (hl : s.Locked) (hh : s.holder = none) (t : Nat) : (s.account t).pending = none := by
  cases h : (s.account t).pending with
  | none => rfl
  | some v =>
    have := holds_of_pending h
    rw [hl.free hh t] at this
    cases this

/-- A thread that is not moved keeps its account. -/
theorem Step.account_other (h : Step s m s') (hu : m.mover? ≠ some t) : s'.account t = s.account t := by
  have hrep : (s'.thread t).replies = (s.thread t).replies := h.replies_other fun e => hu (by rw [e]; rfl)
  have hpending : (s'.phase t).pending? = (s.phase t).pending? := h.reading_other Phase.pending?_notified hu
  have howed : (s'.phase t).owed? = (s.phase t).owed? := h.reading_other Phase.owed?_notified hu
  rw [account_of_phase rfl, account_of_phase rfl, Thread.returned, hrep, hpending, howed]
  rfl

theorem Step.account_eq (h : Step s m s') (hm : m.mover? = some t) {a : Account α} (ha : s'.account t = a) (u : Nat) :
    s'.account u = if t = u then a else s.account u := by
  by_cases e : t = u
  · subst e; rw [if_pos rfl, ha]
  · rw [if_neg e]
    exact h.account_other (by rw [hm]; simpa using e)

theorem Step.account_same (h : Step s m s') (hm : m.mover? = some t) (ha : s'.account t = s.account t) (u : Nat) :
    s'.account u = s.account u := by
  rw [h.account_eq hm ha u]
  split
  · rename_i e; rw [e]
  · rfl

theorem append?_of_target? {q : Request α} {start i : Int} (h : q.target? start = some i) : q.append? = none := by
  cases q <;> first | rfl | cases h

theorem append?_of_lockFree {q : Request α} (h : q.lockFree = true) : q.append? = none := by
  cases q <;> first | rfl | cases h

theorem append?_of_ne {q : Request α} (h : ∀ v, q ≠ .append v) : q.append? = none := by
  cases q <;> first | rfl | exact absurd rfl (h _)

theorem granted?_of_append? {r : Reply α} (h : r.call.request.append? = none) : r.granted? = none := by
  unfold Reply.granted?
  rw [h]
  split <;> rfl

/-- A call that asks for something else ends without a trace in the account. -/
theorem account_reply_other {c : Call α} {p : Phase α} (hp : s.phase t = p) (hpending : p.pending? = none)
    (howed : p.owed? = none) (hc : c.request.append? = none) (a : Answer α) (e : Option Event) :
    (s.reply t c a e).account t = s.account t := by
  rw [account_reply, account_of_phase hp, hpending, howed, granted?_of_append? hc]

/-- What every move does to the appends. -/
theorem Coherent.appendTurn (h : s.Coherent log) (hs : Step s m s') : AppendTurn s m s' := by
  have hs' := hs
  have hf := h.fits
  cases hs with
  | elapse time => exact .nothing rfl rfl fun _ => rfl
  | call t q hp | runOut t c w wake hp | stir t c w wake hp =>
    refine .nothing rfl rfl (hs'.account_same rfl ?_)
    rw [account_become, account_of_phase hp]
    rfl
  | unlock t c i hp | plan t c w f d hp | sleep t c w hp | slice t c w hp | relock t c w r hp | again t c w r hp =>
    refine .nothing (by simp [admission?, hp]) (by simp [addition?, hp]) (hs'.account_same rfl ?_)
    rw [account_become, account_of_phase hp]
    rfl
  | stamp t c v hp =>
    refine .nothing (by simp [admission?, hp]) (by simp [addition?, hp]) (hs'.account_same rfl ?_)
    rw [account_become, account_of_phase hp]
    rfl
  | begin t c i hp ht =>
    refine .nothing (by simp [admission?, hp]) (by simp [addition?, hp]) (hs'.account_same rfl ?_)
    rw [account_become, account_of_phase hp]
    simp [Phase.pending?, Phase.owed?, append?_of_target? ht]
  | free t c hp hl =>
    have hc := append?_of_lockFree hl
    refine .nothing ?_ (by simp [addition?, hp]) (hs'.account_same rfl (account_reply_other hp rfl rfl hc _ _))
    cases hh : s.holder <;> simp [admission?, hp, hh, hc]
  | refuse t c i hp ht =>
    have hc := append?_of_target? ht
    exact .nothing (by simp [admission?, hp]) (by simp [addition?, hp])
      (hs'.account_same rfl (account_reply_other hp hc rfl hc _ _))
  | perform t c hp hne =>
    have hc := append?_of_ne hne
    exact .nothing (by simp [admission?, hp]) (by simp [addition?, hp])
      (hs'.account_same rfl (account_reply_other hp hc rfl hc _ _))
  | serve t c w a hp | lapped t c w e hp | cancel t c w f d hp =>
    have hw := hf t
    rw [hp] at hw
    exact .nothing (by simp [admission?, hp]) (by simp [addition?, hp])
      (hs'.account_same rfl (account_reply_other hp rfl rfl (append?_of_target? hw.target) _ _))
  | expire t c w hp =>
    have hw := hf t
    rw [hp] at hw
    exact .nothing (by simp [admission?, hp]) (by simp [addition?, hp])
      (hs'.account_same rfl (account_reply_other hp rfl rfl (append?_of_target? hw.1.target) _ _))
  | enter t c hp hl hh =>
    cases hc : c.request.append? with
    | none =>
      refine .nothing (by simp [admission?, hp, hh, hc]) (by simp [addition?, hp]) (hs'.account_same rfl ?_)
      rw [account_become, account_of_phase hp]
      simp only [Phase.pending?, hc]
      rfl
    | some v =>
      refine .admitted t v (by simp [admission?, hp, hh, hc]) (by simp [addition?, hp]) (h.locked.not_pending hh)
        (hs'.account_eq rfl ?_)
      rw [account_become, account_of_phase hp]
      simp only [Phase.pending?, hc]
      rfl
  | push t c x r i d hp he =>
    have hc := hf t
    rw [hp] at hc
    have hpending : c.request.append? = some x.value := by rw [hc.2]; rfl
    have hi : i = s.ring.newest + 1 := by
      have := (h.window.push he).2.2
      have := h.window.newest_eq
      omega
    refine .pushed t x (by simp [admission?, hp]) (h.addition_of_push hp he) (h.window.newest_lt_of_push he) ?_
      (hs'.account_eq rfl ?_)
    · rw [account_of_phase hp]
      exact hpending
    · rw [account_become, account_of_phase hp]
      simp [Phase.pending?, Phase.owed?, hpending, hi]
  | overflow t c x p r hp he =>
    have hc := hf t
    rw [hp] at hc
    refine .failed t x.value (by simp [admission?, hp]) (by simp [addition?, hp, he]) (h.window.newest_eq_of_push_error he)
      ?_ (hs'.account_eq rfl ?_)
    · rw [account_of_phase hp]
      show c.request.append? = _
      rw [hc.2]
      rfl
    · rw [account_reply, account_of_phase hp]
      rfl
  | notify t c i hp =>
    refine .nothing (by simp [admission?, hp]) (by simp [addition?, hp]) (hs'.account_same rfl ?_)
    rw [account_reply, account_of_phase hp, thread_notifyAll]
    rfl

/-! ## The accounts add up -/

/-- The appends that pushed are the first ones that got the lock, each thread has its share
    of them, and while there is a further index at most one has the lock and has not pushed. -/
structure Accounted (s : System α) (admitted : List (Nat × α)) (log : List (Sample α)) : Prop where
  length_le : log.length ≤ admitted.length
  values : (admitted.take log.length).map (·.2) = log.map (·.value)
  granted : ∀ t, (s.account t).granted = shares s.settings.start t (admitted.take log.length)
  pending : s.settings.start + log.length ≤ Index.greatest →
    admitted.drop log.length = [] ∧ (∀ t, (s.account t).pending = none) ∨
      ∃ t v, admitted.drop log.length = [(t, v)] ∧ (s.account t).pending = some v

theorem Accounted.pushed {admitted : List (Nat × α)} {x : Sample α} (h : s.Accounted admitted log)
    (hc : s.Coherent log) (hn : s.ring.newest < Index.greatest) (hset : s'.settings = s.settings)
    (ht : (s.account t).pending = some x.value)
    (ha : ∀ u, s'.account u = if t = u then ⟨none, (s.account t).granted ++ [(x.value, s.ring.newest + 1)]⟩
      else s.account u) :
    s'.Accounted admitted (log ++ [x]) := by
  have hnewest := hc.window.newest_eq
  -- the one that pushes is the one that has the lock, and the last to have got it
  obtain ⟨t', v, hlast, ht'⟩ := (h.pending (by omega)).resolve_left fun hnone => by
    rw [hnone.2 t] at ht
    cases ht
  obtain ⟨rfl, rfl⟩ := hc.locked.pending_unique ht ht'
  have hsplit : admitted = admitted.take log.length ++ [(t', x.value)] := by
    rw [← hlast, List.take_append_drop]
  have htake : (admitted.take log.length).length = log.length := by
    rw [List.length_take]
    have := h.length_le
    omega
  have hlen : admitted.length = log.length + 1 := by
    rw [hsplit, List.length_append, htake]
    rfl
  have hall : admitted.take (log ++ [x]).length = admitted := by
    rw [List.length_append]
    exact List.take_of_length_le (by simp; omega)
  refine ⟨by simp; omega, ?_, ?_, ?_⟩
  · rw [hall, hsplit, List.map_append, h.values]
    simp
  · intro u
    rw [hall, hset, ha u, hsplit, shares_concat, htake, ← h.granted u]
    have hi : s.ring.newest + 1 = s.settings.start + log.length := by omega
    split
    · rename_i e
      rw [hi, e]
    · rw [List.append_nil]
  · intro _
    refine Or.inl ⟨List.drop_of_length_le (by simp; omega), fun u => ?_⟩
    rw [ha u]
    split
    · rfl
    · rename_i hne
      cases hp : (s.account u).pending with
      | none => rfl
      | some w => exact absurd (hc.locked.pending_unique ht hp).1.symm hne

theorem Accounted.step {admitted : List (Nat × α)} (h : s.Accounted admitted log) (hc : s.Coherent log)
    (hs : Step s m s') :
    s'.Accounted (admitted ++ (s.admission? m).toList) (log ++ (s.addition? m).toList) := by
  have hset := hs.settings
  have hnewest := hc.window.newest_eq
  cases hc.appendTurn hs with
  | nothing ha hl hu =>
    simp only [ha, hl, Option.toList_none, List.append_nil]
    refine ⟨h.length_le, h.values, ?_, ?_⟩
    · intro t; rw [hset, hu]; exact h.granted t
    · rw [hset]
      simp only [hu]
      exact h.pending
  | admitted t v ha hl hnone hu =>
    simp only [ha, hl, Option.toList_some, Option.toList_none, List.append_nil]
    have htake : (admitted ++ [(t, v)]).take log.length = admitted.take log.length :=
      List.take_append_of_le_length h.length_le
    refine ⟨by rw [List.length_append]; exact Nat.le_add_right_of_le h.length_le, by rw [htake]; exact h.values, ?_, ?_⟩
    · intro u
      rw [htake, hset, hu, ← h.granted u]
      split
      · rename_i e; rw [e]
      · rfl
    · intro hroom
      rw [hset] at hroom
      refine Or.inr ⟨t, v, ?_, by rw [hu, if_pos rfl]⟩
      rcases h.pending hroom with ⟨hdrop, -⟩ | ⟨t', v', -, hpending⟩
      · rw [List.drop_append_of_le_length h.length_le, hdrop]
        rfl
      · rw [hnone t'] at hpending
        cases hpending
  | pushed t x ha hl hn ht hu =>
    simp only [ha, hl, Option.toList_some, Option.toList_none, List.append_nil]
    exact h.pushed hc hn hset ht hu
  | failed t v ha hl hfull ht hu =>
    simp only [ha, hl, Option.toList_none, List.append_nil]
    refine ⟨h.length_le, h.values, ?_, fun hroom => ?_⟩
    · intro u
      rw [hset, hu, ← h.granted u]
      split
      · rename_i e; rw [e]
      · rfl
    · rw [hset] at hroom
      omega

variable {o : Opening} {memory : Memory} {clock : Clock} {now : Nat} {s₀ : System α}

theorem Accounted.of_opened (ho : (o.run memory clock now).2 = .opened s₀) : s₀.Accounted [] [] := by
  obtain ⟨-, ring, -, rfl⟩ := Opening.eq_initial_of_opened ho
  refine ⟨Nat.le_refl _, rfl, fun t => ?_, fun _ => Or.inl ⟨rfl, fun t => ?_⟩⟩
  · simp [account, thread_initial, Thread.account, Thread.returned, Phase.owed?, shares]
  · simp [account, thread_initial, Thread.account, Phase.pending?]

/-- In every reachable state the accounts add up. -/
theorem accounted_of_reached (ho : (o.run memory clock now).2 = .opened s₀) (hr : s₀.run? moves = some s) :
    s.Accounted (s₀.admissions moves) (s₀.log moves) := by
  refine run_prefix_induction (I := fun before u => u.Accounted (s₀.admissions before) (s₀.log before))
    (Accounted.of_opened ho) ?_ hr
  intro before u m u' _ hb hm ih
  have hstep := ih.step (Coherent.of_reached ho hb) (step_of_move? hm)
  rw [admissions, gather_concat hb hm, log_concat hb hm]
  exact hstep

end System

end Chronicle
