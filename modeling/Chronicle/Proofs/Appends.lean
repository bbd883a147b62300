/-
  Chronicle.Proofs.Appends — no append is lost, doubled or put before another.

  The appends of all threads get the lock one after another. The k-th of them to get it has
  the k-th index of the series, with its value there: what each thread got is its share of
  the list (`Accounted`), so no two got one index, and every index up to the newest was got.

  An index that an append got has that append's value for as long as fewer elements were
  pushed after it than there are slots, and is evicted for good from the push on that makes
  them as many (`Endures`).

  Proved: `appends_in_order`.
-/

import Chronicle.Proofs.Lifetime
import Chronicle.Proofs.System.Admissions

namespace Chronicle.System

variable {α : Type} {s s' u u' : System α} {t : Nat} {i : Int} {log : List (Sample α)} {moves later : List (Move α)}

/-- An append returns an index, unless there is none left. -/
theorem Coherent.append_answer (h : u.Coherent log) (hs : Step u (.step t) u') {r : Reply α} {v : α}
    (hr : (u'.thread t).replies = r :: (u.thread t).replies) (hq : r.call.request = .append v) :
    (∃ j, r.answer = .index j) ∨ (∃ p, r.answer = .panicked p) ∧ u.ring.newest = Index.greatest := by
  have other : r.call.request.append? = none → False := by
    intro hc
    rw [hq] at hc
    cases hc
  cases h.ended hs hr with
  | free c hp hl => exact (other (append?_of_lockFree hl)).elim
  | performed c hp hl hne => exact (other (append?_of_ne hne)).elim
  | failed c x p hp _ he => exact Or.inr ⟨⟨p, rfl⟩, h.window.newest_eq_of_push_error he⟩
  | returned c v j => exact Or.inl ⟨j, rfl⟩
  | told c j a ht => exact (other (append?_of_target? ht)).elim

/-! ## How long an element stays -/

/-- What is to be had of the index `i`, which the sample `x` was appended to, after so many
    further pushes. -/
structure Endures (s : System α) (i : Int) (x : Sample α) (further : Nat) : Prop where
  held : further < s.settings.capacity.toNat → s.ring.life i = .retained ∧ s.ring.element i = .ok x ∧
    ∀ t view limit, s.phase t = .idle → s.holder = none → ∃ a, view.Shows x a ∧ s.Answers t (.read view i limit) a
  gone : s.settings.capacity.toNat ≤ further → s.ring.life i = .evicted ∧
    ∀ later s' t q, s.run? later = some s' → q.target? s.settings.start = some i → q.guarded = true →
      s'.RefusedOnEntry t q i (i + 1)

theorem Coherent.endures {older newer : List (Sample α)} {x : Sample α}
    (h : s.Coherent (older ++ x :: newer)) (hi : i = s.settings.start + older.length) : s.Endures i x newer.length := by
  have hnewest := h.window.newest_eq
  have holdest := h.window.oldest_eq
  have hcap := h.capacity
  rw [List.length_append, List.length_cons] at hnewest holdest
  have hx : (older ++ x :: newer)[older.length]? = some x := by simp
  constructor
  · intro hlt
    have hoi : s.ring.oldest ≤ i := by omega
    have hin : i ≤ s.ring.newest := by omega
    refine ⟨Ring.life_of_le hoi hin, ?_, ?_⟩
    · obtain ⟨k, y, hk, hy, he⟩ := h.window.element hoi hin
      obtain rfl : k = older.length := by omega
      rw [he, Option.some.inj (hy.symm.trans hx)]
    · intro t view limit hidle hfree
      obtain ⟨k, y, hk, hy, hv⟩ := h.window.verdict_read hoi hin view limit
      obtain rfl : k = older.length := by omega
      rw [Option.some.inj (hy.symm.trans hx)] at hv
      exact ⟨_, hv, answers_served hidle hfree rfl (not_refused_of_le hoi) hin⟩
  · intro hle
    have hlt : i < s.ring.oldest := by omega
    refine ⟨Ring.life_of_lt hlt, ?_⟩
    intro later s' t q hrun ht hg
    have hbounds := (h.bounds_le hrun).1
    exact (h.of_run hrun).refusedOnEntry (run_settings hrun ▸ ht) hg (by omega) (by omega)

variable {o : Opening} {memory : Memory} {clock : Clock} {now : Nat} {s₀ : System α}

/-! ## In every reachable state -/

/-- An append that failed did so because there was no index left, and there is none now. -/
theorem append_answer_of_reached (ho : (o.run memory clock now).2 = .opened s₀) (hr : s₀.run? moves = some s) {r : Reply α}
    {v : α} (hmem : r ∈ (s.thread t).replies) (hq : r.call.request = .append v) :
    (∃ i, r.answer = .index i) ∨ (∃ p, r.answer = .panicked p) ∧ s.ring.newest = Index.greatest := by
  obtain ⟨before, u, u', hpre, hb, hstep, hrep⟩ := ended_of_reached ho hr hmem
  have hu := Coherent.of_reached ho hb
  obtain ⟨rest, -, hrest⟩ := run_split hr ((List.prefix_append _ _).trans hpre) hb
  have hle := (hu.bounds_le hrest).2
  have hmost := (Coherent.of_reached ho hr).window.newest_le
  refine (hu.append_answer (step_of_move? hstep) hrep hq).imp_right fun h => ⟨h.1, ?_⟩
  have hfull := h.2
  omega

/-- A thread's appends were granted the indices that fall to them by the order of the lock. -/
theorem mem_granted_iff_admitted (ho : (o.run memory clock now).2 = .opened s₀) (hr : s₀.run? moves = some s) {v : α} :
    (v, i) ∈ (s.account t).granted ↔ ∃ k : Nat, i = o.settings.start + k ∧ k < (s₀.log moves).length ∧
      (s₀.admissions moves)[k]? = some (t, v) := by
  rw [(accounted_of_reached ho hr).granted t, settings_of_reached ho hr, mem_shares]
  refine exists_congr fun k => and_congr_right fun _ => ?_
  rw [List.getElem?_take]
  split <;> simp [*]

/-- What was granted an index has its value there in the log. -/
theorem sample_of_granted (ho : (o.run memory clock now).2 = .opened s₀) (hr : s₀.run? moves = some s) {v : α}
    (hv : (v, i) ∈ (s.account t).granted) :
    ∃ (k : Nat) (x : Sample α), i = o.settings.start + k ∧ (s₀.log moves)[k]? = some x ∧ x.value = v := by
  obtain ⟨k, hi, hk, hadmitted⟩ := (mem_granted_iff_admitted ho hr).mp hv
  have hsame := congrArg (·[k]?) (accounted_of_reached ho hr).values
  simp only [List.getElem?_map, List.getElem?_take, hk, if_true, hadmitted, List.getElem?_eq_getElem hk,
    Option.map_some] at hsame
  exact ⟨k, _, hi, List.getElem?_eq_getElem hk, (Option.some.inj hsame).symm⟩

/-- The appends of all threads are one list: the k-th to get the lock gets the k-th index. Each
    thread has its share of them, and each element stays until as many were pushed after it as
    there are slots, and is then gone for good. -/
theorem appends_in_order (ho : (o.run memory clock now).2 = .opened s₀) (hr : s₀.run? moves = some s) :
    ((s₀.admissions moves).take (s₀.log moves).length).map (·.2) = (s₀.log moves).map (·.value) ∧
    (s.ring.newest < Index.greatest →
      (s₀.admissions moves).drop (s₀.log moves).length = [] ∧ (∀ t, (s.account t).pending = none) ∨
        ∃ t v, (s₀.admissions moves).drop (s₀.log moves).length = [(t, v)] ∧ (s.account t).pending = some v) ∧
    (∀ t r v, r ∈ (s.thread t).replies → r.call.request = .append v →
      (∃ i, r.answer = .index i) ∨ (∃ p, r.answer = .panicked p) ∧ s.ring.newest = Index.greatest) ∧
    (∀ t v i, (v, i) ∈ (s.account t).granted ↔
      (∃ r ∈ (s.thread t).replies, r.call.request = .append v ∧ r.answer = .index i) ∨
        (s.phase t).owed? = some (v, i)) ∧
    (∀ t v i, (v, i) ∈ (s.account t).granted ↔ ∃ k : Nat, i = o.settings.start + k ∧ k < (s₀.log moves).length ∧
      (s₀.admissions moves)[k]? = some (t, v)) ∧
    (∀ i, (∃ t v, (v, i) ∈ (s.account t).granted) ↔
      o.settings.start ≤ i ∧ i < o.settings.start + (s₀.log moves).length) ∧
    (∀ t, (s.account t).granted.Pairwise fun a b => a.2 < b.2) ∧
    (∀ t t' v v' i, (v, i) ∈ (s.account t).granted → (v', i) ∈ (s.account t').granted → t = t' ∧ v = v') ∧
    (∀ t v i, (v, i) ∈ (s.account t).granted → ∀ later s', s.run? later = some s' →
      ∃ older x newer, s₀.log (moves ++ later) = older ++ x :: newer ∧ x.value = v ∧
        i = o.settings.start + older.length ∧ s'.Endures i x newer.length ∧
        ∀ t' r view limit, r ∈ (s'.thread t').replies → r.call.request = .read view i limit →
          r.answer.isFailure = false → view.Shows x r.answer) := by
  have hc := Coherent.of_reached ho hr
  have ha := accounted_of_reached ho hr
  have hnewest := hc.window.newest_eq
  refine ⟨ha.values, ?_, ?_, fun t v i => mem_granted, fun t v i => mem_granted_iff_admitted ho hr, ?_, ?_, ?_, ?_⟩
  · intro hlt
    exact ha.pending (by omega)
  · intro t r v hmem hq
    exact append_answer_of_reached ho hr hmem hq
  · intro i
    constructor
    · rintro ⟨t, v, hv⟩
      obtain ⟨k, rfl, hk, -⟩ := (mem_granted_iff_admitted ho hr).mp hv
      omega
    · rintro ⟨hle, hlt⟩
      have hk : (i - o.settings.start).toNat < (s₀.admissions moves).length := by
        have := ha.length_le
        omega
      exact ⟨_, _, (mem_granted_iff_admitted ho hr).mpr ⟨_, by omega, by omega, List.getElem?_eq_getElem hk⟩⟩
  · intro t
    rw [ha.granted t]
    exact shares_increasing ..
  · intro t t' v v' i hv hv'
    rw [ha.granted] at hv hv'
    exact shares_unique hv hv'
  · intro t v i hv later s' hlater
    obtain ⟨k, x, hi, hx, hvalue⟩ := sample_of_granted ho hr hv
    have hr' : s₀.run? (moves ++ later) = some s' := by rw [run?_append_of_run? hr]; exact hlater
    have hc' := Coherent.of_reached ho hr'
    replace hx := log_getElem? (List.prefix_append moves later) hr hx
    have hk := (List.getElem?_eq_some_iff.mp hx).1
    have hsplit : s₀.log (moves ++ later) =
        (s₀.log (moves ++ later)).take k ++ x :: (s₀.log (moves ++ later)).drop (k + 1) := by
      obtain ⟨hlt, rfl⟩ := List.getElem?_eq_some_iff.mp hx
      rw [List.getElem_cons_drop, List.take_append_drop]
    refine ⟨_, x, _, hsplit, hvalue, by rw [List.length_take]; omega, ?_, ?_⟩
    · rw [hsplit] at hc'
      refine hc'.endures ?_
      rw [settings_of_reached ho hr', List.length_take]
      omega
    · intro t' r view limit hmem hq ha
      obtain ⟨before, u, u', k', y, ⟨hpre, hb, -⟩, hk', hy, -, hanswer⟩ := sample_of_read ho hr' hmem hq ha
      obtain rfl : k' = k := by omega
      have hlog := log_getElem? ((List.prefix_append _ _).trans hpre) hb hy
      exact Option.some.inj (hlog.symm.trans hx) ▸ hanswer

/-- Two threads append to two slots from −1 on. The one that called last gets the lock first, and
    the first index, and returns last; a third append evicts its element, and not the other. -/
theorem appends_in_order_raced :
    ∃ s s' : System Nat, small.run? ([.call 1 (.append 10), .call 2 (.append 20)] ++ List.replicate 4 (.step 2) ++
        List.replicate 5 (.step 1) ++ [.step 2]) = some s ∧ s.run? (appendAlone 3 30) = some s' ∧
      (20, -1) ∈ (s.account 2).granted ∧ (10, 0) ∈ (s.account 1).granted ∧
      s'.ring.life (-1) = .evicted ∧ s'.Answers 0 (.read .value 0 .forever) (.value 10) := by
  have hrun : (small.run? ([.call 1 (.append 10), .call 2 (.append 20)] ++ List.replicate 4 (.step 2) ++
        List.replicate 5 (.step 1) ++ [.step 2])).any (fun s => (s.run? (appendAlone 3 30)).any
      (fun s' => (s'.phase 0).isIdle && s'.holder.isNone)) = true := by decide +kernel
  obtain ⟨s, hr, hs⟩ := exists_run hrun
  obtain ⟨s', hr', hs'⟩ := exists_run hs
  simp only [Bool.and_eq_true, Option.isNone_iff_eq_none] at hs'
  have hlog : (small.log ([.call 1 (.append 10), .call 2 (.append 20)] ++ List.replicate 4 (.step 2) ++
        List.replicate 5 (.step 1) ++ [.step 2])).map (·.value) = [20, 10] := by decide +kernel
  have hlater : (small.log ([.call 1 (.append 10), .call 2 (.append 20)] ++ List.replicate 4 (.step 2) ++
        List.replicate 5 (.step 1) ++ [.step 2] ++ appendAlone 3 30)).length = 3 := by decide +kernel
  have hlen := congrArg List.length hlog
  rw [List.length_map] at hlen
  obtain ⟨-, -, -, -, hgranted, -, -, -, hendures⟩ := appends_in_order small_opened hr
  have h2 := (hgranted 2 20 (-1)).mpr ⟨0, by decide, by rw [hlen]; decide, by decide +kernel⟩
  have h1 := (hgranted 1 10 0).mpr ⟨1, by decide, by rw [hlen]; decide, by decide +kernel⟩
  have hstart : (Opening.ofSettings ⟨2, -1, .millis 10⟩).settings.start = -1 := rfl
  have hset := settings_of_reached small_opened hr
  have hcap : s'.settings.capacity.toNat = 2 := by rw [run_settings hr', hset]; rfl
  obtain ⟨older, x, newer, hsplit, -, hi, hx, -⟩ := hendures 2 20 (-1) h2 _ s' hr'
  obtain ⟨older', x', newer', hsplit', hvalue, hi', hx', -⟩ := hendures 1 10 0 h1 _ s' hr'
  have hn := congrArg List.length hsplit
  have hn' := congrArg List.length hsplit'
  rw [hlater, List.length_append, List.length_cons] at hn hn'
  refine ⟨s, s', hr, hr', h2, h1, (hx.gone (by omega)).1, ?_⟩
  obtain ⟨a, ha, hanswer⟩ := (hx'.held (by omega)).2.2 0 .value .forever (Phase.eq_idle hs'.1) hs'.2
  obtain rfl : a = .value x'.value := ha
  rw [← hvalue]
  exact hanswer

end Chronicle.System
