/-
  Chronicle.Proofs.CatchUp — a reader that catches up.

  The reader asks for one index after another: the next one after a value, the oldest
  retained one after it was told that its index is evicted, until it reaches `stop`
  (`asksNext`). Whatever the others do, and whenever it wakes, the replies it gathers are
  a `Trail`: from index to index, each either seen, with what the log has there, or passed
  over in a state in which it was evicted. The trail only goes up, so it sees each index
  once at most and asks no more often than there are indices, plus once to reach the first
  of them. What the reader goes on with after an eviction was appended by then or comes
  next, so the last index is never passed over.

  Proved: `catch_up_exact`.
-/

import Chronicle.Proofs.Lifetime
import Chronicle.Proofs.System.Call

namespace Chronicle

variable {α : Type}

/-! ## The loop -/

/-- The index a reader goes on with after a reply: the next one after a value, the oldest
    one it was told of after an eviction. -/
def Reply.onward? (r : Reply α) : Option Int :=
  match r.call.request, r.answer with
  | .read _ i _, .value _ => some (i + 1)
  | _, .failed (.evicted _ oldest) => some oldest
  | _, _ => none

/-- The index a reader that began with `first` goes on with; replies come newest first. -/
def cursor? (first : Int) : List (Reply α) → Option Int
  | [] => some first
  | r :: _ => r.onward?

def Reply.seen? (r : Reply α) : Option (Int × α) :=
  match r.call.request, r.answer with
  | .read _ i _, .value v => some (i, v)
  | _, _ => none

def seen (replies : List (Reply α)) : List (Int × α) := (replies.filterMap Reply.seen?).reverse

/-- If the thread makes a call, it is the one that the loop makes next. -/
def asksNext (t : Nat) (first stop : Int) (s : System α) : Move α → Bool
  | .call u q => u ≠ t ||
    match cursor? first (s.thread t).replies, q.read? with
    | some i, some request => i < stop && request = (.value, i, .forever)
    | _, _ => false
  | _ => true

theorem of_asksNext {t : Nat} {first stop : Int} {s : System α} {q : Request α}
    (h : asksNext t first stop s (.call t q) = true) :
    ∃ i, cursor? first (s.thread t).replies = some i ∧ i < stop ∧ q = .read .value i .forever := by
  simp only [asksNext, ne_eq, not_true_eq_false, decide_false, Bool.false_or] at h
  split at h
  · rename_i i request hc hq
    simp only [Bool.and_eq_true, decide_eq_true_eq] at h
    obtain ⟨hlt, rfl⟩ := h
    exact ⟨i, hc, hlt, Request.eq_read hq⟩
  · cases h

/-! ## The trail -/

/-- The replies of a reader that began with `first`, newest first, and the index it goes on
    with: each index before that one was seen, or was passed over when it was evicted
    (`gone`, which is said of a reply and an index). -/
inductive Trail (start first stop : Int) (log : List (Sample α)) (gone : Reply α → Int → Prop) :
    List (Reply α) → Int → Prop
  | begin : Trail start first stop log gone [] first
  | value {replies : List (Reply α)} {i : Int} (r : Reply α) (k : Nat) (x : Sample α) :
      Trail start first stop log gone replies i → i < stop → r.call.request = .read .value i .forever →
      i = start + k → log[k]? = some x → r.answer = .value x.value →
      Trail start first stop log gone (r :: replies) (i + 1)
  | skip {replies : List (Reply α)} {i : Int} (r : Reply α) (oldest : Int) :
      Trail start first stop log gone replies i → i < stop → r.call.request = .read .value i .forever →
      r.answer = .failed (.evicted i oldest) → i < oldest → start ≤ oldest → oldest < stop →
      (∀ j, start ≤ j → j < oldest → gone r j) →
      Trail start first stop log gone (r :: replies) oldest

namespace Trail

variable {start first stop c : Int} {log : List (Sample α)} {gone : Reply α → Int → Prop} {replies : List (Reply α)}

theorem cursor?_eq (h : Trail start first stop log gone replies c) : cursor? first replies = some c := by
  cases h with
  | begin => rfl
  | value r k x _ _ hq _ _ ha => simp only [cursor?, Reply.onward?, hq, ha]
  | skip r oldest _ _ hq ha => simp only [cursor?, Reply.onward?, hq, ha]

theorem seen_value {r : Reply α} {i : Int} {v : α} (hq : r.call.request = .read .value i .forever)
    (ha : r.answer = .value v) : seen (r :: replies) = seen replies ++ [(i, v)] := by
  simp [seen, Reply.seen?, hq, ha]

theorem seen_skip {r : Reply α} {i oldest : Int} (ha : r.answer = .failed (.evicted i oldest)) :
    seen (r :: replies) = seen replies := by
  have hnone : r.seen? = none := by
    unfold Reply.seen?
    rw [ha]
    split <;> first | rfl | contradiction
  simp [seen, hnone]

/-- The reader goes up, and from its first call on it is past the start. -/
theorem le_cursor (h : Trail start first stop log gone replies c) :
    first ≤ c ∧ (replies ≠ [] → max first start ≤ c) := by
  induction h with
  | begin => exact ⟨Int.le_refl _, fun hne => absurd rfl hne⟩
  | value r k x _ _ _ hk _ _ ih => exact ⟨by omega, fun _ => by omega⟩
  | skip r oldest _ _ _ _ hlt hle _ _ ih => exact ⟨by omega, fun _ => by omega⟩

theorem cursor_le (h : Trail start first stop log gone replies c) (hne : replies ≠ []) : c ≤ stop := by
  cases h with
  | begin => exact absurd rfl hne
  | value r k x _ hi => omega
  | skip r oldest _ _ _ _ _ _ hlt => omega

/-- Every call but the first takes the reader at least one index further. -/
theorem length_le (h : Trail start first stop log gone replies c) :
    (replies.length : Int) ≤ max 0 (c - max first start + 1) := by
  induction h with
  | begin => simp only [List.length_nil]; omega
  | @value replies i r k x ht _ _ hk _ _ ih =>
    have hle := ht.le_cursor.1
    simp only [List.length_cons]
    omega
  | @skip replies i r oldest ht _ _ _ hlt hle _ _ ih =>
    have hup := ht.le_cursor.1
    simp only [List.length_cons]
    omega

theorem seen_lt (h : Trail start first stop log gone replies c) : ∀ p ∈ seen replies, p.1 < c := by
  induction h with
  | begin => intro p hp; cases hp
  | value r k x _ _ hq _ _ ha ih =>
    intro p hp
    rw [seen_value hq ha] at hp
    rcases List.mem_append.mp hp with hp | hp
    · have := ih p hp; omega
    · rw [List.mem_singleton] at hp; subst hp; show _ < _; omega
  | skip r oldest _ _ _ ha hlt _ _ _ ih =>
    intro p hp
    rw [seen_skip ha] at hp
    have := ih p hp
    omega

theorem seen_increasing (h : Trail start first stop log gone replies c) :
    (seen replies).Pairwise fun a b => a.1 < b.1 := by
  induction h with
  | begin => exact List.Pairwise.nil
  | value r k x ht _ hq _ _ ha ih =>
    rw [seen_value hq ha, List.pairwise_append]
    refine ⟨ih, List.pairwise_singleton _ _, ?_⟩
    intro a hmem b hb
    rw [List.mem_singleton] at hb
    subst hb
    exact ht.seen_lt a hmem
  | skip r oldest _ _ _ ha _ _ _ _ ih => rw [seen_skip ha]; exact ih

theorem seen_eq_log (h : Trail start first stop log gone replies c) :
    ∀ p ∈ seen replies, ∃ (k : Nat) (x : Sample α), p.1 = start + k ∧ log[k]? = some x ∧ p.2 = x.value := by
  induction h with
  | begin => intro p hp; cases hp
  | value r k x _ _ hq hk hx ha ih =>
    intro p hp
    rw [seen_value hq ha] at hp
    rcases List.mem_append.mp hp with hp | hp
    · exact ih p hp
    · rw [List.mem_singleton] at hp; subst hp; exact ⟨k, x, hk, hx, rfl⟩
  | skip r oldest _ _ _ ha _ _ _ _ ih => rw [seen_skip ha]; exact ih

/-- Each index the reader has passed was seen, or was gone when it was passed over. -/
theorem seen_or_gone (h : Trail start first stop log gone replies c) {j : Int} (hj : max first start ≤ j) (hc : j < c) :
    (∃ v, (j, v) ∈ seen replies) ∨ ∃ r ∈ replies, ∃ i oldest, r.answer = .failed (.evicted i oldest) ∧ i ≤ j ∧
      j < oldest ∧ gone r j := by
  induction h with
  | begin => omega
  | @value replies i r k x _ _ hq _ _ ha ih =>
    by_cases hlt : j < i
    · rcases ih hlt with ⟨v, hv⟩ | ⟨r', hr', hgone⟩
      · exact Or.inl ⟨v, by rw [seen_value hq ha]; exact List.mem_append_left _ hv⟩
      · exact Or.inr ⟨r', List.mem_cons_of_mem _ hr', hgone⟩
    · obtain rfl : j = i := by omega
      exact Or.inl ⟨x.value, by rw [seen_value hq ha]; simp⟩
  | @skip replies i r oldest _ _ _ ha _ _ _ hgone ih =>
    by_cases hlt : j < i
    · rcases ih hlt with ⟨v, hv⟩ | ⟨r', hr', hrest⟩
      · exact Or.inl ⟨v, by rw [seen_skip ha]; exact hv⟩
      · exact Or.inr ⟨r', List.mem_cons_of_mem _ hr', hrest⟩
    · exact Or.inr ⟨r, List.mem_cons_self, i, oldest, ha, by omega, hc, hgone j (by omega) hc⟩

/-- A reader that has reached the stop has seen the index before it last. -/
theorem getLast?_seen (h : Trail start first stop log gone replies c) (hfirst : first < stop) (hc : stop ≤ c) :
    (seen replies).getLast?.map (·.1) = some (stop - 1) := by
  cases h with
  | begin => omega
  | @value replies i r k x _ hi hq _ _ ha =>
    rw [seen_value hq ha, List.getLast?_append]
    simp only [List.getLast?_singleton, Option.some_or, Option.map_some, Option.some.injEq]
    omega
  | skip r oldest _ _ _ _ _ _ hlt => omega

/-- If nothing was evicted that had been appended, the reader has seen every index it has
    passed. -/
theorem seen_eq_range (h : Trail start first stop log gone replies c) (hnone : ∀ r j, start ≤ j → ¬ gone r j) :
    (seen replies).map (·.1) = (List.range (c - max first start).toNat).map fun k : Nat => max first start + k := by
  induction h with
  | begin =>
    have : (first - max first start).toNat = 0 := by omega
    rw [this]
    rfl
  | @value replies i r k x ht _ hq hk _ ha ih =>
    have hup := ht.le_cursor.1
    have hsucc : (i + 1 - max first start).toNat = (i - max first start).toNat + 1 := by omega
    rw [seen_value hq ha, List.map_append, ih, hsucc, List.range_succ, List.map_append]
    simp only [List.map_cons, List.map_nil, List.append_cancel_left_eq, List.cons.injEq, and_true]
    omega
  | @skip replies i r oldest ht _ _ ha hlt hle _ hgone ih =>
    -- the reader was before the start, and was sent to the start
    have hstart : oldest = start := by
      by_cases e : oldest = start
      · exact e
      · exact absurd (hgone start (Int.le_refl _) (by omega)) (hnone r start (Int.le_refl _))
    have hup := ht.le_cursor.1
    rw [seen_skip ha, ih, hstart]
    congr 2
    omega

end Trail

namespace System

variable {s₀ s u u' : System α} {t : Nat} {before moves : List (Move α)} {log : List (Sample α)}

/-- When the thread was given this reply, the index had been appended and was evicted. -/
def Gone (s₀ : System α) (t : Nat) (moves : List (Move α)) (r : Reply α) (j : Int) : Prop :=
  ∃ before u u', s₀.EndedBy t r moves before u u' ∧ j ≤ u.ring.newest ∧ u.ring.life j = .evicted

/-- What a read answers leads the reader on. -/
theorem Trail.snoc {start first : Int} {n : Nat} {i : Int} {replies : List (Reply α)} {r : Reply α}
    (ht : Trail start first (start + n) (s₀.log moves) (s₀.Gone t moves) replies i) (hi : i < start + n)
    (hn : 1 ≤ n) (hlog : (s₀.log moves).length ≤ n) (hc : u.Coherent (s₀.log before)) (hs : u.settings.start = start)
    (hended : s₀.EndedBy t r moves before u u') (hq : r.call.request = .read .value i .forever)
    (htold : u.Told t r.call i r.answer) :
    ∃ c, Trail start first (start + n) (s₀.log moves) (s₀.Gone t moves) (r :: replies) c := by
  obtain ⟨hpre, hb, -⟩ := id hended
  have hbefore : before <+: moves := (List.prefix_append _ _).trans hpre
  have hlen := (log_extends hbefore hb).length_le
  have hoff := htold.readsOff hc hq
  generalize ha : r.answer = a at hoff
  cases hoff with
  | evicted hlt =>
    have hpos := hc.window.capacity_pos
    have hoe := hc.window.oldest_eq
    have hnext := hc.window.oldest_le_newest_succ
    rw [hs] at hoe
    refine ⟨_, .skip r u.ring.oldest ht hi hq ha hlt (by omega) (by omega) ?_⟩
    intro j _ hj
    exact ⟨before, u, u', hended, by omega, Ring.life_of_lt hj⟩
  | retained k x _ _ _ hk hx hv =>
    rw [hs] at hk
    exact ⟨_, .value r k x ht hi hq hk (log_getElem? hbefore hb hx) (ha.trans hv)⟩
  | notYet e _ _ _ hlimit => exact absurd rfl hlimit

variable {o : Opening} {memory : Memory} {clock : Clock} {now : Nat}

/-- The replies of a reader that keeps to its loop are a trail, and the call it is making is
    for the index the trail has come to. -/
theorem trail_of_run (ho : (o.run memory clock now).2 = .opened s₀) (hr : s₀.run? moves = some s) {n : Nat} (hn : 1 ≤ n)
    (hlog : (s₀.log moves).length ≤ n) {first : Int}
    (hloop : s₀.allMoves (asksNext t first (o.settings.start + n)) moves = true) :
    ∃ c, Trail o.settings.start first (o.settings.start + n) (s₀.log moves) (s₀.Gone t moves) (s.thread t).replies c ∧
      ∀ call, (s.phase t).call? = some call → c < o.settings.start + n ∧ call.request = .read .value c .forever := by
  refine run_prefix_induction (I := fun _ v => ∃ c,
    Trail o.settings.start first (o.settings.start + n) (s₀.log moves) (s₀.Gone t moves) (v.thread t).replies c ∧
      ∀ call, (v.phase t).call? = some call → c < o.settings.start + n ∧ call.request = .read .value c .forever) ?_ ?_ hr
  · obtain ⟨-, ring, -, rfl⟩ := Opening.eq_initial_of_opened ho
    refine ⟨first, by rw [thread_initial]; exact .begin, ?_⟩
    intro call hcall
    simp only [phase, thread_initial] at hcall
    cases hcall
  rintro before u m u' hpre hb hm ⟨c, htrail, hcall⟩
  have hs := step_of_move? hm
  have hc := Coherent.of_reached ho hb
  rcases hs.call_cases t with ⟨hsame, hrep⟩ | ⟨q, rfl, -, hnew, hrep⟩ | ⟨call, a, rfl, hold, hidle, hrep⟩
  · rw [hsame, hrep]
    exact ⟨c, htrail, hcall⟩
  · rw [hnew, hrep]
    obtain ⟨i, hi, hlt, rfl⟩ := of_asksNext (allows_of_allMoves hloop hpre hb)
    obtain rfl : i = c := Option.some.inj (hi.symm.trans htrail.cursor?_eq)
    refine ⟨i, htrail, ?_⟩
    intro call hcall
    cases hcall
    exact ⟨hlt, rfl⟩
  · obtain ⟨hlt, hq⟩ := hcall call hold
    obtain ⟨htold, -⟩ := hc.told (r := ⟨call, a, u.now⟩) hs hrep (by rw [hq]; rfl)
    rw [hrep, hidle]
    obtain ⟨c', htrail'⟩ := Trail.snoc htrail hlt hn hlog hc (settings_of_reached ho hb ▸ rfl) ⟨hpre, hb, hm, hrep⟩ hq
      htold
    exact ⟨c', htrail', fun call hcall => by cases hcall⟩

/-- If there is room for all, nothing that was appended is ever gone. -/
theorem not_gone_of_room (ho : (o.run memory clock now).2 = .opened s₀)
    (hroom : (s₀.log moves).length ≤ o.settings.capacity.toNat) {r : Reply α} {j : Int} (hj : o.settings.start ≤ j) :
    ¬ s₀.Gone t moves r j := by
  rintro ⟨before, u, u', ⟨hpre, hb, -⟩, hnewest, hgone⟩
  have hu := Coherent.of_reached ho hb
  have hshort := (log_extends ((List.prefix_append _ _).trans hpre) hb).length_le
  have holdest := hu.window.oldest_eq
  rw [hu.capacity, settings_of_reached ho hb] at holdest
  rw [Ring.life_of_le (by omega) hnewest] at hgone
  cases hgone

/-- A reader that catches up sees indices in order, each with what was appended there, and
    misses none but those that were evicted; it asks at most once more than there are
    indices, and when it is done it has seen the last of them, and each of them if there was
    room for all. Once all are appended, its calls are answered without waiting. -/
theorem catch_up_exact (ho : (o.run memory clock now).2 = .opened s₀) (hr : s₀.run? moves = some s) {n : Nat} (hn : 1 ≤ n)
    (hmax : o.settings.start + n - 1 < Index.greatest) (hlog : (s₀.log moves).length ≤ n) {first : Int}
    (hfirst : Index.InRange first) (hloop : s₀.allMoves (asksNext t first (o.settings.start + n)) moves = true) :
    ((seen (s.thread t).replies).Pairwise fun a b => a.1 < b.1) ∧
    (∀ p ∈ seen (s.thread t).replies, ∃ (k : Nat) (x : Sample α),
      p.1 = o.settings.start + k ∧ (s₀.log moves)[k]? = some x ∧ p.2 = x.value) ∧
    (s.thread t).replies.length + (if (s.phase t).isIdle then 0 else 1) ≤ n + 1 ∧
    ∃ c, cursor? first (s.thread t).replies = some c ∧ Index.InRange c ∧
      (∀ j, max first o.settings.start ≤ j → j < c → (∃ v, (j, v) ∈ seen (s.thread t).replies) ∨
        ∃ r ∈ (s.thread t).replies, ∃ i oldest, r.answer = .failed (.evicted i oldest) ∧ i ≤ j ∧ j < oldest ∧
          s₀.Gone t moves r j) ∧
      (c < o.settings.start + n → (s₀.log moves).length = n → s.phase t = .idle → s.holder = none →
        ∃ a, s.Answers t (.read .value c .forever) a) ∧
      (o.settings.start + n ≤ c →
        (first ≤ o.settings.start + n - 1 →
          (seen (s.thread t).replies).getLast?.map (·.1) = some (o.settings.start + n - 1)) ∧
        (n ≤ o.settings.capacity.toNat → (seen (s.thread t).replies).map (·.1) =
          (List.range (o.settings.start + n - max first o.settings.start).toNat).map fun k : Nat =>
            max first o.settings.start + k)) := by
  obtain ⟨c, htrail, hcall⟩ := trail_of_run ho hr hn hlog hloop
  have hc := Coherent.of_reached ho hr
  have hup := htrail.le_cursor
  have hlen := htrail.length_le
  have hle : (s.thread t).replies ≠ [] → c ≤ o.settings.start + n := htrail.cursor_le
  have hbegin : (s.thread t).replies = [] → c = first := by
    intro hnil
    rw [hnil] at htrail
    cases htrail
    rfl
  refine ⟨htrail.seen_increasing, htrail.seen_eq_log, ?_, c, htrail.cursor?_eq, ?_, ?_, ?_, ?_⟩
  · by_cases hidle : s.phase t = .idle
    · have hzero : (s.phase t).isIdle = true := by rw [hidle]; rfl
      rw [if_pos hzero]
      by_cases hnil : (s.thread t).replies = []
      · rw [hnil]; simp
      · have := hle hnil; omega
    · obtain ⟨call, hsome⟩ := Option.ne_none_iff_exists'.mp (mt Phase.call?_eq_none.mp hidle)
      have := (hcall call hsome).1
      split <;> omega
  · by_cases hnil : (s.thread t).replies = []
    · rw [hbegin hnil]; exact hfirst
    · have := hle hnil
      exact ⟨Int.le_trans hfirst.1 hup.1, by omega⟩
  · intro j hj hjc
    exact htrail.seen_or_gone hj hjc
  · intro hlt hall hidle hfree
    have hnewest := hc.window.newest_eq
    rw [settings_of_reached ho hr, hall] at hnewest
    exact ⟨_, answers_verdict hidle hfree rfl (by omega) (fun j l h => by cases h)⟩
  · intro hdone
    refine ⟨fun hlow => htrail.getLast?_seen (by omega) hdone, fun hroom => ?_⟩
    rw [htrail.seen_eq_range fun r j hj => not_gone_of_room ho (Nat.le_trans hlog hroom) hj]
    by_cases hnil : (s.thread t).replies = []
    · have := hbegin hnil
      rw [show (c - max first o.settings.start).toNat = 0 by omega,
        show (o.settings.start + n - max first o.settings.start).toNat = 0 by omega]
    · obtain rfl : c = o.settings.start + n := by have := hle hnil; omega
      rfl

/-- Three appends to two slots from −1 on, and a reader that begins before all of them: it is
    sent to −1, sleeps on it and is lapped, and goes on to the last index in four calls. -/
theorem catch_up_exact_lapped :
    ∃ s : System Nat, small.run?
        ([.call 1 (.read .value (-3) .forever), .step 1, .step 1, .call 1 (.read .value (-1) .forever)] ++
          List.replicate 3 (.step 1) ++ appendAlone 0 10 ++ appendAlone 0 20 ++ appendAlone 0 30 ++
          List.replicate 3 (.step 1) ++ [.call 1 (.read .value 0 .forever)] ++ List.replicate 3 (.step 1) ++
          [.call 1 (.read .value 1 .forever)] ++ List.replicate 3 (.step 1)) = some s ∧
      (s.thread 1).replies.length ≤ 4 ∧ seen (s.thread 1).replies = [(0, 20), (1, 30)] ∧
      (seen (s.thread 1).replies).getLast?.map (·.1) = some 1 ∧
      ∃ r ∈ (s.thread 1).replies, ∃ i oldest, r.answer = .failed (.evicted i oldest) ∧ i ≤ -1 ∧ -1 < oldest := by
  have hrun : (small.run?
        ([.call 1 (.read .value (-3) .forever), .step 1, .step 1, .call 1 (.read .value (-1) .forever)] ++
          List.replicate 3 (.step 1) ++ appendAlone 0 10 ++ appendAlone 0 20 ++ appendAlone 0 30 ++
          List.replicate 3 (.step 1) ++ [.call 1 (.read .value 0 .forever)] ++ List.replicate 3 (.step 1) ++
          [.call 1 (.read .value 1 .forever)] ++ List.replicate 3 (.step 1))).any
      (fun s => decide (seen (s.thread 1).replies = [(0, 20), (1, 30)]) &&
        decide (cursor? (-3) (s.thread 1).replies = some 2)) = true := by
    decide +kernel
  obtain ⟨s, hr, hs⟩ := exists_run hrun
  simp only [Bool.and_eq_true, decide_eq_true_eq] at hs
  obtain ⟨hseen, hcursor⟩ := hs
  obtain ⟨-, -, hcalls, c, hc, -, hskipped, -, hdone⟩ := catch_up_exact (t := 1) (n := 3) small_opened hr
    (by decide) (by decide) (by decide +kernel) (show Index.InRange (-3) by decide) (by decide +kernel)
  obtain rfl : c = 2 := Option.some.inj (hc.symm.trans hcursor)
  refine ⟨s, hr, by omega, hseen, (hdone (by decide)).1 (by decide), ?_⟩
  rcases hskipped (-1) (by decide) (by decide) with ⟨v, hv⟩ | ⟨r, hmem, i, oldest, ha, hi, ho, -⟩
  · rw [hseen] at hv
    simp at hv
  · exact ⟨r, hmem, i, oldest, ha, hi, ho⟩

end System

end Chronicle
