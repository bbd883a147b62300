/-
  Chronicle.Proofs.Ring.Window — the ring as a window on the end of a log.

  `r.Window start log`: the ring `r` began at the index `start` and had the elements of
  `log` pushed onto it, in that order. Its ends are then sums of `start`, the length of
  the log and the number of slots, and each slot holds the one retained element whose
  index falls into it.

  Proved:
  - when an empty ring can be made (`empty?_eq_some_iff`), and that it is a window on the empty
    log (`Window.of_empty?`);
  - a push succeeds exactly below the greatest index, and puts one element on the log
    (`Window.push_eq`, `Window.push_eq_error`, `Window.push`);
  - a retained index is answered with its element of the log (`Window.element`).
-/

import Chronicle.Ring

namespace Chronicle

/-- All the memory there can be, for slots of whole numbers. -/
def Memory.ample : Memory := ⟨24, by decide, Memory.limit⟩

namespace Ring

variable {σ : Type}

/-! ## Slots -/

/-- No object has as many slots. -/
def slotLimit : Nat := 576460752303423488

theorem lt_slotLimit {memory : Memory} {capacity : Nat} (h : capacity * memory.slotBytes ≤ Memory.limit) :
    capacity < slotLimit := by
  have hslots : capacity * 16 ≤ capacity * memory.slotBytes := Nat.mul_le_mul_left capacity memory.le_slotBytes
  simp only [Memory.limit, slotLimit] at *
  omega

/-- Two indices less than a lap apart that share a slot are one. -/
theorem slotOf_inj {r : Ring σ} (hc : 0 < r.capacity) {i j : Int} (hij : i ≤ j) (hlt : j < i + r.capacity)
    (h : r.slotOf i = r.slotOf j) : i = j := by
  have hi := Int.emod_nonneg i (b := r.capacity) (by omega)
  have hj := Int.emod_nonneg j (b := r.capacity) (by omega)
  have hmod : j % (r.capacity : Int) = i % (r.capacity : Int) := by unfold slotOf at h; omega
  have hzero := Int.emod_eq_emod_iff_emod_sub_eq_zero.mp hmod
  rw [Int.emod_eq_of_lt (by omega) (by omega)] at hzero
  omega

/-- An index shares its slot with the one a lap later. -/
theorem slotOf_add_capacity (r : Ring σ) (i : Int) : r.slotOf (i + r.capacity) = r.slotOf i := by
  simp [slotOf]

/-! ## A push -/

@[simp] theorem run_liftExcept_ok {ε τ β : Type} (b : β) (s : τ) :
    (liftExcept (.ok b : Except ε β) : EStateM ε τ β).run s = .ok b s := rfl

@[simp] theorem run_liftExcept_error {ε τ β : Type} (e : ε) (s : τ) :
    (liftExcept (.error e : Except ε β) : EStateM ε τ β).run s = .error e s := rfl

/-- The changes of a push one after another, up to the first sum or difference that is no index. -/
theorem push_eq_match (r : Ring σ) (x : σ) :
    r.push x = match Index.sum r.newest 1 with
      | .error p => .error p r
      | .ok newest => match r.overfull newest with
        | .error p => .error p { r with newest }
        | .ok full => match if full then Index.sum r.oldest 1 else .ok r.oldest with
          | .error p => .error p { r with newest }
          | .ok oldest =>
            let n := r.slotOf newest
            .ok (newest, r.slot? n) { r with newest, oldest, slots := r.slots.insert n x } := by
  cases hnext : Index.sum r.newest 1 with
  | error p => simp [push, hnext]
  | ok newest =>
    have hsame : { r with newest }.overfull newest = r.overfull newest := rfl
    cases hfull : r.overfull newest with
    | error p => simp [push, hnext, hsame, hfull]
    | ok full =>
      cases full with
      | false => simp [-bind_pure_comp, push, hnext, hsame, hfull, slotOf, slot?]
      | true =>
        cases hevict : Index.sum r.oldest 1 <;>
          simp [-bind_pure_comp, push, hnext, hsame, hfull, hevict, slotOf, slot?]

/-- The ring after a push below the greatest index. -/
def pushed (r : Ring σ) (x : σ) : Ring σ :=
  { r with
    slots := r.slots.insert (r.slotOf (r.newest + 1)) x
    oldest := if r.newest + 1 < r.oldest + r.capacity then r.oldest else r.oldest + 1
    newest := r.newest + 1 }

/-! ## The window -/

/-- The ring began at `start`, had `log` pushed onto it, and retains the end of it. -/
structure Window (r : Ring σ) (start : Int) (log : List σ) : Prop where
  capacity_pos : 0 < r.capacity
  capacity_lt : r.capacity < slotLimit
  start_gt : Index.least < start
  start_le : start ≤ Index.greatest
  newest_eq : r.newest = start + log.length - 1
  newest_le : r.newest ≤ Index.greatest
  oldest_eq : r.oldest = max start (start + log.length - r.capacity)
  slot?_iff : ∀ n x, r.slot? n = some x ↔ ∃ k : Nat, log[k]? = some x ∧ r.oldest ≤ start + k ∧ r.slotOf (start + k) = n

theorem empty?_of_large {memory : Memory} {capacity : Nat} (h : Memory.limit < capacity * memory.slotBytes)
    (start : Int) : empty? (σ := σ) memory capacity start = .error .capacityOverflow := by
  simp [empty?, h, bind, Except.bind, throw, throwThe, MonadExceptOf.throw]

theorem empty?_of_short {memory : Memory} {capacity : Nat} (h : capacity * memory.slotBytes ≤ Memory.limit)
    (hroom : memory.room < capacity * memory.slotBytes) (start : Int) :
    empty? (σ := σ) memory capacity start = .ok none := by
  simp [empty?, Nat.not_lt.mpr h, hroom, pure, Except.pure]

/-- A ring is made if an object can have its slots, there is room for them, and its first
    index has a predecessor. -/
theorem empty?_eq_some_iff {r : Ring σ} {memory : Memory} {capacity : Nat} {start : Int} :
    empty? memory capacity start = .ok (some r) ↔
      (capacity * memory.slotBytes ≤ Memory.limit ∧ capacity * memory.slotBytes ≤ memory.room) ∧
        Index.InRange (start - 1) ∧ r = ⟨capacity, ∅, start, start - 1, start - 1⟩ := by
  by_cases hlimit : Memory.limit < capacity * memory.slotBytes
  · rw [empty?_of_large hlimit]
    exact iff_of_false (fun h => by cases h) (fun h => absurd h.1.1 (Nat.not_le.mpr hlimit))
  replace hlimit := Nat.not_lt.mp hlimit
  by_cases hroom : memory.room < capacity * memory.slotBytes
  · rw [empty?_of_short hlimit hroom]
    exact iff_of_false (fun h => by cases h) (fun h => absurd h.1.2 (Nat.not_le.mpr hroom))
  replace hroom := Nat.not_lt.mp hroom
  by_cases hs : Index.InRange (start - 1)
  · simp [empty?, Nat.not_lt.mpr, hlimit, hroom, Index.difference_of_inRange hs, hs, bind, Except.bind, pure,
      Except.pure, eq_comm]
  · simp [empty?, Nat.not_lt.mpr, hlimit, hroom, Index.difference, hs, bind, Except.bind]

/-- A ring that was just made is empty, if there are slots for anything. -/
theorem Window.of_empty? {r : Ring σ} {memory : Memory} {capacity : Nat} {start : Int}
    (h : empty? memory capacity start = .ok (some r)) (hc : 0 < capacity) (hs : Index.least < start)
    (hs' : start ≤ Index.greatest) : r.Window start [] := by
  obtain ⟨⟨hl, -⟩, -, rfl⟩ := empty?_eq_some_iff.mp h
  refine ⟨hc, lt_slotLimit hl, hs, hs', by simp, by simp only; omega, by simp only [List.length_nil]; omega, ?_⟩
  intro n x
  simp [slot?]

theorem capacity_of_empty? {r : Ring σ} {memory : Memory} {capacity : Nat} {start : Int}
    (h : empty? memory capacity start = .ok (some r)) : r.capacity = capacity := by
  obtain ⟨-, -, rfl⟩ := empty?_eq_some_iff.mp h
  rfl

namespace Window

variable {r r' : Ring σ} {start : Int} {log : List σ}

theorem start_le_oldest (h : r.Window start log) : start ≤ r.oldest := by
  have := h.oldest_eq; omega

theorem oldest_le_newest_succ (h : r.Window start log) : r.oldest ≤ r.newest + 1 := by
  have := h.oldest_eq; have := h.newest_eq; have := h.capacity_pos; omega

theorem newest_lt_oldest_add (h : r.Window start log) : r.newest < r.oldest + r.capacity := by
  have := h.oldest_eq; have := h.newest_eq; omega

/-- Below the greatest index a push takes the next index, evicts the oldest one if the
    ring is full, and hands back what its slot held. -/
theorem push_eq (h : r.Window start log) (hn : r.newest < Index.greatest) (x : σ) :
    r.push x = .ok (r.newest + 1, r.slot? (r.slotOf (r.newest + 1))) (pushed r x) := by
  have hcap := h.capacity_lt
  have hpos := h.capacity_pos
  have hgt := h.start_gt
  have h1 := h.newest_eq
  have h2 := h.oldest_eq
  simp only [slotLimit, Index.least, Index.greatest] at *
  have hnext : Index.InRange (r.newest + 1) := by simp only [Index.InRange, Index.least, Index.greatest]; omega
  have hspan : Index.InRange (r.newest + 1 - r.oldest) := by
    simp only [Index.InRange, Index.least, Index.greatest]; omega
  have hcount : Index.InRange (r.newest + 1 - r.oldest + 1) := by
    simp only [Index.InRange, Index.least, Index.greatest]; omega
  have hfull : r.overfull (r.newest + 1) = .ok (decide ((r.capacity : Int) < r.newest + 1 - r.oldest + 1)) := by
    simp only [overfull, Index.difference_of_inRange hspan, Index.sum_of_inRange hcount, bind, Except.bind, pure,
      Except.pure]
  rw [push_eq_match]
  by_cases hf : r.newest + 1 < r.oldest + r.capacity
  · have : ¬ (r.capacity : Int) < r.newest + 1 - r.oldest + 1 := by omega
    simp [Index.sum_of_inRange hnext, hfull, this, hf, pushed]
  · have : (r.capacity : Int) < r.newest + 1 - r.oldest + 1 := by omega
    have hevict : Index.InRange (r.oldest + 1) := by simp only [Index.InRange, Index.least, Index.greatest]; omega
    simp [Index.sum_of_inRange hnext, hfull, this, hf, pushed, Index.sum_of_inRange hevict]

/-- At the greatest index a push is a panic, before it changes anything. -/
theorem push_eq_error (hn : r.newest = Index.greatest) (x : σ) : r.push x = .error .addOverflow r := by
  rw [push_eq_match, hn, Index.succ_greatest]

theorem newest_lt_of_push (h : r.Window start log) {x : σ} {i : Int} {d : Option σ} (hp : r.push x = .ok (i, d) r') :
    r.newest < Index.greatest := by
  have := h.newest_le
  by_cases hn : r.newest = Index.greatest
  · rw [push_eq_error hn] at hp; cases hp
  · omega

theorem newest_eq_of_push_error (h : r.Window start log) {x : σ} {p : Panic} (hp : r.push x = .error p r') :
    r.newest = Index.greatest := by
  have := h.newest_le
  by_cases hn : r.newest < Index.greatest
  · rw [h.push_eq hn] at hp; cases hp
  · omega

/-- A push fails for want of a next index, for no other reason, and before it changes anything. -/
theorem push_eq_error_iff (h : r.Window start log) (x : σ) (p : Panic) (r' : Ring σ) :
    r.push x = .error p r' ↔ p = .addOverflow ∧ r.newest = Index.greatest ∧ r' = r := by
  constructor
  · intro he
    have hlast := h.newest_eq_of_push_error he
    rw [push_eq_error hlast] at he
    cases he
    exact ⟨rfl, hlast, rfl⟩
  · rintro ⟨rfl, hlast, rfl⟩
    exact push_eq_error hlast x

theorem eq_of_push_error (h : r.Window start log) {x : σ} {p : Panic} (hp : r.push x = .error p r') : r' = r :=
  ((h.push_eq_error_iff x p r').mp hp).2.2

/-- A push that succeeds puts its element on the log. -/
theorem push (h : r.Window start log) {x : σ} {i : Int} {d : Option σ} (hp : r.push x = .ok (i, d) r') :
    r'.Window start (log ++ [x]) ∧ r' = pushed r x ∧ i = start + log.length := by
  have hn := h.newest_lt_of_push hp
  rw [h.push_eq hn] at hp
  simp only [EStateM.Result.ok.injEq, Prod.mk.injEq] at hp
  obtain ⟨⟨rfl, -⟩, rfl⟩ := hp
  have h1 := h.newest_eq
  have h2 := h.oldest_eq
  have hpos := h.capacity_pos
  refine ⟨⟨hpos, h.capacity_lt, h.start_gt, h.start_le, ?_, ?_, ?_, ?_⟩, rfl, by omega⟩
  · simp only [pushed, List.length_append, List.length_singleton]; omega
  · simp only [pushed]; omega
  · simp only [pushed, List.length_append, List.length_singleton]
    split <;> omega
  · intro n y
    rw [show (pushed r x).slot? n = if r.slotOf (r.newest + 1) = n then some x else r.slot? n from slot?_insert r _ n x]
    show _ ↔ ∃ k : Nat, (log ++ [x])[k]? = some y ∧ (pushed r x).oldest ≤ start + k ∧ r.slotOf (start + k) = n
    simp only [pushed]
    constructor
    · intro hy
      split at hy
      · rename_i he
        cases hy
        refine ⟨log.length, by simp, by split <;> omega, ?_⟩
        rw [← he]; congr 1; omega
      · rename_i he
        obtain ⟨k, hk, ho, hs⟩ := (h.slot?_iff n y).mp hy
        refine ⟨k, by rw [List.getElem?_append_left (List.getElem?_eq_some_iff.mp hk).1]; exact hk, ?_, hs⟩
        -- the one index that leaves the window had the slot of the new one
        split
        · exact ho
        · by_cases hlast : start + k = r.oldest
          · refine absurd ?_ he
            rw [← hs, hlast, ← slotOf_add_capacity r r.oldest]
            congr 1; have := h.newest_lt_oldest_add; omega
          · omega
    · rintro ⟨k, hk, ho, hs⟩
      rcases Nat.lt_or_ge k log.length with hlt | hge
      · rw [List.getElem?_append_left hlt] at hk
        have ho' : r.oldest ≤ start + k := by split at ho <;> omega
        rw [if_neg, (h.slot?_iff n y).mpr ⟨k, hk, ho', hs⟩]
        intro he
        have := slotOf_inj hpos (i := start + k) (j := r.newest + 1) (by omega) (by split at ho <;> omega)
          (hs.trans he.symm)
        omega
      · have hk' := (List.getElem?_eq_some_iff.mp hk).1
        simp only [List.length_append, List.length_singleton] at hk'
        obtain rfl : k = log.length := by omega
        simp only [List.getElem?_concat_length, Option.some.injEq] at hk
        subst hk
        rw [if_pos]
        rw [← hs]; congr 1; omega

/-- A retained index is answered with its element of the log. -/
theorem element (h : r.Window start log) {i : Int} (ho : r.oldest ≤ i) (hn : i ≤ r.newest) :
    ∃ (k : Nat) (x : σ), i = start + k ∧ log[k]? = some x ∧ r.element i = .ok x := by
  have h1 := h.newest_eq
  have := h.start_le_oldest
  obtain ⟨k, rfl⟩ : ∃ k : Nat, i = start + k := ⟨(i - start).toNat, by omega⟩
  have hk : k < log.length := by omega
  refine ⟨k, log[k], rfl, List.getElem?_eq_getElem hk, ?_⟩
  have hs := (h.slot?_iff (r.slotOf (start + k)) log[k]).mpr ⟨k, List.getElem?_eq_getElem hk, ho, rfl⟩
  simp [Ring.element, hs]

/-- A mark leaves the window as it is. -/
theorem tag (h : r.Window start log) (i : Int) : (r.tag i).Window start log :=
  ⟨h.capacity_pos, h.capacity_lt, h.start_gt, h.start_le, h.newest_eq, h.newest_le, h.oldest_eq, h.slot?_iff⟩

end Window

end Ring

end Chronicle
