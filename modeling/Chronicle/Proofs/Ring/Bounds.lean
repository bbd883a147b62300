/-
  Chronicle.Proofs.Ring.Bounds — no operation on indices leaves their range.

  `r.Bounded start` goes through all that a ring which began at `start` does with indices:
  the sentinel before the first one, the number of slots as an index, the count of the
  elements, the steps of a push, the slot of an index. Every one of them is exact. The one
  exception is the successor of the greatest index, which there is none of, and only a push
  asks for it.

  What comes closest to the ends of the range is the count that a push makes before it
  evicts: one more than there are slots. It fits because the slots are fewer than
  `slotLimit`, whatever the memory and wherever in the range the retained indices lie.

  Proved: a window on a log is bounded (`Window.bounded`).
-/

import Chronicle.Proofs.Ring.Window

namespace Chronicle.Ring

variable {σ : Type}

/-! ## Slots -/

section

variable {r : Ring σ} (h : 0 < r.capacity) (i : Int)

include h

/-- The slot of an index, before or after zero, is its residue. -/
theorem slotOf_eq_emod : (r.slotOf i : Int) = i % r.capacity := by
  have := Int.emod_nonneg i (b := r.capacity) (by omega)
  unfold slotOf
  omega

theorem slotOf_lt : r.slotOf i < r.capacity := by
  have := slotOf_eq_emod h i
  have := Int.emod_lt_of_pos i (b := r.capacity) (by omega)
  omega

end

/-! ## The range -/

/-- All that a ring which began at `start` does with indices stays within their range, but
    for the successor of the greatest one. -/
structure Bounded (r : Ring σ) (start : Int) : Prop where
  /-- The newest index of a ring that was just made. -/
  before : Index.InRange (start - 1)
  capacity_pos : 0 < r.capacity
  capacity : Index.InRange r.capacity
  oldest : Index.InRange r.oldest
  newest : Index.InRange r.newest
  /-- The count of the elements. -/
  span : Index.InRange (r.newest - r.oldest)
  count : Index.InRange (r.newest - r.oldest + 1)
  count_nonneg : 0 ≤ r.newest - r.oldest + 1
  count_le : r.newest - r.oldest + 1 ≤ r.capacity
  length : r.length = .ok (r.newest - r.oldest + 1).toNat
  /-- The steps of a push: the next index, the count with it, the eviction if that is more
      than there are slots. -/
  next : Index.InRange (r.newest + 1) ↔ r.newest ≠ Index.greatest
  nextSpan : r.newest ≠ Index.greatest → Index.InRange (r.newest + 1 - r.oldest)
  nextCount : r.newest ≠ Index.greatest → Index.InRange (r.newest + 1 - r.oldest + 1)
  evict : r.newest ≠ Index.greatest → (r.capacity : Int) < r.newest + 1 - r.oldest + 1 → Index.InRange (r.oldest + 1)
  push : ∀ x, r.newest ≠ Index.greatest → ∃ r' d, r.push x = .ok (r.newest + 1, d) r'
  overflow : ∀ x p r', r.push x = .error p r' ↔ p = .addOverflow ∧ r.newest = Index.greatest ∧ r' = r
  /-- The slot of an index, whatever the index. -/
  slotOf_eq : ∀ i, (r.slotOf i : Int) = i % r.capacity
  slotOf_lt : ∀ i, r.slotOf i < r.capacity
  filled_lt : ∀ n x, r.slot? n = some x → n < r.capacity

namespace Window

variable {r : Ring σ} {start : Int} {log : List σ}

/-- The count of the elements is exact, that of an empty ring included. -/
theorem length_eq (h : r.Window start log) : r.length = .ok (r.newest - r.oldest + 1).toNat := by
  have hnext := h.oldest_le_newest_succ
  unfold length
  by_cases hempty : r.newest < r.oldest
  · rw [if_pos hempty, show (r.newest - r.oldest + 1).toNat = 0 by omega]
  · have hpos := h.capacity_pos
    have hcap := h.capacity_lt
    have hfull := h.newest_lt_oldest_add
    have hspan : Index.InRange (r.newest - r.oldest) := by
      simp only [Index.InRange, Index.least, Index.greatest, slotLimit] at *; omega
    have hcount : Index.InRange (r.newest - r.oldest + 1) := by
      simp only [Index.InRange, Index.least, Index.greatest, slotLimit] at *; omega
    simp only [if_neg hempty, Index.difference_of_inRange hspan, Index.sum_of_inRange hcount, bind, Except.bind,
      pure, Except.pure]

theorem bounded (h : r.Window start log) : r.Bounded start := by
  have hgt := h.start_gt
  have hle := h.start_le
  have hpos := h.capacity_pos
  have hcap := h.capacity_lt
  have hstart := h.start_le_oldest
  have hnext := h.oldest_le_newest_succ
  have hfull := h.newest_lt_oldest_add
  have hlast := h.newest_le
  have holdest : r.oldest ≤ Index.greatest := by
    have := h.oldest_eq
    have := h.newest_eq
    omega
  have hroom : r.newest ≠ Index.greatest → r.newest < Index.greatest := by intro hne; omega
  have hslot : ∀ n x, r.slot? n = some x → n < r.capacity := by
    intro n x hx
    obtain ⟨k, -, -, rfl⟩ := (h.slot?_iff n x).mp hx
    exact slotOf_lt hpos _
  have hpush : ∀ x, r.newest ≠ Index.greatest → ∃ r' d, r.push x = .ok (r.newest + 1, d) r' := by
    intro x hne
    exact ⟨pushed r x, _, h.push_eq (hroom hne) x⟩
  constructor
  case length => exact h.length_eq
  case push => exact hpush
  case overflow => exact h.push_eq_error_iff
  case slotOf_eq => exact slotOf_eq_emod hpos
  case slotOf_lt => exact slotOf_lt hpos
  case filled_lt => exact hslot
  -- what is left is arithmetic: the retained indices lie between the start and the greatest
  -- one, and are at most as many as there are slots
  all_goals
    simp only [Index.InRange, Index.least, Index.greatest, slotLimit] at *
    omega

end Window

end Chronicle.Ring
