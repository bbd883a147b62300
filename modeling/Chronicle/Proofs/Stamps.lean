/-
  Chronicle.Proofs.Stamps — stamps follow the order of the indices.

  The clock is read with the lock, between getting it and the push. So the k-th reading is the
  one of the k-th append to get the lock, whoever makes it, and goes with its value to the
  k-th index; an append that fails for want of an index has read the clock too, but nothing
  comes after it. What is read of an index later, by whatever view, is read of that one
  sample.

  If the readings do not go down, neither do the stamps along the retained indices. That this
  says something of any two of them, and not of neighbours only, is the transitivity of `≤` on
  numbers: they are ordered by their ranks (`unpacked_le_iff`), and what is no number is below
  and above nothing.

  Proved: `stamps_in_order`.
-/

import Mathlib.Data.List.Chain
import Chronicle.Proofs.Lifetime
import Chronicle.Proofs.System.Readings

namespace Chronicle

variable {α : Type}

/-! ## The order of stamps -/

section Order

open Float.Model

/-- Where a number lies: on which side of zero, how far off in powers of two, and the rest. -/
def rank? : UnpackedFloat → Option (Int × Int × Int)
  | .notANumber => none
  | .infinity .negative => some (-2, 0, 0)
  | .finite .negative m e _ => some (-1, -e, -m)
  | .zero _ => some (0, 0, 0)
  | .finite .positive m e _ => some (1, e, m)
  | .infinity .positive => some (2, 0, 0)

/-- One rank is not above another: the first place in which they differ decides. -/
def RankLe (k l : Int × Int × Int) : Prop :=
  k.1 < l.1 ∨ k.1 = l.1 ∧ (k.2.1 < l.2.1 ∨ k.2.1 = l.2.1 ∧ k.2.2 ≤ l.2.2)

theorem RankLe.trans {k l m : Int × Int × Int} (h : RankLe k l) (h' : RankLe l m) : RankLe k m := by
  unfold RankLe at *
  omega

theorem unpacked_le_iff (x y : UnpackedFloat) : x.le y = true ↔ ∃ k ∈ rank? x, ∃ l ∈ rank? y, RankLe k l := by
  unfold UnpackedFloat.le
  rcases x with (_ | _) | _ | _ | ⟨_ | _, m, e, hm⟩ <;> rcases y with (_ | _) | _ | _ | ⟨_ | _, m', e', hm'⟩ <;>
    dsimp only [UnpackedFloat.compare, rank?, compare, compareOfLessAndEq] <;> simp [RankLe]
  -- two finite numbers on one side of zero: first the powers of two, then the rest
  all_goals
    repeat' split
    all_goals
      simp
      omega

theorem float_le_trans {x y z : Float} (h : x ≤ y) (h' : y ≤ z) : x ≤ z := by
  have hiff : ∀ a b : Float, a ≤ b ↔ a.toModel.unpack.le b.toModel.unpack = true := by
    intro a b
    exact decide_eq_true_iff
  rw [hiff, unpacked_le_iff] at *
  obtain ⟨k, hk, l, hl, hkl⟩ := h
  obtain ⟨l', hl', m, hm, hlm⟩ := h'
  obtain rfl := Option.mem_unique hl hl'
  exact ⟨k, hk, m, hm, hkl.trans hlm⟩

instance instTransFloat : @Trans Float Float Float (· ≤ ·) (· ≤ ·) (· ≤ ·) := ⟨float_le_trans⟩

end Order

namespace System

variable {s s₀ u : System α} {t k : Nat} {x : Sample α} {log : List (Sample α)} {stampings : List (Nat × Sample α)}
  {admitted : List (Nat × α)} {moves : List (Move α)}

/-- An index has the reading and the value of one append: as many got the lock before it, read
    the clock before it, and pushed before it. -/
theorem Clocked.stamping_of_log (h : s.Clocked stampings admitted log) (hx : log[k]? = some x) :
    ∃ t, stampings[k]? = some (t, x) ∧ admitted[k]? = some (t, x.value) := by
  obtain ⟨lost, hlost, -⟩ := h.pushed
  have hk := (List.getElem?_eq_some_iff.mp hx).1
  have hmap : (stampings.map (·.2))[k]? = some x := by
    rw [hlost, List.append_assoc, List.getElem?_append_left hk]
    exact hx
  rw [List.getElem?_map, Option.map_eq_some_iff] at hmap
  obtain ⟨⟨t, y⟩, hy, rfl⟩ := hmap
  refine ⟨t, hy, ?_⟩
  have hlt := (List.getElem?_eq_some_iff.mp hy).1
  rw [h.admitted, List.getElem?_append_left (by rw [List.length_map]; exact hlt), List.getElem?_map, hy]
  rfl

variable {o : Opening} {memory : Memory} {clock : Clock} {now : Nat}

/-- Each reading is taken with the lock, by the append it is for, and shows what the clock
    does when it is read for the k-th time. -/
theorem stamping_of_reached (ho : (o.run memory clock now).2 = .opened s₀) (hr : s₀.run? moves = some s)
    (hk : (s₀.stampings moves)[k]? = some (t, x)) :
    ∃ before u c, before ++ [.step t] <+: moves ∧ s₀.run? before = some u ∧ u.holder = some t ∧
      u.phase t = .entered c ∧ c.request = .append x.value ∧ u.readings = k ∧ x.stampMs = clock k u.now := by
  obtain ⟨before, m, u, hpre, hb, hy, hlen⟩ := gather_getElem? hr hk
  obtain rfl : m = .step t := mover_of_stamping hy
  have hcount : u.readings = k := (clocked_of_reached ho hb).count.trans hlen
  have hclock : u.clock = clock := by
    obtain ⟨-, ring, -, rfl⟩ := Opening.eq_initial_of_opened ho
    exact run_clock hb
  cases hp : u.phase t with
  | entered c =>
    simp only [stamping, hp, Phase.entering?, Option.map_eq_some_iff, Prod.mk.injEq, true_and] at hy
    obtain ⟨v, hv, rfl⟩ := hy
    have hholder := ((Coherent.of_reached ho hb).locked t).mpr (by rw [hp]; rfl)
    exact ⟨before, u, c, hpre, hb, hholder, hp, Request.eq_append hv, hcount, by rw [hcount, hclock]⟩
  | _ => simp only [stamping, hp, Phase.entering?, Option.map_none, reduceCtorEq] at hy

/-- The clock is read once for each append, with the lock; the sample at the k-th index has the
    k-th reading and the value of the k-th append to get the lock, and is what every view of
    the index shows; and if no reading is below the one before it, no stamp is below that
    of an earlier index. -/
theorem stamps_in_order (ho : (o.run memory clock now).2 = .opened s₀) (hr : s₀.run? moves = some s) :
    s.readings = (s₀.stampings moves).length ∧
    (∀ t, s.attempts t = valuesOf t (s₀.stampings moves)) ∧
    s₀.admissions moves = (s₀.stampings moves).map (fun p => (p.1, p.2.value)) ++ s.entering?.toList ∧
    (∀ (k t : Nat) (x : Sample α), (s₀.stampings moves)[k]? = some (t, x) →
      ∃ before u c, before ++ [.step t] <+: moves ∧ s₀.run? before = some u ∧ u.holder = some t ∧
        u.phase t = .entered c ∧ c.request = .append x.value ∧ u.readings = k ∧ x.stampMs = clock k u.now) ∧
    (∀ (k : Nat) (x : Sample α), (s₀.log moves)[k]? = some x →
      ∃ t, (s₀.stampings moves)[k]? = some (t, x) ∧ (s₀.admissions moves)[k]? = some (t, x.value)) ∧
    (∀ i, s.ring.oldest ≤ i → i ≤ s.ring.newest →
      ∃ (k : Nat) (x : Sample α), i = o.settings.start + k ∧ (s₀.log moves)[k]? = some x ∧ s.ring.element i = .ok x) ∧
    (∀ t r view i limit, r ∈ (s.thread t).replies → r.call.request = .read view i limit →
      r.answer.isFailure = false →
      ∃ (k : Nat) (x : Sample α), i = o.settings.start + k ∧ (s₀.log moves)[k]? = some x ∧
        r.answer = match view with
          | .value => .value x.value
          | .sample => .sample x
          | .stampMs => .stampMs x.stampMs
          | .stampS => .stampS (x.stampMs / 1000.0)) ∧
    (((s₀.stampings moves).map (·.2.stampMs)).IsChain (· ≤ ·) →
      ∀ i j x y, s.ring.oldest ≤ i → i < j → j ≤ s.ring.newest → s.ring.element i = .ok x →
        s.ring.element j = .ok y → x.stampMs ≤ y.stampMs) := by
  have hclocked := clocked_of_reached ho hr
  have hc := Coherent.of_reached ho hr
  have hretained : ∀ i, s.ring.oldest ≤ i → i ≤ s.ring.newest →
      ∃ (k : Nat) (x : Sample α), i = o.settings.start + k ∧ (s₀.log moves)[k]? = some x ∧
        s.ring.element i = .ok x := by
    intro i ho' hn
    obtain ⟨k, x, hk, hx, he⟩ := hc.window.element ho' hn
    rw [settings_of_reached ho hr] at hk
    exact ⟨k, x, hk, hx, he⟩
  refine ⟨hclocked.count, hclocked.attempts, hclocked.admitted, ?_, ?_, hretained, ?_, ?_⟩
  · intro k t x hk
    exact stamping_of_reached ho hr hk
  · intro k x hx
    exact hclocked.stamping_of_log hx
  · intro t r view i limit hmem hq ha
    obtain ⟨before, u, u', k, x, ⟨hpre, hb, -⟩, hk, hx, -, hax⟩ := sample_of_read ho hr hmem hq ha
    refine ⟨k, x, hk, log_getElem? ((List.prefix_append _ _).trans hpre) hb hx, ?_⟩
    cases view <;> exact hax
  · intro hchain i j x y hoi hij hjn hx hy
    obtain ⟨k, x', rfl, hk, hx'⟩ := hretained i hoi (by omega)
    obtain ⟨l, y', rfl, hl, hy'⟩ := hretained j (by omega) hjn
    obtain rfl : x' = x := Except.ok.inj (hx'.symm.trans hx)
    obtain rfl : y' = y := Except.ok.inj (hy'.symm.trans hy)
    obtain ⟨t, ht, -⟩ := hclocked.stamping_of_log hk
    obtain ⟨t', ht', -⟩ := hclocked.stamping_of_log hl
    obtain ⟨hk', ht⟩ := List.getElem?_eq_some_iff.mp ht
    obtain ⟨hl', ht'⟩ := List.getElem?_eq_some_iff.mp ht'
    have hsorted := List.pairwise_iff_getElem.mp (List.isChain_iff_pairwise.mp hchain) k l
      (by rw [List.length_map]; exact hk') (by rw [List.length_map]; exact hl') (by omega)
    simp only [List.getElem_map, ht, ht'] at hsorted
    exact hsorted

/-- Two writers race, and the one that calls first gets the lock last; a third append laps the
    first, and a reader asks for the second. -/
def race : List (Move Nat) :=
  [[.call 0 (.append 1), .call 1 (.append 2)], List.replicate 5 (.step 1), List.replicate 5 (.step 0), appendAlone 1 3,
    [.call 2 (.read .sample 0 .forever)], List.replicate 3 (.step 2)].flatten

/-- The two samples that are left have the second and the third reading, in order, each with the
    value of the append that took it. -/
theorem stamps_in_order_raced :
    ∃ (s : System Nat) (x y : Sample Nat), timed.run? race = some s ∧
      s.readings = 3 ∧ s.attempts 0 = [1] ∧ s.attempts 1 = [2, 3] ∧
      s.ring.element 0 = .ok x ∧ s.ring.element 1 = .ok y ∧ x.value = 1 ∧ y.value = 3 ∧ x.stampMs ≤ y.stampMs ∧
      (s.thread 2).replies.map (·.answer) = [.sample x] := by
  have hrun : (timed.run? race).any
      (fun s => decide (s.ring.oldest = 0 ∧ s.ring.newest = 1) &&
        decide ((s.thread 2).replies.map (fun r => (r.call.request.read?, r.answer.isFailure)) =
          [(some (.sample, 0, .forever), false)])) = true := by
    decide +kernel
  obtain ⟨s, hr, hs⟩ := exists_run hrun
  simp only [Bool.and_eq_true, decide_eq_true_eq] at hs
  obtain ⟨⟨ho, hn⟩, hreplies⟩ := hs
  obtain ⟨r, hr2, hread⟩ := List.map_eq_singleton_iff.mp hreplies
  simp only [Prod.mk.injEq] at hread
  obtain ⟨hcount, hattempts, -, -, -, hretained, hviews, hsorted⟩ := stamps_in_order timed_opened hr
  obtain ⟨k, x, hk, hx, he⟩ := hretained 0 (by omega) (by omega)
  obtain ⟨l, y, hl, hy, he'⟩ := hretained 1 (by omega) (by omega)
  obtain ⟨k', x', hk', hx', ha⟩ := hviews 2 r .sample 0 .forever (by rw [hr2]; exact List.mem_cons_self)
    (Request.eq_read hread.1) hread.2
  obtain rfl : k = 1 := by change (0 : Int) = -1 + k at hk; omega
  obtain rfl : k' = 1 := by change (0 : Int) = -1 + k' at hk'; omega
  obtain rfl : l = 2 := by change (1 : Int) = -1 + l at hl; omega
  obtain rfl : x' = x := Option.some.inj (hx'.symm.trans hx)
  have hvalue : ∀ {j : Nat} {z : Sample Nat} {v : Nat}, (timed.log race)[j]? = some z →
      ((timed.log race)[j]?.map (·.value)) = some v → z.value = v := by
    intro j z v hz hv
    rw [hz] at hv
    exact Option.some.inj hv
  refine ⟨s, x', y, hr, hcount.trans (by decide +kernel), (hattempts 0).trans (by decide +kernel),
    (hattempts 1).trans (by decide +kernel), he, he', hvalue hx (by decide +kernel), hvalue hy (by decide +kernel),
    ?_, ?_⟩
  · exact hsorted (by decide +kernel) 0 1 x' y (by omega) (by omega) (by omega) he he'
  · rw [hr2, List.map_singleton, ha]

end System

end Chronicle
