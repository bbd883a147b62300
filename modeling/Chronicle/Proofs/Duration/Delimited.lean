/-
  Chronicle.Proofs.Duration.Delimited — a duration is told by its text.

  The text is a number and a unit, and the number counts nanoseconds once its point is moved
  by as many places as the unit has (`exists_reading`). The number ends where the unit begins,
  and no two units begin with the same character. So the text tells the unit, the unit the
  places, and both together the nanoseconds.

  Proved: `chars_append_inj`, whatever comes after the text.
-/

import Chronicle.Duration.Text
import Chronicle.Proofs.Decimal.Delimited

namespace Chronicle.Duration

open Decimal (isNumeric run_append_inj ofNat_fraction_inj ofNat_fraction_isNumeric)

theorem toNanos_inj {d e : Duration} (h : d.toNanos = e.toNanos) : d = e := by
  obtain ⟨s, n⟩ := d
  obtain ⟨t, m⟩ := e
  simp only [toNanos, second] at h
  have hsecs : s.toNat = t.toNat := by omega
  have hnanos : n.val = m.val := by omega
  rw [UInt64.toNat_inj.mp hsecs, Fin.ext hnanos]

/-- The units, each with the places behind its point that end in a nanosecond. -/
inductive Scale : Nat → List Char → Prop where
  | second : Scale 9 ['s']
  | milli : Scale 6 ['m', 's']
  | micro : Scale 3 ['µ', 's']
  | nano : Scale 0 ['n', 's']

theorem Scale.append_inj {k l : Nat} {us vs cs ds : List Char} (hu : Scale k us) (hv : Scale l vs)
    (h : us ++ cs = vs ++ ds) : k = l ∧ cs = ds := by
  cases hu <;> cases hv <;> first | exact ⟨rfl, List.append_cancel_left h⟩ | cases h

theorem Scale.head {k : Nat} {us cs : List Char} (hu : Scale k us) : ∀ c ∈ (us ++ cs).head?, ¬ isNumeric c := by
  cases hu <;> rintro c ⟨⟩ <;> decide

/-- What a duration is written with adds up to its nanoseconds, in every unit. -/
theorem exists_reading (d : Duration) : ∃ whole width part unit, d.reading = (whole, width, part, unit) ∧
    Scale width unit ∧ part < Nat.pow 10 width ∧ d.toNanos = whole * Nat.pow 10 width + part := by
  unfold reading
  by_cases hsecs : d.secs ≠ 0
  · rw [if_pos hsecs]
    exact ⟨_, _, _, _, rfl, .second, d.nanos.isLt, rfl⟩
  · have hnanos : d.toNanos = d.nanos.val := by
      rw [toNanos, Decidable.of_not_not hsecs]
      exact Nat.zero_add _
    rw [if_neg hsecs, hnanos]
    by_cases hmilli : 1000000 ≤ d.nanos.val
    · rw [if_pos hmilli]
      exact ⟨_, _, _, _, rfl, .milli, Nat.mod_lt _ (by decide), (Nat.div_add_mod' _ _).symm⟩
    · rw [if_neg hmilli]
      by_cases hmicro : 1000 ≤ d.nanos.val
      · rw [if_pos hmicro]
        exact ⟨_, _, _, _, rfl, .micro, Nat.mod_lt _ (by decide), (Nat.div_add_mod' _ _).symm⟩
      · rw [if_neg hmicro]
        exact ⟨_, _, _, _, rfl, .nano, by decide, (Nat.mul_one _).symm⟩

/-- The text of a duration tells which it is, and where the text ends. -/
theorem chars_append_inj {d e : Duration} {cs ds : List Char} (h : d.chars ++ cs = e.chars ++ ds) : d = e ∧ cs = ds := by
  obtain ⟨w, k, m, us, hd, hu, hm, hdn⟩ := d.exists_reading
  obtain ⟨v, l, n, vs, he, hv, hn, hen⟩ := e.exists_reading
  simp only [chars, hd, he] at h
  rw [List.append_assoc _ us, List.append_assoc _ vs] at h
  obtain ⟨hnumber, hunit⟩ :=
    run_append_inj (ofNat_fraction_isNumeric hm) (ofNat_fraction_isNumeric hn) hu.head hv.head h
  -- only now are the places known to be as many on both sides
  obtain ⟨rfl, hrest⟩ := hu.append_inj hv hunit
  obtain ⟨rfl, rfl⟩ := ofNat_fraction_inj hm hn hnumber
  exact ⟨toNanos_inj (hdn.trans hen.symm), hrest⟩

end Chronicle.Duration
