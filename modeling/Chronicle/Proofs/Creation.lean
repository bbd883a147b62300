/-
  Chronicle.Proofs.Creation — what the report of a creation says.

  Settings are checked first, then the creation is reported, then the slots are allocated. So
  nothing is reported of settings that describe no series, and one report, with their capacity
  and first index, is made of all others. A report that means a series (`Truthful`) would take a
  series to follow. One does unless the allocation fails: it panics where the slots are more than
  an object can have, and ends the process where there is no room for them. A report of such a
  capacity is of a series that never is.

  Proved: `created_before_room`.
-/

import Chronicle.Proofs.System.Coherence

namespace Chronicle

variable {α : Type}

namespace Opening

/-- What was reported is the creation of the series, if there is one, and nothing if there is none. -/
def Truthful (settings : Settings) : List Event × Opened α → Prop
  | (events, .opened _) => events = [.created settings.capacity.toNat settings.start]
  | (events, .refused _) | (events, .panicked _) | (events, .aborted) => events = []

variable {o : Opening} {settings : Settings} {memory : Memory} {clock : Clock} {now : Nat}

/-- Settings that describe no series are refused, or a panic, before anything is reported. -/
theorem run_of_fault {e : SettingsFault} (h : o.settings.fault? = some e) :
    o.run (α := α) memory clock now = ([], .refused e) ∨
      o.run (α := α) memory clock now = ([], .panicked .zeroCapacity) := by
  cases o with
  | insisting n =>
    by_cases hn : n = 0
    · exact .inr (by simp only [run, hn, if_true])
    · have hsound : (Opening.insisting n).settings.fault? = none := fault?_of_insisting hn
      rw [hsound] at h
      cases h
  | ofCapacity n | ofSettings settings => exact .inl (by simp only [run, h])

/-- The creation of any others is reported, and what is left to do is to allocate the slots. -/
theorem run_of_sound (h : o.settings.fault? = none) :
    o.run (α := α) memory clock now = build o.settings memory clock now := by
  cases o with
  | insisting n =>
    have hn : n ≠ 0 := (Settings.fault?_eq_none_iff.mp h).1
    simp only [run, hn, if_false]
  | ofCapacity n | ofSettings settings => simp only [run, h]

/-! ## The allocation -/

theorem build_of_fits (clock : Clock) (now : Nat) (h : settings.fault? = none)
    (hfits : settings.capacity.toNat * memory.slotBytes ≤ Memory.limit ∧
      settings.capacity.toNat * memory.slotBytes ≤ memory.room) :
    ∃ s : System α,
      build settings memory clock now = ([.created settings.capacity.toNat settings.start], .opened s) := by
  obtain ⟨-, -, hleast⟩ := Settings.fault?_eq_none_iff.mp h
  have hge : -2 ^ 63 ≤ settings.start := settings.startIndex.le_toInt
  have hle : settings.start < 2 ^ 63 := settings.startIndex.toInt_lt
  have hbefore : Index.InRange (settings.start - 1) := by
    unfold Index.InRange Index.least Index.greatest at *
    omega
  obtain ⟨ring, hring⟩ : ∃ ring : Ring (Sample α),
      Ring.empty? memory settings.capacity.toNat settings.start = .ok (some ring) :=
    ⟨_, Ring.empty?_eq_some_iff.mpr ⟨hfits, hbefore, rfl⟩⟩
  exact ⟨.initial settings clock ring now, by simp only [build, hring]⟩

theorem build_of_large (h : Memory.limit < settings.capacity.toNat * memory.slotBytes) :
    build (α := α) settings memory clock now =
      ([.created settings.capacity.toNat settings.start], .panicked .capacityOverflow) := by
  simp only [build, Ring.empty?_of_large h]

theorem build_of_short (h : settings.capacity.toNat * memory.slotBytes ≤ Memory.limit)
    (hroom : memory.room < settings.capacity.toNat * memory.slotBytes) :
    build (α := α) settings memory clock now =
      ([.created settings.capacity.toNat settings.start], .aborted) := by
  simp only [build, Ring.empty?_of_short h hroom]

/-- The creation of a series is reported before its slots are allocated. It is reported exactly if
    the settings describe a series, once and with their capacity and first index. A series comes of
    it exactly if an object can have the bytes of all slots and there is room for them; otherwise it
    ends in a panic or with the process, and these are the cases where the report is not the truth. -/
theorem created_before_room (o : Opening) (memory : Memory) (clock : Clock) (now : Nat) :
    (o.run (α := α) memory clock now).1 =
      (if o.settings.fault? = none then [.created o.settings.capacity.toNat o.settings.start] else []) ∧
    ((∃ s : System α, (o.run memory clock now).2 = .opened s) ↔
      o.settings.fault? = none ∧ o.settings.capacity.toNat * memory.slotBytes ≤ 9223372036854775807 ∧
        o.settings.capacity.toNat * memory.slotBytes ≤ memory.room) ∧
    ((o.run (α := α) memory clock now).2 = .panicked .capacityOverflow ↔
      o.settings.fault? = none ∧ 9223372036854775807 < o.settings.capacity.toNat * memory.slotBytes) ∧
    ((o.run (α := α) memory clock now).2 = .aborted ↔
      o.settings.fault? = none ∧ o.settings.capacity.toNat * memory.slotBytes ≤ 9223372036854775807 ∧
        memory.room < o.settings.capacity.toNat * memory.slotBytes) ∧
    (Truthful o.settings (o.run (α := α) memory clock now) ↔
      (o.run (α := α) memory clock now).2 ≠ .panicked .capacityOverflow ∧
        (o.run (α := α) memory clock now).2 ≠ .aborted) := by
  rw [show 9223372036854775807 = Memory.limit from rfl]
  cases hfault : o.settings.fault? with
  | some e =>
    rcases run_of_fault (α := α) hfault with hrun | hrun
    · rw [hrun]
      simp [Truthful]
    · rw [hrun]
      simp [Truthful]
  | none =>
    rw [run_of_sound hfault]
    rcases Nat.lt_or_ge Memory.limit (o.settings.capacity.toNat * memory.slotBytes) with hlarge | hle
    · rw [build_of_large hlarge]
      simp [Truthful, hlarge, Nat.not_le.mpr hlarge]
    rcases Nat.lt_or_ge memory.room (o.settings.capacity.toNat * memory.slotBytes) with hshort | hroom
    · rw [build_of_short hle hshort]
      simp [Truthful, hle, hshort]
    · obtain ⟨s, hbuild⟩ := build_of_fits (α := α) clock now hfault ⟨hle, hroom⟩
      rw [hbuild]
      simp [Truthful, hle, hroom]

/-- A creation is reported that does not take place, though there is all the memory there can be. -/
theorem created_without_series :
    (Opening.ofCapacity 4611686018427387904).run (α := Nat) .ample (.monotonic 0) 0 =
        ([.created 4611686018427387904 0], .panicked .capacityOverflow) ∧
      ¬ ∀ (o : Opening) (memory : Memory) (clock : Clock) (now : Nat),
        Truthful o.settings (o.run (α := Nat) memory clock now) := by
  have hrun : (Opening.ofCapacity 4611686018427387904).run (α := Nat) .ample (.monotonic 0) 0 =
      ([.created 4611686018427387904 0], .panicked .capacityOverflow) := by
    rw [run_of_sound (by decide), build_of_large (by decide)]
    rfl
  refine ⟨hrun, fun h => ?_⟩
  have htruth := h (.ofCapacity 4611686018427387904) .ample (.monotonic 0) 0
  rw [hrun] at htruth
  cases htruth

end Opening

end Chronicle
