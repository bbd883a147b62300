/-
  Chronicle.Proofs.Duration.Decoding — which JSON values are read as durations.

  A whole number has one literal (`Json.whole`), and a duration has three forms: an object of
  its two parts, in either order, or the list of them (`Duration.Written`). Reading an object
  fills the two places of a draft, each from one member (`Draft.Takes`); so a third member, a
  repeated one or one of another name leaves no duration.

  Proved: a value is read as a duration exactly if it is one of its forms, for parts that add up
  to it (`ofJson?_eq_some_iff`).
-/

import Chronicle.Settings.Json

namespace Chronicle

/-! ## Whole numbers -/

theorem Numeral.toInt?_ofInt (i : Int) : (ofInt i).toInt? = some i := by
  unfold toInt? ofInt
  by_cases hneg : i < 0
  · simp only [hneg, decide_true, and_self, if_true]
    rw [if_neg (by omega)]
    congr 1
    omega
  · simp only [hneg, decide_false, and_self, if_true, Bool.false_eq_true, if_false]
    congr 1
    omega

theorem Numeral.eq_ofInt_of_toInt? {n : Numeral} {i : Int} (h : n.toInt? = some i) : n = .ofInt i := by
  obtain ⟨negative, whole, fraction, exponent⟩ := n
  unfold toInt? at h
  split at h
  · rename_i hplain
    obtain ⟨rfl, rfl⟩ : fraction = [] ∧ exponent = none := hplain
    cases negative with
    | false =>
      obtain rfl : (whole : Int) = i := Option.some.inj h
      simp [ofInt]
    | true =>
      simp only [if_true] at h
      split at h
      · cases h
      · obtain rfl : -(whole : Int) = i := Option.some.inj h
        have hneg : 0 < whole := by omega
        simp [ofInt, hneg]
  · cases h

namespace Json

/-- A whole number as its literal: without point and power of ten, and no negative zero. -/
def whole (i : Int) : Json := .number (.ofInt i)

theorem natBelow?_eq_some_iff {v : Json} {bound k : Nat} : v.natBelow? bound = some k ↔ v = whole k ∧ k < bound := by
  constructor
  · intro h
    cases v with
    | number n =>
      simp only [natBelow?] at h
      split at h
      · rename_i j hj
        split at h
        · rename_i hlt
          cases h
          exact ⟨congrArg Json.number (Numeral.eq_ofInt_of_toInt? hj), hlt⟩
        · cases h
      · cases h
    | _ => cases h
  · rintro ⟨rfl, hlt⟩
    simp [natBelow?, whole, Numeral.toInt?_ofInt, hlt]

/-- Numbers below the size of a type of words are those words. -/
theorem natBelow?_eq_some_iff_word {word : Type} {ofNat : Nat → word} {toNat : word → Nat} {size : Nat}
    (hof : ∀ {k}, k < size → toNat (ofNat k) = k) (hlt : ∀ n, toNat n < size) {v : Json} {k : Nat} :
    v.natBelow? size = some k ↔ ∃ n, v = whole (toNat n) ∧ k = toNat n := by
  rw [natBelow?_eq_some_iff]
  constructor
  · intro h
    obtain ⟨rfl, hk⟩ := h
    exact ⟨ofNat k, by rw [hof hk], (hof hk).symm⟩
  · intro h
    obtain ⟨n, rfl, rfl⟩ := h
    exact ⟨rfl, hlt n⟩

theorem natBelow?_word64 {v : Json} {k : Nat} :
    v.natBelow? UInt64.size = some k ↔ ∃ n : UInt64, v = whole n.toNat ∧ k = n.toNat :=
  natBelow?_eq_some_iff_word UInt64.toNat_ofNat_of_lt' UInt64.toNat_lt

theorem natBelow?_word32 {v : Json} {k : Nat} :
    v.natBelow? UInt32.size = some k ↔ ∃ n : UInt32, v = whole n.toNat ∧ k = n.toNat :=
  natBelow?_eq_some_iff_word UInt32.toNat_ofNat_of_lt' UInt32.toNat_lt

end Json

/-! ## Durations -/

namespace Duration

/-- The ways to write so many seconds and nanoseconds. -/
inductive Written (secs : UInt64) (nanos : UInt32) : Json → Prop where
  | secsFirst : Written secs nanos
      (.object [(Json.fieldName "secs", .whole secs.toNat), (Json.fieldName "nanos", .whole nanos.toNat)])
  | nanosFirst : Written secs nanos
      (.object [(Json.fieldName "nanos", .whole nanos.toNat), (Json.fieldName "secs", .whole secs.toNat)])
  | list : Written secs nanos (.list [.whole secs.toNat, .whole nanos.toNat])

/-- That a JSON value says how long a duration is. Whole seconds among the nanoseconds count as
    seconds. -/
def SaidBy (d : Duration) (v : Json) : Prop :=
  ∃ secs nanos, Written secs nanos v ∧ d.secs.toNat = secs.toNat + nanos.toNat / second ∧
    d.nanos.val = nanos.toNat % second

theorem ofParts?_eq_some_iff {secs nanos : Nat} {d : Duration} :
    ofParts? secs nanos = some d ↔ d.secs.toNat = secs + nanos / second ∧ d.nanos.val = nanos % second := by
  have hlt := d.secs.toNat_lt
  unfold ofParts?
  by_cases hfits : secs + nanos / second < UInt64.size
  · have hsecs : (UInt64.ofNat (secs + nanos / second)).toNat = secs + nanos / second :=
      UInt64.toNat_ofNat_of_lt' hfits
    rw [if_pos hfits, Option.some.injEq]
    constructor
    · rintro rfl
      exact ⟨hsecs, rfl⟩
    · intro h
      obtain ⟨s, n⟩ := d
      congr 1
      · exact UInt64.toNat_inj.mp (hsecs.trans h.1.symm)
      · exact Fin.ext h.2.symm
  · rw [if_neg hfits]
    constructor
    · intro h
      cases h
    · intro h
      exact absurd (h.1 ▸ hlt) hfits

/-- What reading one member does to a draft. -/
inductive Draft.Takes (d : Draft) : Utf16 × Json → Draft → Prop where
  | secs (n : UInt64) : d.secs = none →
      Takes d (Json.fieldName "secs", .whole n.toNat) { d with secs := some n.toNat }
  | nanos (n : UInt32) : d.nanos = none →
      Takes d (Json.fieldName "nanos", .whole n.toNat) { d with nanos := some n.toNat }

theorem Draft.takes_of_take {d e : Draft} {m : Utf16 × Json} (h : d.take m = some e) : d.Takes m e := by
  obtain ⟨name, v⟩ := m
  simp only [take] at h
  split at h
  · rename_i hname
    split at h
    · cases h
    · rename_i hnone
      obtain ⟨k, hk, rfl⟩ := Option.map_eq_some_iff.mp h
      obtain ⟨n, rfl, rfl⟩ := Json.natBelow?_word64.mp hk
      rw [hname]
      exact .secs n (Option.not_isSome_iff_eq_none.mp hnone)
  · split at h
    · rename_i hname
      split at h
      · cases h
      · rename_i hnone
        obtain ⟨k, hk, rfl⟩ := Option.map_eq_some_iff.mp h
        obtain ⟨n, rfl, rfl⟩ := Json.natBelow?_word32.mp hk
        rw [hname]
        exact .nanos n (Option.not_isSome_iff_eq_none.mp hnone)
    · cases h

theorem Draft.Takes.take {d e : Draft} {m : Utf16 × Json} (h : d.Takes m e) : d.take m = some e := by
  have hne : Json.fieldName "nanos" ≠ Json.fieldName "secs" := by decide
  cases h with
  | secs n hnone => simp [Draft.take, hnone, Json.natBelow?_word64.mpr ⟨n, rfl, rfl⟩]
  | nanos n hnone => simp [Draft.take, hne, hnone, Json.natBelow?_word32.mpr ⟨n, rfl, rfl⟩]

/-- A draft of both parts was read from two members, one for each part, in either order. -/
theorem written_of_foldlM {members : List (Utf16 × Json)} {d : Draft} {s n : Nat}
    (h : members.foldlM Draft.take {} = some d) (hs : d.secs = some s) (hn : d.nanos = some n) :
    ∃ secs nanos, Written secs nanos (.object members) ∧ s = secs.toNat ∧ n = nanos.toNat := by
  have cons : ∀ {d e : Draft} {m : Utf16 × Json} {ms : List (Utf16 × Json)},
      (m :: ms).foldlM Draft.take d = some e → ∃ d', d.Takes m d' ∧ ms.foldlM Draft.take d' = some e := by
    intro d e m ms h
    rw [List.foldlM_cons, Option.bind_eq_bind, Option.bind_eq_some_iff] at h
    obtain ⟨d', hm, hms⟩ := h
    exact ⟨d', Draft.takes_of_take hm, hms⟩
  match members with
  | [] =>
    cases h
    cases hs
  | [m] =>
    obtain ⟨d', hm, hend⟩ := cons h
    cases hend
    cases hm with
    | secs => cases hn
    | nanos => cases hs
  | m :: m' :: ms =>
    obtain ⟨d₁, hm, h⟩ := cons h
    obtain ⟨d₂, hm', h⟩ := cons h
    cases hm with
    | secs a =>
      cases hm' with
      | secs b hnone => cases hnone
      | nanos b =>
        match ms with
        | [] =>
          cases h
          exact ⟨a, b, .secsFirst, (Option.some.inj hs).symm, (Option.some.inj hn).symm⟩
        | m :: ms =>
          obtain ⟨d₃, hm, -⟩ := cons h
          cases hm with
          | secs _ hnone | nanos _ hnone => cases hnone
    | nanos b =>
      cases hm' with
      | nanos a hnone => cases hnone
      | secs a =>
        match ms with
        | [] =>
          cases h
          exact ⟨a, b, .nanosFirst, (Option.some.inj hs).symm, (Option.some.inj hn).symm⟩
        | m :: ms =>
          obtain ⟨d₃, hm, -⟩ := cons h
          cases hm with
          | secs _ hnone | nanos _ hnone => cases hnone

theorem ofJson?_eq_some_iff {v : Json} {d : Duration} : ofJson? v = some d ↔ d.SaidBy v := by
  constructor
  · intro h
    cases v with
    | object members =>
      simp only [ofJson?, bind, Option.bind_eq_some_iff] at h
      obtain ⟨e, hread, s, hs, n, hn, hparts⟩ := h
      obtain ⟨secs, nanos, hwritten, rfl, rfl⟩ := written_of_foldlM hread hs hn
      exact ⟨secs, nanos, hwritten, ofParts?_eq_some_iff.mp hparts⟩
    | list items =>
      match items with
      | [s, n] =>
        simp only [ofJson?, bind, Option.bind_eq_some_iff] at h
        obtain ⟨a, ha, b, hb, hparts⟩ := h
        obtain ⟨secs, rfl, rfl⟩ := Json.natBelow?_word64.mp ha
        obtain ⟨nanos, rfl, rfl⟩ := Json.natBelow?_word32.mp hb
        exact ⟨secs, nanos, .list, ofParts?_eq_some_iff.mp hparts⟩
      | [] | [_] | _ :: _ :: _ :: _ => cases h
    | _ => cases h
  · rintro ⟨secs, nanos, hwritten, hparts⟩
    have hd := ofParts?_eq_some_iff.mpr hparts
    cases hwritten with
    | secsFirst =>
      simp [ofJson?, (Draft.Takes.secs (d := {}) secs rfl).take,
        (Draft.Takes.nanos (d := { secs := some secs.toNat }) nanos rfl).take, hd]
    | nanosFirst =>
      simp [ofJson?, (Draft.Takes.nanos (d := {}) nanos rfl).take,
        (Draft.Takes.secs (d := { nanos := some nanos.toNat }) secs rfl).take, hd]
    | list =>
      simp [ofJson?, Json.natBelow?_word64.mpr ⟨secs, rfl, rfl⟩, Json.natBelow?_word32.mpr ⟨nanos, rfl, rfl⟩, hd]

end Duration

end Chronicle
