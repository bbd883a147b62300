/-
  Chronicle.Proofs.Json.Units — text as a row of units.

  A character is one unit outside the surrogates, or a leading and a trailing one
  (`ofChar_cases`). So the units of a text are paired (`paired_ofChars`), and they tell which
  text it is (`ofChars_inj`).
-/

import Chronicle.Json

namespace Chronicle.Utf16

theorem isLead_iff {u : UInt16} : isLead u = true ↔ 0xD800 ≤ u.toNat ∧ u.toNat < 0xDC00 := by
  simp [isLead, UInt16.le_iff_toNat_le, UInt16.lt_iff_toNat_lt]

theorem isTrail_iff {u : UInt16} : isTrail u = true ↔ 0xDC00 ≤ u.toNat ∧ u.toNat < 0xE000 := by
  simp [isTrail, UInt16.le_iff_toNat_le, UInt16.lt_iff_toNat_lt]

/-- The units of a character: one that is no half of a pair, or both halves. -/
inductive IsChar (c : Char) : Utf16 → Prop where
  | one {u : UInt16} : isLead u = false → isTrail u = false → u.toNat = c.val.toNat → IsChar c [u]
  | two {u v : UInt16} : isLead u = true → isTrail v = true →
      (u.toNat - 0xD800) * 0x400 + (v.toNat - 0xDC00) + 0x10000 = c.val.toNat → IsChar c [u, v]

theorem isChar_ofChar (c : Char) : IsChar c (ofChar c) := by
  have hvalid : c.val.toNat < 0xD800 ∨ 0xDFFF < c.val.toNat ∧ c.val.toNat < 0x110000 := c.valid
  unfold ofChar
  by_cases h : c.val < 0x10000
  · have hlt : c.val.toNat < 65536 := UInt32.lt_iff_toNat_lt.mp h
    have hu : c.val.toUInt16.toNat = c.val.toNat := by
      rw [UInt32.toNat_toUInt16]
      omega
    rw [if_pos h]
    refine .one ?_ ?_ hu
    · rw [← Bool.not_eq_true, isLead_iff, hu]
      omega
    · rw [← Bool.not_eq_true, isTrail_iff, hu]
      omega
  · have hge : 65536 ≤ c.val.toNat := Nat.not_lt.mp fun hlt => h (UInt32.lt_iff_toNat_lt.mpr hlt)
    have hv : (c.val - 0x10000).toNat = c.val.toNat - 65536 :=
      UInt32.toNat_sub_of_le _ _ (UInt32.le_iff_toNat_le.mpr hge)
    have hlead : (0xD800 + ((c.val - 0x10000) / 0x400).toUInt16).toNat = 0xD800 + (c.val.toNat - 65536) / 1024 := by
      rw [UInt16.toNat_add, UInt32.toNat_toUInt16, UInt32.toNat_div, hv]
      show (55296 + (c.val.toNat - 65536) / 1024 % 65536) % 65536 = _
      omega
    have htrail : (0xDC00 + ((c.val - 0x10000) % 0x400).toUInt16).toNat = 0xDC00 + (c.val.toNat - 65536) % 1024 := by
      rw [UInt16.toNat_add, UInt32.toNat_toUInt16, UInt32.toNat_mod, hv]
      show (56320 + (c.val.toNat - 65536) % 1024 % 65536) % 65536 = _
      omega
    rw [if_neg h]
    refine .two ?_ ?_ ?_
    · rw [isLead_iff, hlead]
      omega
    · rw [isTrail_iff, htrail]
      omega
    · rw [hlead, htrail]
      omega

theorem ofChars_cons (c : Char) (cs : List Char) : ofChars (c :: cs) = ofChar c ++ ofChars cs := List.flatMap_cons

/-- Text never has half a pair. -/
theorem paired_ofChars (cs : List Char) : paired (ofChars cs) = true := by
  induction cs with
  | nil => rfl
  | cons c cs ih =>
    rw [ofChars_cons]
    have hc := isChar_ofChar c
    generalize ofChar c = us at hc
    cases hc with
    | one hlead htrail _ =>
      cases hrest : ofChars cs with
      | nil => simp [paired, hlead, htrail]
      | cons v rest =>
        rw [hrest] at ih
        simp [paired, hlead, htrail, ih]
    | two hlead htrail _ => simp [paired, hlead, htrail, ih]

/-- The units of a text tell which text it is. -/
theorem ofChars_inj {cs ds : List Char} (h : ofChars cs = ofChars ds) : cs = ds := by
  have hne : ∀ (c : Char) (cs : List Char), ofChars (c :: cs) ≠ [] := by
    intro c cs e
    have hc := isChar_ofChar c
    rw [(List.append_eq_nil_iff.mp ((ofChars_cons c cs).symm.trans e)).1] at hc
    cases hc
  induction cs generalizing ds with
  | nil =>
    cases ds with
    | nil => rfl
    | cons d ds => exact absurd h.symm (hne d ds)
  | cons c cs ih =>
    cases ds with
    | nil => exact absurd h (hne c cs)
    | cons d ds =>
      rw [ofChars_cons, ofChars_cons] at h
      have hc := isChar_ofChar c
      have hd := isChar_ofChar d
      generalize ofChar c = us at hc h
      generalize ofChar d = vs at hd h
      -- the first unit tells whether there is a second one
      cases hc with
      | one hlead _ hval =>
        cases hd with
        | one _ _ hval' =>
          obtain ⟨rfl, hrest⟩ := List.cons.inj h
          rw [ih hrest, Char.ext (UInt32.toNat_inj.mp (hval.symm.trans hval'))]
        | two hlead' _ _ =>
          obtain ⟨rfl, -⟩ := List.cons.inj h
          rw [hlead] at hlead'
          cases hlead'
      | two hlead _ hval =>
        cases hd with
        | one hlead' _ _ =>
          obtain ⟨rfl, -⟩ := List.cons.inj h
          rw [hlead] at hlead'
          cases hlead'
        | two _ _ hval' =>
          simp only [List.cons_append, List.nil_append, List.cons.injEq] at h
          obtain ⟨rfl, rfl, hrest⟩ := h
          rw [ih hrest, Char.ext (UInt32.toNat_inj.mp (hval.symm.trans hval'))]

end Chronicle.Utf16
