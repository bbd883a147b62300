/-
  Chronicle.Proofs.Decimal.Delimited — where a number ends in a text.

  A run of characters of one kind ends at the first character of another kind
  (`run_append_inj`). So a whole number tells itself apart from what comes after it, as long as
  that does not go on with a digit (`ofNat_append_inj`, `ofInt_append_inj`). A fraction leaves
  out the zeros at its end, so its digits tell its value only together with the number of
  places they were taken from (`ofNat_fraction_inj`).
-/

import Chronicle.Decimal

namespace Chronicle.Decimal

/-! ## Runs -/

/-- Texts that are the same begin with the same run and go on the same way. -/
theorem run_append_inj {p : Char → Bool} {as bs cs ds : List Char} (has : ∀ c ∈ as, p c) (hbs : ∀ c ∈ bs, p c)
    (hcs : ∀ c ∈ cs.head?, ¬ p c) (hds : ∀ c ∈ ds.head?, ¬ p c) (h : as ++ cs = bs ++ ds) : as = bs ∧ cs = ds := by
  have hrun : ∀ {xs ys : List Char}, (∀ c ∈ xs, p c) → (∀ c ∈ ys.head?, ¬ p c) → (xs ++ ys).takeWhile p = xs := by
    intro xs ys hxs hys
    rw [List.takeWhile_append_of_pos hxs]
    cases ys with
    | nil => rw [List.takeWhile_nil, List.append_nil]
    | cons y ys => rw [List.takeWhile_cons_of_neg (hys y rfl), List.append_nil]
  have heq : as = bs := by rw [← hrun has hcs, h, hrun hbs hds]
  subst heq
  exact ⟨rfl, List.append_cancel_left h⟩

variable {cs ds : List Char}

/-! ## Digits -/

theorem digitChar_isDigit {n : Nat} (h : n < 10) : (Nat.digitChar n).isDigit := by
  rw [Nat.isDigit_digitChar]
  exact decide_eq_true h

theorem digitChar_inj {m n : Nat} (hm : m < 10) (hn : n < 10) (h : Nat.digitChar m = Nat.digitChar n) : m = n := by
  rw [← Nat.toNat_digitChar_sub_48_of_lt_ten hm, h, Nat.toNat_digitChar_sub_48_of_lt_ten hn]

/-- A digit is neither a sign, a point nor a letter. -/
theorem ne_of_isDigit {c d : Char} (h : c.isDigit) (hd : d.isDigit = false) : c ≠ d := by
  intro e
  rw [e, hd] at h
  cases h

/-! ## Whole numbers -/

/-- A number begins with a digit. -/
theorem exists_ofNat_eq_cons (n : Nat) : ∃ d es, ofNat n = d :: es ∧ d.isDigit := by
  obtain ⟨d, es, hd⟩ := List.exists_cons_of_ne_nil (ofNat_ne_nil n)
  exact ⟨d, es, hd, ofNat_isDigit (by rw [hd]; exact List.mem_cons_self)⟩

theorem ofNat_inj {m n : Nat} (h : ofNat m = ofNat n) : m = n := by
  rw [← Option.some.injEq, ← toNat?_ofNat, h, toNat?_ofNat]

theorem ofNat_append_inj {m n : Nat} (hcs : ∀ c ∈ cs.head?, ¬ c.isDigit) (hds : ∀ c ∈ ds.head?, ¬ c.isDigit)
    (h : ofNat m ++ cs = ofNat n ++ ds) : m = n ∧ cs = ds := by
  obtain ⟨hdigits, hrest⟩ := run_append_inj (fun _ => ofNat_isDigit) (fun _ => ofNat_isDigit) hcs hds h
  exact ⟨ofNat_inj hdigits, hrest⟩

theorem ofNat_append_ne_minus (n : Nat) : ofNat n ++ cs ≠ '-' :: ds := by
  intro h
  obtain ⟨d, es, hd, hdigit⟩ := exists_ofNat_eq_cons n
  rw [hd] at h
  exact ne_of_isDigit hdigit rfl (List.cons.inj h).1

theorem ofInt_append_inj {i j : Int} (hcs : ∀ c ∈ cs.head?, ¬ c.isDigit) (hds : ∀ c ∈ ds.head?, ¬ c.isDigit)
    (h : ofInt i ++ cs = ofInt j ++ ds) : i = j ∧ cs = ds := by
  unfold ofInt at h
  split at h <;> split at h
  · obtain ⟨habs, hrest⟩ := ofNat_append_inj hcs hds (List.cons.inj h).2
    exact ⟨by omega, hrest⟩
  · exact absurd h.symm (ofNat_append_ne_minus _)
  · exact absurd h (ofNat_append_ne_minus _)
  · obtain ⟨habs, hrest⟩ := ofNat_append_inj hcs hds h
    exact ⟨by omega, hrest⟩

theorem ofInt_inj {i j : Int} (h : ofInt i = ofInt j) : i = j := by
  have hend : ofInt i ++ [] = ofInt j ++ [] := by rw [h]
  exact (ofInt_append_inj (by simp) (by simp) hend).1

/-! ## Fractions -/

theorem lead_lt {k n : Nat} (h : n < Nat.pow 10 (k + 1)) : n / Nat.pow 10 k < 10 := Nat.div_lt_of_lt_mul h

theorem rest_lt (k n : Nat) : n % Nat.pow 10 k < Nat.pow 10 k := Nat.mod_lt _ (Nat.pow_pos (by decide))

theorem places_isDigit {k n : Nat} (h : n < Nat.pow 10 k) : ∀ c ∈ places k n, c.isDigit := by
  induction k generalizing n with
  | zero => nofun
  | succ k ih =>
    unfold places
    split
    · nofun
    · exact List.forall_mem_cons.mpr ⟨digitChar_isDigit (lead_lt h), ih (rest_lt k n)⟩

/-- The digits of a fraction tell its value, by induction on the places: the first digit is the
    quotient, the others are the digits of the remainder. -/
theorem places_inj {k m n : Nat} (hm : m < Nat.pow 10 k) (hn : n < Nat.pow 10 k) (h : places k m = places k n) :
    m = n := by
  induction k generalizing m n with
  | zero =>
    have hone : Nat.pow 10 0 = 1 := rfl
    omega
  | succ k ih =>
    unfold places at h
    split at h <;> split at h
    · omega
    · cases h
    · cases h
    · obtain ⟨hlead, hrest⟩ := List.cons.inj h
      have hdiv : m / Nat.pow 10 k = n / Nat.pow 10 k := digitChar_inj (lead_lt hm) (lead_lt hn) hlead
      have hmod : m % Nat.pow 10 k = n % Nat.pow 10 k := ih (rest_lt k m) (rest_lt k n) hrest
      calc m = Nat.pow 10 k * (m / Nat.pow 10 k) + m % Nat.pow 10 k := (Nat.div_add_mod m _).symm
        _ = Nat.pow 10 k * (n / Nat.pow 10 k) + n % Nat.pow 10 k := by rw [hdiv, hmod]
        _ = n := Nat.div_add_mod n _

/-- A character of a number with or without a fraction. -/
def isNumeric (c : Char) : Bool := c.isDigit || c = '.'

theorem ofNat_fraction_isNumeric {k w n : Nat} (h : n < Nat.pow 10 k) :
    ∀ c ∈ ofNat w ++ fraction k n, isNumeric c := by
  have digits : ∀ c : Char, c.isDigit → isNumeric c := by
    intro c hc
    rw [isNumeric, hc, Bool.true_or]
  intro c hc
  rcases List.mem_append.mp hc with hc | hc
  · exact digits c (ofNat_isDigit hc)
  · unfold fraction at hc
    split at hc
    · cases hc
    · rcases List.mem_cons.mp hc with rfl | hc
      · rfl
      · exact digits c (places_isDigit h c hc)

theorem fraction_head {k n : Nat} : ∀ c ∈ (fraction k n).head?, ¬ c.isDigit := by
  unfold fraction
  split
  · nofun
  · rintro c ⟨⟩
    decide

theorem fraction_inj {k m n : Nat} (hm : m < Nat.pow 10 k) (hn : n < Nat.pow 10 k)
    (h : fraction k m = fraction k n) : m = n := by
  unfold fraction at h
  split at h <;> split at h
  · omega
  · cases h
  · cases h
  · exact places_inj hm hn (List.cons.inj h).2

/-- A whole part and as many places behind it as are known are told by their text. -/
theorem ofNat_fraction_inj {k w v m n : Nat} (hm : m < Nat.pow 10 k) (hn : n < Nat.pow 10 k)
    (h : ofNat w ++ fraction k m = ofNat v ++ fraction k n) : w = v ∧ m = n := by
  obtain ⟨hwhole, hpart⟩ := ofNat_append_inj fraction_head fraction_head h
  exact ⟨hwhole, fraction_inj hm hn hpart⟩

end Chronicle.Decimal
