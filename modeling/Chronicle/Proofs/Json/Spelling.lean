/-
  Chronicle.Proofs.Json.Spelling — every text of a row of tokens is read as that row.

  A token has many spellings: a character of a string may stand for itself or be escaped, in
  digits of either case, and a power of ten has an `e` or an `E`, a sign or none, and zeros in
  front. `Token.Spelling` says which these are, and `Spells` puts blanks around them. Two runs
  need a blank between them, or they would be one.

  The text is read character by character, so a spelling is followed through `Scan.step` from
  the token's first character to its last. A string and a mark end themselves. A run ends with
  whatever comes after it, or with the text (`through_run`).

  Proved: the token of a spelling is read where it stands (`through_spelling`), and so, by
  induction on the row, is the whole row (`scan?_of_spells`).
-/

import Chronicle.Json.Token
import Chronicle.Proofs.Decimal.Delimited

namespace Chronicle.Json

open Decimal (digitChar_isDigit ne_of_isDigit)

/-! ## Spellings -/

/-- The ways to write what stands between the quotes of a string. -/
inductive Quoted : Utf16 → List Char → Prop where
  | nil : Quoted [] []
  /-- A character that needs no escape stands for itself. -/
  | plain {c : Char} {us : Utf16} {cs : List Char} :
      ¬ c.val < 0x20 → c ≠ '"' → c ≠ '\\' → Quoted us cs → Quoted (Utf16.ofChar c ++ us) (c :: cs)
  /-- An escape of one letter. -/
  | letter {c : Char} {u : UInt16} {us : Utf16} {cs : List Char} :
      plainEscape? c = some u → Quoted us cs → Quoted (u :: us) ('\\' :: c :: cs)
  /-- An escape of four hexadecimal digits. -/
  | hex {a b c d : Char} {i j k l : Nat} {us : Utf16} {cs : List Char} :
      hex? a = some i → hex? b = some j → hex? c = some k → hex? d = some l → Quoted us cs →
      Quoted (UInt16.ofNat (((i * 16 + j) * 16 + k) * 16 + l) :: us) ('\\' :: 'u' :: a :: b :: c :: d :: cs)

/-- The ways to write the power of ten of a number. -/
inductive Power : Option Int → List Char → Prop where
  | none : Power none []
  | plain {e : Char} {n : Nat} {ds : List Char} :
      e = 'e' ∨ e = 'E' → Decimal.toNat? ds = some n → Power (some n) (e :: ds)
  | plus {e : Char} {n : Nat} {ds : List Char} :
      e = 'e' ∨ e = 'E' → Decimal.toNat? ds = some n → Power (some n) (e :: '+' :: ds)
  | minus {e : Char} {n : Nat} {ds : List Char} :
      e = 'e' ∨ e = 'E' → Decimal.toNat? ds = some n → Power (some (-(n : Int))) (e :: '-' :: ds)

/-- The digits after the point of a number, and the point, if there is one. -/
def placesChars (fraction : List (Fin 10)) : List Char :=
  if fraction = [] then [] else '.' :: fraction.map fun d => Nat.digitChar d.val

/-- The ways to write a number. -/
def Literal (n : Numeral) (cs : List Char) : Prop :=
  ∃ power, Power n.exponent power ∧
    cs = (if n.negative then ['-'] else []) ++ Decimal.ofNat n.whole ++ placesChars n.fraction ++ power

namespace Token

def isRun : Token → Bool
  | .null | .bool _ | .number _ => true
  | _ => false

/-- The ways to write a token. -/
inductive Spelling : Token → List Char → Prop where
  | openList : Spelling .openList ['[']
  | closeList : Spelling .closeList [']']
  | openObject : Spelling .openObject ['\x7b']
  | closeObject : Spelling .closeObject ['\x7d']
  | colon : Spelling .colon [':']
  | comma : Spelling .comma [',']
  | null : Spelling .null "null".toList
  | true : Spelling (.bool true) "true".toList
  | false : Spelling (.bool false) "false".toList
  | number {n : Numeral} {cs : List Char} : Literal n cs → Spelling (.number n) cs
  | string {s : Utf16} {cs : List Char} : Quoted s cs → Spelling (.string s) ('"' :: (cs ++ ['"']))

end Token

/-- The texts of a row of tokens: the tokens in order, each in any spelling, with blanks around
    them, and no two runs joined. -/
inductive Spells : List Token → List Char → Prop where
  | nil {blanks : List Char} : (∀ c ∈ blanks, isBlank c) → Spells [] blanks
  | cons {blanks word : List Char} {t : Token} {ts : List Token} {cs : List Char} :
      (∀ c ∈ blanks, isBlank c) → t.Spelling word → Spells ts cs →
      (t.isRun → ∀ c ∈ cs.head?, ¬ isRun c) → Spells (t :: ts) (blanks ++ word ++ cs)

/-! ## Runs -/

theorem isRun_of_isDigit {c : Char} (h : c.isDigit) : isRun c := by
  simp [isRun, Char.isAlphanum, h]

theorem not_isRun_of_isBlank {c : Char} (h : isBlank c) : ¬ isRun c := by
  simp only [isBlank, Bool.or_eq_true, decide_eq_true_eq] at h
  obtain ((rfl | rfl) | rfl) | rfl := h <;> decide

theorem all_isDigit_of_toNat? {ds : List Char} {n : Nat} (h : Decimal.toNat? ds = some n) :
    ds ≠ [] ∧ ∀ c ∈ ds, c.isDigit := by
  unfold Decimal.toNat? at h
  split at h
  · rename_i hd
    exact ⟨hd.1, List.all_eq_true.mp hd.2⟩
  · cases h

theorem digit?_digitChar (d : Fin 10) : digit? (Nat.digitChar d.val) = some d := by
  revert d
  decide

theorem placesChars_isRun {fraction : List (Fin 10)} : ∀ c ∈ placesChars fraction, isRun c := by
  intro c hc
  unfold placesChars at hc
  split at hc
  · cases hc
  · rcases List.mem_cons.mp hc with rfl | hc
    · decide
    · obtain ⟨d, -, rfl⟩ := List.mem_map.mp hc
      exact isRun_of_isDigit (digitChar_isDigit d.isLt)

theorem Power.isRun {e : Option Int} {cs : List Char} (h : Power e cs) : ∀ c ∈ cs, isRun c := by
  have mark : ∀ c : Char, c = 'e' ∨ c = 'E' → Json.isRun c := by
    rintro c (rfl | rfl) <;> decide
  have digits : ∀ {ds : List Char} {n : Nat}, Decimal.toNat? ds = some n → ∀ c ∈ ds, Json.isRun c :=
    fun hds c hc => isRun_of_isDigit ((all_isDigit_of_toNat? hds).2 c hc)
  cases h with
  | none => intro c hc; cases hc
  | plain he hds => exact List.forall_mem_cons.mpr ⟨mark _ he, digits hds⟩
  | plus he hds | minus he hds =>
    exact List.forall_mem_cons.mpr ⟨mark _ he, List.forall_mem_cons.mpr ⟨by decide, digits hds⟩⟩

/-! ## Numbers -/

/-- Where nothing has `p`, nothing is cut off. -/
theorem cut_none {p : Char → Bool} {xs : List Char} (h : ∀ c ∈ xs, p c = false) : cut p xs = (xs, none) := by
  induction xs with
  | nil => rfl
  | cons c xs ih =>
    rw [List.forall_mem_cons] at h
    simp [cut, h.1, ih h.2]

/-- The first character with `p` is where the cut is. -/
theorem cut_some {p : Char → Bool} {xs cs : List Char} {c : Char} (h : ∀ d ∈ xs, p d = false) (hc : p c = true) :
    cut p (xs ++ c :: cs) = (xs, some cs) := by
  induction xs with
  | nil => simp [cut, hc]
  | cons d xs ih =>
    rw [List.forall_mem_cons] at h
    simp [cut, h.1, ih h.2]

/-- No number but zero is written with a zero in front. -/
theorem head?_ofNat (n : Nat) (h : (Decimal.ofNat n).head? = some '0') : Decimal.ofNat n = ['0'] := by
  unfold Decimal.ofNat at *
  induction n using Nat.strongRecOn with
  | ind n ih =>
    by_cases hn : n < 10
    · rw [Nat.toDigits_of_lt_base hn] at h ⊢
      rw [Option.some.inj h]
    · rw [Nat.toDigits_of_base_le (by omega) (by omega)] at h
      obtain ⟨d, ds, hds⟩ := List.exists_cons_of_ne_nil (Nat.toDigits_ne_nil (b := 10) (n := n / 10))
      have hzero := ih (n / 10) (by omega) (by rw [hds] at h ⊢; exact h)
      -- the digits of `n / 10` are those of zero, but `n / 10` is not zero
      have hval : n / 10 = 0 := Decimal.ofNat_inj hzero
      omega

theorem whole?_ofNat (n : Nat) : whole? (Decimal.ofNat n) = some n := by
  unfold whole?
  rw [if_neg (fun h => h.2 (head?_ofNat n h.1)), Decimal.toNat?_ofNat]

theorem fraction?_map {fraction : List (Fin 10)} (h : fraction ≠ []) :
    fraction? (some (fraction.map fun d => Nat.digitChar d.val)) = some fraction := by
  have digits : ∀ ds : List (Fin 10), (ds.map fun d => Nat.digitChar d.val).mapM digit? = some ds := by
    intro ds
    induction ds with
    | nil => rfl
    | cons d ds ih => simp [digit?_digitChar, ih]
  cases fraction with
  | nil => exact absurd rfl h
  | cons d ds => exact digits (d :: ds)

/-- The power of ten is read after its `e`. -/
theorem exponent?_of_power {e : Char} {o : Option Int} {cs : List Char} (h : Power o (e :: cs)) :
    exponent? (some cs) = some o := by
  cases h with
  | plain _ hds =>
    obtain ⟨hne, hdigits⟩ := all_isDigit_of_toNat? hds
    obtain ⟨d, ds, rfl⟩ := List.exists_cons_of_ne_nil hne
    have hd : d.isDigit := hdigits d List.mem_cons_self
    unfold exponent?
    split
    · rename_i heq
      cases heq
    · rename_i heq
      cases heq
      exact absurd hd (by decide)
    · rename_i heq
      cases heq
      exact absurd hd (by decide)
    · rename_i heq
      cases heq
      rw [hds]
      rfl
  | plus _ hds => simp [exponent?, hds]
  | minus _ hds => simp [exponent?, hds]

/-- The part of a number before its power of ten has no `e`. -/
theorem mantissa_ne {n : Nat} {fraction : List (Fin 10)} :
    ∀ c ∈ Decimal.ofNat n ++ placesChars fraction, (c = 'e' || c = 'E') = false := by
  have digits : ∀ c : Char, c.isDigit → (c = 'e' || c = 'E') = false := by
    intro c hc
    simp [ne_of_isDigit hc (d := 'e') rfl, ne_of_isDigit hc (d := 'E') rfl]
  intro c hc
  rcases List.mem_append.mp hc with hc | hc
  · exact digits c (Decimal.ofNat_isDigit hc)
  · unfold placesChars at hc
    split at hc
    · cases hc
    · rcases List.mem_cons.mp hc with rfl | hc
      · rfl
      · obtain ⟨d, -, rfl⟩ := List.mem_map.mp hc
        exact digits _ (digitChar_isDigit d.isLt)

/-- The part before the power of ten is cut at its point, if it has one. -/
theorem cut_mantissa (n : Nat) (fraction : List (Fin 10)) :
    ∃ places, cut (fun c => c = '.') (Decimal.ofNat n ++ placesChars fraction) = (Decimal.ofNat n, places) ∧
      fraction? places = some fraction := by
  have hno : ∀ c ∈ Decimal.ofNat n, decide (c = '.') = false := fun c hc =>
    decide_eq_false (ne_of_isDigit (Decimal.ofNat_isDigit hc) rfl)
  unfold placesChars
  by_cases h : fraction = []
  · subst h
    exact ⟨none, by simpa using cut_none hno, rfl⟩
  · rw [if_neg h]
    exact ⟨_, cut_some hno (by decide), fraction?_map h⟩

/-- A number is cut at the `e` of its power of ten, if it has one. -/
theorem cut_number (n : Nat) (fraction : List (Fin 10)) {exponent : Option Int} {power : List Char}
    (h : Power exponent power) :
    ∃ cs, cut (fun c => c = 'e' || c = 'E') (Decimal.ofNat n ++ placesChars fraction ++ power) =
      (Decimal.ofNat n ++ placesChars fraction, cs) ∧ exponent? cs = some exponent := by
  cases power with
  | nil =>
    cases h
    exact ⟨none, by rw [List.append_nil, cut_none mantissa_ne], rfl⟩
  | cons e cs =>
    have he : (e = 'e' || e = 'E') = true := by
      cases h with
      | plain he _ | plus he _ | minus he _ => rcases he with rfl | rfl <;> rfl
    exact ⟨some cs, cut_some mantissa_ne he, exponent?_of_power h⟩

theorem unsigned?_literal {n : Numeral} {power : List Char} (h : Power n.exponent power) :
    unsigned? n.negative (Decimal.ofNat n.whole ++ placesChars n.fraction ++ power) = some n := by
  obtain ⟨places, hmantissa, hplaces⟩ := cut_mantissa n.whole n.fraction
  obtain ⟨cs, hnumber, hcs⟩ := cut_number n.whole n.fraction h
  simp only [unsigned?, hnumber, hmantissa]
  simp [whole?_ofNat, hplaces, hcs]

/-- A number is read from any of its spellings. -/
theorem Literal.numeral? {n : Numeral} {cs : List Char} (h : Literal n cs) : Json.numeral? cs = some n := by
  obtain ⟨power, hpower, rfl⟩ := h
  have hread := unsigned?_literal hpower
  cases hneg : n.negative with
  | true =>
    rw [hneg] at hread
    exact hread
  | false =>
    rw [hneg] at hread
    -- the first character is a digit, so there is no sign
    obtain ⟨d, ds, hds, hdigit⟩ := Decimal.exists_ofNat_eq_cons n.whole
    have hd : d ≠ '-' := ne_of_isDigit hdigit rfl
    rw [hds] at hread ⊢
    unfold Json.numeral?
    split
    · rename_i heq
      cases heq
      exact absurd rfl hd
    · exact hread

theorem Literal.isRun {n : Numeral} {cs : List Char} (h : Literal n cs) : ∀ c ∈ cs, Json.isRun c := by
  obtain ⟨power, hpower, rfl⟩ := h
  intro c hc
  simp only [List.mem_append] at hc
  rcases hc with ((hc | hc) | hc) | hc
  · split at hc
    · rw [List.mem_singleton.mp hc]
      decide
    · cases hc
  · exact isRun_of_isDigit (Decimal.ofNat_isDigit hc)
  · exact placesChars_isRun c hc
  · exact hpower.isRun c hc

/-- A number begins with a sign or a digit. -/
theorem Literal.head {n : Numeral} {cs : List Char} (h : Literal n cs) :
    ∃ c ds, cs = c :: ds ∧ (c = '-' ∨ c.isDigit) := by
  obtain ⟨power, -, rfl⟩ := h
  obtain ⟨d, ds, hds, hdigit⟩ := Decimal.exists_ofNat_eq_cons n.whole
  by_cases hneg : n.negative = true
  · exact ⟨'-', _, by rw [if_pos hneg]; rfl, .inl rfl⟩
  · exact ⟨d, _, by rw [if_neg hneg, hds]; rfl, .inr hdigit⟩

/-! ## Following a text -/

namespace Scan

/-- What the rest of a text is read as. -/
def through (s : Scan) (cs : List Char) : Option Scan := (cs.foldlM step s).bind flush

theorem through_cons {s s' : Scan} {c : Char} (h : s.step c = some s') (cs : List Char) :
    s.through (c :: cs) = s'.through cs := by
  simp [through, h]

end Scan

variable {done : List Token}

theorem step_blank {c : Char} (h : isBlank c) : Scan.step ⟨done, .nothing⟩ c = some ⟨done, .nothing⟩ := by
  simp [Scan.step, Scan.between, h, not_isRun_of_isBlank h]

/-- Blanks between tokens are passed over. -/
theorem through_blanks {blanks : List Char} (h : ∀ c ∈ blanks, isBlank c) (cs : List Char) :
    Scan.through ⟨done, .nothing⟩ (blanks ++ cs) = Scan.through ⟨done, .nothing⟩ cs := by
  induction blanks with
  | nil => rfl
  | cons c blanks ih =>
    rw [List.forall_mem_cons] at h
    rw [List.cons_append, Scan.through_cons (step_blank h.1), ih h.2]

/-! ### Runs -/

theorem through_reading {read word : List Char} (h : ∀ c ∈ word, isRun c) (cs : List Char) :
    Scan.through ⟨done, .run read⟩ (word ++ cs) = Scan.through ⟨done, .run (word.reverse ++ read)⟩ cs := by
  induction word generalizing read with
  | nil => rfl
  | cons c word ih =>
    rw [List.forall_mem_cons] at h
    have hstep : Scan.step ⟨done, .run read⟩ c = some ⟨done, .run (c :: read)⟩ := by simp [Scan.step, h.1]
    rw [List.cons_append, Scan.through_cons hstep, ih h.2, List.reverse_cons, List.append_assoc]
    rfl

/-- A run ends where no character of a run follows, and is its token. -/
theorem through_run {word cs : List Char} {t : Token} (hne : word ≠ []) (hword : ∀ c ∈ word, isRun c)
    (ht : run? word = some t) (hcs : ∀ c ∈ cs.head?, ¬ isRun c) :
    Scan.through ⟨done, .nothing⟩ (word ++ cs) = Scan.through ⟨t :: done, .nothing⟩ cs := by
  obtain ⟨c, word, rfl⟩ := List.exists_cons_of_ne_nil hne
  rw [List.forall_mem_cons] at hword
  have hfirst : Scan.step ⟨done, .nothing⟩ c = some ⟨done, .run [c]⟩ := by simp [Scan.step, hword.1]
  have hread : Scan.flush ⟨done, .run (word.reverse ++ [c])⟩ = some ⟨t :: done, .nothing⟩ := by
    simp [Scan.flush, ht]
  rw [List.cons_append, Scan.through_cons hfirst, through_reading hword.2]
  cases cs with
  | nil => exact hread
  | cons d cs =>
    have hd : ¬ isRun d := hcs d rfl
    have hstep : Scan.step ⟨done, .run (word.reverse ++ [c])⟩ d = Scan.step ⟨t :: done, .nothing⟩ d := by
      simp only [Scan.step, hread, if_neg hd, Option.bind_some]
    simp only [Scan.through, List.foldlM_cons, hstep]

theorem run?_literal {n : Numeral} {cs : List Char} (h : Literal n cs) : run? cs = some (.number n) := by
  obtain ⟨c, ds, rfl, hc⟩ := h.head
  have hne : c ≠ 'n' ∧ c ≠ 't' ∧ c ≠ 'f' := by
    rcases hc with rfl | hc
    · decide
    · exact ⟨ne_of_isDigit hc rfl, ne_of_isDigit hc rfl, ne_of_isDigit hc rfl⟩
  have hnull : c :: ds ≠ "null".toList := by simp [hne.1]
  have htrue : c :: ds ≠ "true".toList := by simp [hne.2.1]
  have hfalse : c :: ds ≠ "false".toList := by simp [hne.2.2]
  unfold run?
  rw [if_neg hnull, if_neg htrue, if_neg hfalse, h.numeral?]
  rfl

/-! ### Strings -/

/-- What stands between the quotes of a string is read as its units. -/
theorem through_quoted {us read : Utf16} {word : List Char} (h : Quoted us word) (cs : List Char) :
    Scan.through ⟨done, .string read .outside⟩ (word ++ cs) =
      Scan.through ⟨done, .string (us.reverse ++ read) .outside⟩ cs := by
  have backslash : ∀ read, Scan.step ⟨done, .string read .outside⟩ '\\' = some ⟨done, .string read .begun⟩ := by
    intro read
    rfl
  induction h generalizing read with
  | nil => rfl
  | @plain c us word hlow hquote hback _ ih =>
    have hstep : Scan.step ⟨done, .string read .outside⟩ c =
        some ⟨done, .string ((Utf16.ofChar c).reverse ++ read) .outside⟩ := by
      simp [Scan.step, Scan.inString, hlow, hquote, hback]
    rw [List.cons_append, Scan.through_cons hstep, ih, List.reverse_append, List.append_assoc]
  | @letter c u us word hu _ ih =>
    have hc : c ≠ 'u' := by
      rintro rfl
      cases hu
    have hstep : Scan.step ⟨done, .string read .begun⟩ c = some ⟨done, .string (u :: read) .outside⟩ := by
      simp [Scan.step, Scan.inString, hc, hu]
    rw [List.cons_append, Scan.through_cons (backslash read), List.cons_append, Scan.through_cons hstep, ih,
      List.reverse_cons, List.append_assoc]
    rfl
  | @hex a b c d i j k l us word ha hb hc hd _ ih =>
    have digit : ∀ {x : Char} {m : Nat} (n v : Nat), hex? x = some m → n < 3 →
        Scan.step ⟨done, .string read (.hex n v)⟩ x = some ⟨done, .string read (.hex (n + 1) (v * 16 + m))⟩ := by
      intro x m n v hx hn
      simp [Scan.step, Scan.inString, hx, hn]
    have hlast : ∀ v, Scan.step ⟨done, .string read (.hex 3 v)⟩ d =
        some ⟨done, .string (UInt16.ofNat (v * 16 + l) :: read) .outside⟩ := by
      intro v
      simp [Scan.step, Scan.inString, hd]
    have hu : Scan.step ⟨done, .string read .begun⟩ 'u' = some ⟨done, .string read (.hex 0 0)⟩ := rfl
    simp only [List.cons_append]
    rw [Scan.through_cons (backslash read), Scan.through_cons hu, Scan.through_cons (digit 0 0 ha (by decide)),
      Scan.through_cons (digit 1 _ hb (by decide)), Scan.through_cons (digit 2 _ hc (by decide)),
      Scan.through_cons (hlast _), ih, List.reverse_cons, List.append_assoc, Nat.zero_mul, Nat.zero_add]
    rfl

/-! ### Rows -/

/-- Where a token is spelled, it is read. A run must not go on after it. -/
theorem through_spelling {t : Token} {word cs : List Char} (h : t.Spelling word)
    (hcs : t.isRun → ∀ c ∈ cs.head?, ¬ isRun c) :
    Scan.through ⟨done, .nothing⟩ (word ++ cs) = Scan.through ⟨t :: done, .nothing⟩ cs := by
  cases h with
  | openList | closeList | openObject | closeObject | colon | comma => exact Scan.through_cons rfl cs
  | null | true | false => exact through_run (by decide) (List.all_eq_true.mp (by decide)) (by decide) (hcs rfl)
  | number hn =>
    obtain ⟨c, ds, rfl, -⟩ := hn.head
    exact through_run (List.cons_ne_nil c ds) hn.isRun (run?_literal hn) (hcs rfl)
  | @string s word hs =>
    have hopen : Scan.step ⟨done, .nothing⟩ '"' = some ⟨done, .string [] .outside⟩ := rfl
    have hclose : Scan.step ⟨done, .string s.reverse .outside⟩ '"' = some ⟨.string s :: done, .nothing⟩ := by
      simp [Scan.step, Scan.inString]
    rw [List.cons_append, Scan.through_cons hopen, List.append_assoc, through_quoted hs, List.append_nil,
      List.singleton_append, Scan.through_cons hclose]

theorem through_spells {ts : List Token} {cs : List Char} (h : Spells ts cs) :
    Scan.through ⟨done, .nothing⟩ cs = some ⟨ts.reverse ++ done, .nothing⟩ := by
  induction h generalizing done with
  | @nil blanks hb =>
    have hthrough : Scan.through ⟨done, .nothing⟩ (blanks ++ []) = _ := through_blanks hb []
    rwa [List.append_nil] at hthrough
  | cons hb hword _ hcs ih =>
    rw [List.append_assoc, through_blanks hb, through_spelling hword hcs, ih, List.reverse_cons, List.append_assoc]
    rfl

/-- A text of a row of tokens is read as that row. -/
theorem scan?_of_spells {ts : List Token} {cs : List Char} (h : Spells ts cs) : scan? cs = some ts := by
  have hthrough : Scan.through ⟨[], .nothing⟩ cs = _ := through_spells h
  unfold Scan.through at hthrough
  rw [Option.bind_eq_some_iff] at hthrough
  obtain ⟨s, hread, hflush⟩ := hthrough
  unfold scan? Scan.start
  rw [hread]
  simp [hflush]

end Chronicle.Json
