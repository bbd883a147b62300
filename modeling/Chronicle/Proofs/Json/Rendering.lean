/-
  Chronicle.Proofs.Json.Rendering — every text of a value is read as that value.

  `v.Renders cs` says that `cs` is a text of `v`: its tokens in any spelling, with blanks
  wherever they may stand. Such texts are at hand: `spaced gaps` writes tokens the usual way
  with any blanks in the gaps. In a row of the tokens of a value no two runs are neighbours
  (`isChain_tokens`), so even with nothing between them they stay apart (`renders_spaced`).

  Proved: a text of a value is read as the value (`ofChars?_of_renders`).
-/

import Mathlib.Data.List.Chain
import Chronicle.Json.Reading
import Chronicle.Proofs.Json.Spelling

namespace Chronicle.Json

def Renders (v : Json) (cs : List Char) : Prop := Spells v.tokens cs

/-- Tokens written the usual way, the n-th gap before the n-th of them and the last one after
    them all. -/
def spaced (gaps : Nat → List Char) : List Token → List Char
  | [] => gaps 0
  | t :: ts => gaps 0 ++ t.chars ++ spaced (fun n => gaps (n + 1)) ts

/-- A text of a value is read as the value. -/
theorem ofChars?_of_renders {v : Json} {cs : List Char} (h : v.Renders cs) : ofChars? cs = some v := by
  unfold ofChars?
  rw [scan?_of_spells h, Option.bind_some, ofTokens?_tokens]

/-! ## The usual spelling -/

theorem hex?_hexDigit (u : UInt16) : hex? (hexDigit u) = some (u.toNat % 16) := by
  have digits : ∀ d : Fin 16, hex? (Nat.digitChar d.val) = some d.val := by decide
  have h : (u % 16).toNat = u.toNat % 16 := UInt16.toNat_mod u 16
  unfold hexDigit
  rw [h]
  exact digits ⟨u.toNat % 16, Nat.mod_lt _ (by decide)⟩

theorem val_ofNat {n : Nat} (h : n < 0xD800) : (Char.ofNat n).val.toNat = n := by
  unfold Char.ofNat
  rw [dif_pos (.inl h)]
  rfl

theorem ofChar_ofNat {u : UInt16} (h : u.toNat < 0x7F) : Utf16.ofChar (Char.ofNat u.toNat) = [u] := by
  have hc : (Char.ofNat u.toNat).val.toNat = u.toNat := val_ofNat (by omega)
  unfold Utf16.ofChar
  rw [if_pos (UInt32.lt_iff_toNat_lt.mpr (by rw [hc]; show u.toNat < 65536; omega))]
  congr 1
  apply UInt16.toNat_inj.mp
  rw [UInt32.toNat_toUInt16, hc]
  omega

theorem quoted_cons (u : UInt16) {us : Utf16} {cs : List Char} (h : Quoted us cs) :
    Quoted (u :: us) (unitChars u ++ cs) := by
  unfold unitChars
  by_cases hplain : 0x20 ≤ u ∧ u < 0x7F ∧ u ≠ 0x22 ∧ u ≠ 0x5C
  · obtain ⟨hlow, hhigh, hquote, hback⟩ := id hplain
    have hu : u.toNat < 0x7F := UInt16.lt_iff_toNat_lt.mp hhigh
    have hc : (Char.ofNat u.toNat).val.toNat = u.toNat := val_ofNat (by omega)
    have hne : ∀ c : Char, u ≠ UInt16.ofNat c.val.toNat → Char.ofNat u.toNat ≠ c := by
      intro c hne e
      apply hne
      rw [← e, hc, UInt16.ofNat_toNat]
    have hspace : ¬ (Char.ofNat u.toNat).val < 0x20 := by
      rw [UInt32.lt_iff_toNat_lt, hc]
      exact Nat.not_lt.mpr (UInt16.le_iff_toNat_le.mp hlow)
    have hq := Quoted.plain hspace (hne '"' hquote) (hne '\\' hback) h
    rw [ofChar_ofNat hu] at hq
    rwa [if_pos hplain]
  · have hq := Quoted.hex (hex?_hexDigit (u / 4096)) (hex?_hexDigit (u / 256)) (hex?_hexDigit (u / 16))
      (hex?_hexDigit u) h
    have hvalue : (((u / 4096).toNat % 16 * 16 + (u / 256).toNat % 16) * 16 + (u / 16).toNat % 16) * 16 +
        u.toNat % 16 = u.toNat := by
      have := u.toNat_lt
      rw [UInt16.toNat_div, UInt16.toNat_div, UInt16.toNat_div]
      show ((u.toNat / 4096 % 16 * 16 + u.toNat / 256 % 16) * 16 + u.toNat / 16 % 16) * 16 + u.toNat % 16 = u.toNat
      omega
    rw [hvalue, UInt16.ofNat_toNat] at hq
    rwa [if_neg hplain]

theorem quoted_units (us : Utf16) : Quoted us (us.flatMap unitChars) := by
  induction us with
  | nil => exact .nil
  | cons u us ih => exact quoted_cons u ih

theorem literal_numeralChars (n : Numeral) : Literal n (numeralChars n) := by
  have power : ∀ e : Int, Power (some e) ('e' :: Decimal.ofInt e) := by
    intro e
    unfold Decimal.ofInt
    by_cases hneg : e < 0
    · have h : Power (some (-(e.natAbs : Int))) _ := .minus (.inl rfl) (Decimal.toNat?_ofNat e.natAbs)
      rw [show -(e.natAbs : Int) = e by omega] at h
      rwa [if_pos hneg]
    · have h : Power (some (e.natAbs : Int)) _ := .plain (.inl rfl) (Decimal.toNat?_ofNat e.natAbs)
      rw [show (e.natAbs : Int) = e by omega] at h
      rwa [if_neg hneg]
  obtain ⟨negative, whole, fraction, exponent⟩ := n
  cases exponent with
  | none => exact ⟨[], .none, rfl⟩
  | some e => exact ⟨_, power e, rfl⟩

theorem Token.spelling_chars (t : Token) : t.Spelling t.chars := by
  cases t with
  | openList => exact .openList
  | closeList => exact .closeList
  | openObject => exact .openObject
  | closeObject => exact .closeObject
  | colon => exact .colon
  | comma => exact .comma
  | null => exact .null
  | bool b =>
    cases b with
    | true => exact .true
    | false => exact .false
  | number n => exact .number (literal_numeralChars n)
  | string s => exact .string (quoted_units s)

/-! ## Neighbours -/

/-- Of two neighbours, one is no run. -/
def Apart (t u : Token) : Prop := t.isRun → u.isRun = false

theorem apart_of_left {t u : Token} (h : t.isRun = false) : Apart t u := by
  intro ht
  rw [h] at ht
  cases ht

theorem isChain_cons_apart {t : Token} {ts : List Token} (h : t.isRun = false) (hts : ts.IsChain Apart) :
    (t :: ts).IsChain Apart := List.isChain_cons.mpr ⟨fun _ _ => apart_of_left h, hts⟩

mutual

/-- In the tokens of a value no two runs are neighbours, and none joins one that follows. -/
theorem isChain_tokens_append {ts : List Token} (hts : ts.IsChain Apart) (hhead : ∀ t ∈ ts.head?, t.isRun = false) :
    (v : Json) → (v.tokens ++ ts).IsChain Apart
  | .null | .bool _ | .number _ => List.isChain_cons.mpr ⟨fun _ ht _ => hhead _ ht, hts⟩
  | .string _ => isChain_cons_apart rfl hts
  | .list [] | .object [] => isChain_cons_apart rfl (isChain_cons_apart rfl hts)
  | .list (v :: vs) => by
    rw [tokens, List.cons_append, List.append_assoc]
    have hrest := isChain_itemTokens_append hts vs
    exact isChain_cons_apart rfl (isChain_tokens_append hrest.1 hrest.2 v)
  | .object ((k, v) :: ms) => by
    rw [tokens]
    have hrest := isChain_memberTokens_append hts ms
    show (Token.openObject :: .string k :: .colon :: (v.tokens ++ memberTokens ms ++ ts)).IsChain Apart
    rw [List.append_assoc]
    exact isChain_cons_apart rfl (isChain_cons_apart rfl (isChain_cons_apart rfl
      (isChain_tokens_append hrest.1 hrest.2 v)))

theorem isChain_itemTokens_append {ts : List Token} (hts : ts.IsChain Apart) : (vs : List Json) →
    (itemTokens vs ++ ts).IsChain Apart ∧ ∀ t ∈ (itemTokens vs ++ ts).head?, t.isRun = false
  | [] => ⟨isChain_cons_apart rfl hts, by rintro t ⟨⟩; rfl⟩
  | w :: ws => by
    rw [itemTokens, List.cons_append, List.append_assoc]
    have hrest := isChain_itemTokens_append hts ws
    exact ⟨isChain_cons_apart rfl (isChain_tokens_append hrest.1 hrest.2 w), by rintro t ⟨⟩; rfl⟩

theorem isChain_memberTokens_append {ts : List Token} (hts : ts.IsChain Apart) : (ms : List (Utf16 × Json)) →
    (memberTokens ms ++ ts).IsChain Apart ∧ ∀ t ∈ (memberTokens ms ++ ts).head?, t.isRun = false
  | [] => ⟨isChain_cons_apart rfl hts, by rintro t ⟨⟩; rfl⟩
  | (k, w) :: ms => by
    rw [memberTokens]
    have hrest := isChain_memberTokens_append hts ms
    refine ⟨?_, by rintro t ⟨⟩; rfl⟩
    show (Token.comma :: .string k :: .colon :: (w.tokens ++ memberTokens ms ++ ts)).IsChain Apart
    rw [List.append_assoc]
    exact isChain_cons_apart rfl (isChain_cons_apart rfl (isChain_cons_apart rfl
      (isChain_tokens_append hrest.1 hrest.2 w)))

end

theorem isChain_tokens (v : Json) : v.tokens.IsChain Apart := by
  have h := isChain_tokens_append List.isChain_nil (by rintro t ⟨⟩) v
  rwa [List.append_nil] at h

/-! ## Gaps -/

section

variable {gaps : Nat → List Char} (hgaps : ∀ n, ∀ c ∈ gaps n, isBlank c)

include hgaps

/-- What follows a run is a blank, the end, or a token that is no run. -/
theorem head?_spaced {ts : List Token} (h : ∀ t ∈ ts.head?, t.isRun = false) :
    ∀ c ∈ (spaced gaps ts).head?, ¬ isRun c := by
  intro c hc
  cases hgap : gaps 0 with
  | cons b blanks =>
    have hblank : isBlank b := hgaps 0 b (by rw [hgap]; exact List.mem_cons_self)
    have hb : c = b := by
      cases ts with
      | nil =>
        rw [spaced, hgap] at hc
        exact (Option.some.inj hc).symm
      | cons t ts =>
        rw [spaced, hgap] at hc
        exact (Option.some.inj hc).symm
    rw [hb]
    exact not_isRun_of_isBlank hblank
  | nil =>
    cases ts with
    | nil =>
      rw [spaced, hgap] at hc
      cases hc
    | cons t ts =>
      rw [spaced, hgap, List.nil_append] at hc
      have ht : t.isRun = false := h t rfl
      cases t with
      | null | bool | number => cases ht
      | openList | closeList | openObject | closeObject | colon | comma | string =>
        cases hc
        decide

/-- A row of tokens without neighbouring runs may have any blanks in its gaps, or none. -/
theorem spells_spaced {ts : List Token} (h : ts.IsChain Apart) : Spells ts (spaced gaps ts) := by
  induction ts generalizing gaps with
  | nil => exact .nil (hgaps 0)
  | cons t ts ih =>
    rw [List.isChain_cons] at h
    refine .cons (hgaps 0) t.spelling_chars (ih (fun n => hgaps (n + 1)) h.2) ?_
    intro hrun
    exact head?_spaced (fun n => hgaps (n + 1)) fun u hu => h.1 u hu hrun

theorem renders_spaced (v : Json) : v.Renders (spaced gaps v.tokens) := spells_spaced hgaps (isChain_tokens v)

end

theorem spaced_nil (ts : List Token) : spaced (fun _ => []) ts = ts.flatMap Token.chars := by
  induction ts with
  | nil => rfl
  | cons t ts ih => rw [spaced, ih, List.flatMap_cons, List.nil_append]

/-- The text of a value without blanks is one of its texts. -/
theorem renders_chars (v : Json) : v.Renders v.chars := by
  have h : v.Renders (spaced (fun _ => []) v.tokens) := renders_spaced (by simp) v
  rwa [spaced_nil] at h

end Chronicle.Json
