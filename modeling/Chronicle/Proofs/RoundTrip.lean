/-
  Chronicle.Proofs.RoundTrip — settings are read from what was written of them.

  Any settings can be written, those that describe no series among them, and the writer knows
  nothing of the reader: it makes tokens, the reader follows characters. They meet in the value
  between, which says each parameter once and says what it is (`ofJson?_toJson`). Blanks change
  the characters and not the tokens, so they may stand in any gap.

  Proved: `read?_write`.
-/

import Chronicle.Proofs.Settings.Decoding

namespace Chronicle

theorem Duration.saidBy_toJson (d : Duration) : d.SaidBy d.toJson := by
  have hlt : d.nanos.val < second := d.nanos.isLt
  have hnanos : (UInt32.ofNat d.nanos.val).toNat = d.nanos.val := by
    apply UInt32.toNat_ofNat_of_lt'
    unfold second at hlt
    show d.nanos.val < 4294967296
    omega
  refine ⟨d.secs, UInt32.ofNat d.nanos.val, ?_, ?_, ?_⟩
  · have h : Written d.secs (UInt32.ofNat d.nanos.val) _ := .secsFirst
    rwa [hnanos] at h
  · rw [hnanos, Nat.div_eq_of_lt hlt, Nat.add_zero]
  · rw [hnanos, Nat.mod_eq_of_lt hlt]

namespace Settings

/-- Written settings say each parameter once, and what it is. -/
theorem ofJson?_toJson (s : Settings) : ofJson? s.toJson = some s := by
  refine ofJson?_object_iff.mpr ⟨?_, ?_⟩
  · intro m hm
    simp only [List.mem_cons, List.not_mem_nil, or_false] at hm
    rcases hm with rfl | rfl | rfl <;> exact Utf16.paired_ofChars _
  · intro f
    cases f with
    | capacity => exact .given rfl
    | startIndex => exact .given rfl
    | pollInterval => exact .given (Duration.saidBy_toJson s.pollInterval)

/-- Settings are read from their text, and from that text with any blanks before, between and after
    its tokens. -/
theorem read?_write (s : Settings) :
    read? s.write = some s ∧ s.write = String.ofList (Json.spaced (fun _ => []) s.toJson.tokens) ∧
    ∀ gaps : Nat → List Char, (∀ n, ∀ c ∈ gaps n, Json.isBlank c) →
      read? (String.ofList (Json.spaced gaps s.toJson.tokens)) = some s := by
  have hread : ∀ cs, s.toJson.Renders cs → read? (String.ofList cs) = some s := by
    intro cs h
    unfold read?
    rw [String.toList_ofList, Json.ofChars?_of_renders h, Option.bind_some, ofJson?_toJson]
  refine ⟨hread _ (Json.renders_chars _), ?_, ?_⟩
  · rw [Json.spaced_nil]
    rfl
  · intro gaps hgaps
    exact hread _ (Json.renders_spaced hgaps _)

/-- Settings that describe no series, their parameters at the ends of their ranges, are read from their
    text with blanks of all kinds in it. -/
theorem read?_write_extreme :
    read? ("\x7b\"capacity\":0,\"start_index\":-9223372036854775808,\"cancel_poll_interval\":" ++
      "\x7b\"secs\":18446744073709551615,\"nanos\":999999999\x7d\x7d") =
      some ⟨0, -9223372036854775808, ⟨18446744073709551615, 999999999⟩⟩ ∧
    read? ("\r\n\t \x7b \"capacity\" : 0 , \"start_index\" : -9223372036854775808 , \"cancel_poll_interval\" : " ++
      "\x7b \"secs\" : 18446744073709551615 , \"nanos\" : 999999999 \x7d \x7d ") =
      some ⟨0, -9223372036854775808, ⟨18446744073709551615, 999999999⟩⟩ := by
  let gaps : Nat → List Char := fun n => if n = 0 then ['\r', '\n', '\t', ' '] else [' ']
  have hgaps : ∀ n, ∀ c ∈ gaps n, Json.isBlank c := by
    intro n
    cases n with
    | zero => exact List.all_eq_true.mp (by decide)
    | succ n => exact List.all_eq_true.mp (rfl : List.all [' '] Json.isBlank = true)
  obtain ⟨hplain, -, hspaced⟩ := read?_write ⟨0, -9223372036854775808, ⟨18446744073709551615, 999999999⟩⟩
  constructor
  · rw [← hplain]
    exact congrArg read? (by decide +kernel)
  · rw [← hspaced gaps hgaps]
    exact congrArg read? (by decide +kernel)

end Settings

end Chronicle
