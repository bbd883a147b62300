/-
  Chronicle.Proofs.Faults — the text of a fault tells which fault it is.

  A text is fixed words around the fields of the fault. The first character tells the cause, so
  two texts that are the same have the same words with the fields between them. An index ends
  at the words after it, which do not begin with a digit, and a duration ends itself; so both
  texts are followed from left to right, field by field.

  Proved: `texts_tell_apart`.
-/

import Chronicle.Fault
import Chronicle.Proofs.Duration.Delimited

namespace Chronicle.ReadFault

open Decimal (ofInt_inj ofInt_append_inj)
open Duration (chars_append_inj)

theorem messageChars_inj {e f : ReadFault} (h : e.messageChars = f.messageChars) : e = f := by
  unfold messageChars at h
  cases e <;> cases f <;> simp only [List.append_assoc] at h
  case evicted.evicted i o j p =>
    obtain ⟨hindex, hrest⟩ := ofInt_append_inj (by simp) (by simp) (List.append_cancel_left h)
    rw [hindex, ofInt_inj (List.append_cancel_left hrest)]
  case timeout.timeout i w j v =>
    obtain ⟨hwaited, hrest⟩ := chars_append_inj (List.append_cancel_left h)
    rw [hwaited, ofInt_inj (List.append_cancel_left hrest)]
  case cancelled.cancelled i j =>
    obtain ⟨hindex, -⟩ := ofInt_append_inj (by simp) (by simp) (List.append_cancel_left h)
    rw [hindex]
  -- two causes: the first words differ
  all_goals simp at h

theorem debugChars_inj {e f : ReadFault} (h : e.debugChars = f.debugChars) : e = f := by
  unfold debugChars at h
  cases e <;> cases f <;> simp only [List.append_assoc] at h
  case evicted.evicted i o j p =>
    obtain ⟨hindex, hrest⟩ := ofInt_append_inj (by simp) (by simp) (List.append_cancel_left h)
    obtain ⟨holdest, -⟩ := ofInt_append_inj (by simp) (by simp) (List.append_cancel_left hrest)
    rw [hindex, holdest]
  case timeout.timeout i w j v =>
    obtain ⟨hindex, hrest⟩ := ofInt_append_inj (by simp) (by simp) (List.append_cancel_left h)
    obtain ⟨hwaited, -⟩ := chars_append_inj (List.append_cancel_left hrest)
    rw [hindex, hwaited]
  case cancelled.cancelled i j =>
    obtain ⟨hindex, -⟩ := ofInt_append_inj (by simp) (by simp) (List.append_cancel_left h)
    rw [hindex]
  all_goals simp at h

/-- No two faults share a message, and no two share a description of their fields. -/
theorem texts_tell_apart (e f : ReadFault) : (e.message = f.message ↔ e = f) ∧ (e.debug = f.debug ↔ e = f) := by
  refine ⟨⟨fun h => ?_, congrArg message⟩, ⟨fun h => ?_, congrArg debug⟩⟩
  · exact messageChars_inj (String.ofList_inj.mp h)
  · exact debugChars_inj (String.ofList_inj.mp h)

end Chronicle.ReadFault
