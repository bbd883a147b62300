/-
  Chronicle.Proofs.System.Looks — requests that only look, and what else leaves no trace but a mark.

  A request that only looks (`Request.looks`) changes neither the series nor a flag, however its
  wait ends; a request that marks an index changes the mark and nothing else. So whoever makes
  neither of them does the same before and after.

  `r.SameBut marks r₂`: two series are the same, or, if `marks` holds, the same but for the mark;
  `q.SameBut marks a a₂` is what a request is told by two such series, and `s.SameBut marks s₂` two
  systems with such series and with the same flags and readings, whatever the threads do.

  Proved: a step of a call that only looks leaves all but its own thread and the lock as it was
  (`Coherent.untouched_of_looks`), and one of a call that marks leaves all but the mark
  (`Coherent.untouched_but_mark`); series that are the same but for the mark push, serve and perform the
  same (`SameBut.push`, `SameBut.serve`, `SameBut.perform`).
-/

import Chronicle.Proofs.System.Unseen
import Chronicle.Proofs.System.Wait

namespace Chronicle

variable {α : Type}

/-- A request that changes neither the series nor a flag. -/
def Request.looks : Request α → Bool
  | .append _ | .tag _ => false
  | .flag (.look _) => true
  | .flag _ => false
  | _ => true

/-- What two series that differ in the mark tell of it: whether anything was pushed since, and a text
    that is the same but for the number in the field `tagged`. -/
inductive Request.TellsMark : Request α → Answer α → Answer α → Prop
  | changed (b b₂ : Bool) : TellsMark .changedSinceTag (.truth b) (.truth b₂)
  | described (style : Style) (before after : String) (i j : Int) :
      TellsMark (.describe style) (.text (before ++ "tagged: " ++ String.ofList (Decimal.ofInt i) ++ after))
        (.text (before ++ "tagged: " ++ String.ofList (Decimal.ofInt j) ++ after))

/-- The answers are the same, or, if `marks` holds, tell of two marks. -/
def Request.SameBut (marks : Prop) (q : Request α) (a a₂ : Answer α) : Prop := a₂ = a ∨ marks ∧ q.TellsMark a a₂

namespace Ring

/-- The series are the same, or, if `marks` holds, the same but for the mark. -/
structure SameBut {σ : Type} (marks : Prop) (r r₂ : Ring σ) : Prop where
  marked : ∃ i, r₂ = r.tag i
  same : ¬ marks → r₂ = r

section

variable {σ : Type} {marks : Prop} {r r₂ r' : Ring σ} {i : Int}

theorem SameBut.refl (marks : Prop) (r : Ring σ) : r.SameBut marks r := ⟨⟨r.tagged, rfl⟩, fun _ => rfl⟩

/-- A mark is no more than a mark. -/
theorem SameBut.of_tag (hm : marks) (h : r.SameBut marks r₂) (i : Int) : (r.tag i).SameBut marks r₂ := by
  obtain ⟨j, rfl⟩ := h.marked
  exact ⟨⟨j, rfl⟩, fun hn => absurd hm hn⟩

/-- Marked again, they are the same. -/
theorem SameBut.tag (h : r.SameBut marks r₂) (i : Int) : (r.tag i).SameBut marks (r₂.tag i) := by
  obtain ⟨j, rfl⟩ := h.marked
  exact .refl marks (r.tag i)

theorem SameBut.oldest (h : r.SameBut marks r₂) : r₂.oldest = r.oldest := by
  obtain ⟨j, rfl⟩ := h.marked
  rfl

theorem SameBut.newest (h : r.SameBut marks r₂) : r₂.newest = r.newest := by
  obtain ⟨j, rfl⟩ := h.marked
  rfl

theorem SameBut.evicted (h : r.SameBut marks r₂) (i : Int) : r₂.evicted i = r.evicted i := by
  obtain ⟨j, rfl⟩ := h.marked
  rfl

/-- A push does not look at the mark, and keeps it. -/
theorem push_tag (r : Ring σ) (i : Int) (x : σ) :
    (r.tag i).push x = match r.push x with
      | .ok d r' => .ok d (r'.tag i)
      | .error p r' => .error p (r'.tag i) := by
  have hfull : ∀ n, (r.tag i).overfull n = r.overfull n := fun _ => rfl
  rw [push_eq_match, push_eq_match, show (r.tag i).newest = r.newest from rfl,
    show (r.tag i).oldest = r.oldest from rfl]
  cases Index.sum r.newest 1 with
  | error p => rfl
  | ok newest =>
    simp only [hfull]
    cases r.overfull newest with
    | error p => rfl
    | ok full =>
      cases full with
      | false => rfl
      | true => cases Index.sum r.oldest 1 <;> rfl

theorem SameBut.push (h : r.SameBut marks r₂) {x : σ} {d : Int × Option σ} (he : r.push x = .ok d r') :
    ∃ r₂', r₂.push x = .ok d r₂' ∧ r'.SameBut marks r₂' := by
  obtain ⟨j, rfl⟩ := h.marked
  have hsame := push_tag r j x
  rw [he] at hsame
  refine ⟨r'.tag j, hsame, ⟨j, rfl⟩, fun hn => ?_⟩
  rw [h.same hn, he] at hsame
  exact (EStateM.Result.ok.inj hsame).2.symm

theorem SameBut.push_error (h : r.SameBut marks r₂) {x : σ} {p : Panic} (he : r.push x = .error p r') :
    ∃ r₂', r₂.push x = .error p r₂' ∧ r'.SameBut marks r₂' := by
  obtain ⟨j, rfl⟩ := h.marked
  have hsame := push_tag r j x
  rw [he] at hsame
  refine ⟨r'.tag j, hsame, ⟨j, rfl⟩, fun hn => ?_⟩
  rw [h.same hn, he] at hsame
  exact (EStateM.Result.error.inj hsame).2.symm

/-- The mark is in one place of the text, after its name. -/
theorem describe_tag (r : Ring σ) (style : Style) :
    ∃ before after, ∀ i, (r.tag i).describe style =
      before ++ "tagged: " ++ String.ofList (Decimal.ofInt i) ++ after := by
  have hname : "tagged" ++ ": " = "tagged: " := by decide
  cases style with
  | line =>
    refine ⟨"TimeSeries \x7b " ++ ("capacity" ++ ": " ++ String.ofList (Decimal.ofNat r.capacity) ++ ", " ++
      ("oldest" ++ ": " ++ String.ofList (Decimal.ofInt r.oldest)) ++ ", " ++
      ("newest" ++ ": " ++ String.ofList (Decimal.ofInt r.newest)) ++ ", "), " \x7d", fun i => ?_⟩
    have hjoin : ∀ a b c d : String, ", ".intercalate [a, b, c, d] = a ++ ", " ++ b ++ ", " ++ c ++ ", " ++ d :=
      fun _ _ _ _ => rfl
    rw [← hname]
    show _ ++ ", ".intercalate ((r.tag i).fields.map _) ++ _ = _
    simp only [fields, tag, List.map_cons, List.map_nil, hjoin, String.append_assoc]
  | block =>
    refine ⟨"TimeSeries \x7b\n" ++ ("    " ++ "capacity" ++ ": " ++ String.ofList (Decimal.ofNat r.capacity) ++ ",\n" ++
      ("    " ++ "oldest" ++ ": " ++ String.ofList (Decimal.ofInt r.oldest) ++ ",\n") ++
      ("    " ++ "newest" ++ ": " ++ String.ofList (Decimal.ofInt r.newest) ++ ",\n") ++ "    "), ",\n\x7d",
      fun i => ?_⟩
    have hjoin : ∀ a b c d : String, String.join [a, b, c, d] = a ++ b ++ c ++ d := by simp [String.join]
    rw [← hname]
    show _ ++ String.join ((r.tag i).fields.map _) ++ _ = _
    simp only [fields, tag, List.map_cons, List.map_nil, hjoin, String.append_assoc]
    rfl

end

variable {marks : Prop} {r r₂ : Ring (Sample α)}

theorem SameBut.serve (h : r.SameBut marks r₂) (q : Request α) : r₂.serve q = r.serve q := by
  obtain ⟨j, rfl⟩ := h.marked
  cases q with
  | edge which time => cases which <;> rfl
  | _ => rfl

theorem SameBut.perform (h : r.SameBut marks r₂) (start : Int) (q : Request α) :
    (r.perform start q).1.SameBut marks (r₂.perform start q).1 ∧
      q.SameBut marks (r.perform start q).2 (r₂.perform start q).2 := by
  by_cases hm : marks
  · obtain ⟨j, rfl⟩ := id h.marked
    cases q with
    | tag i => exact ⟨h.tag i, Or.inl rfl⟩
    | changedSinceTag => exact ⟨h, Or.inr ⟨hm, .changed _ _⟩⟩
    | describe style =>
      obtain ⟨before, after, htext⟩ := describe_tag r style
      have hself : r.describe style = _ := htext r.tagged
      refine ⟨h, Or.inr ⟨hm, ?_⟩⟩
      show Request.TellsMark _ (.text (r.describe style)) (.text ((r.tag j).describe style))
      rw [hself, htext j]
      exact .described style before after r.tagged j
    | _ => exact ⟨h, Or.inl rfl⟩
  · rw [h.same hm]
    exact ⟨.refl marks _, Or.inl rfl⟩

end Ring

namespace System

/-- The systems have series that are the same but for the mark, and the same flags and readings. -/
structure SameBut (marks : Prop) (s s₂ : System α) : Prop where
  settings : s₂.settings = s.settings
  clock : s₂.clock = s.clock
  ring : s.ring.SameBut marks s₂.ring
  readings : s₂.readings = s.readings
  flags : s₂.flags = s.flags

def request? (s : System α) : Move α → Option (Request α)
  | .call _ q => some q
  | .step t | .runOut t | .stir t => (s.phase t).call?.map (·.request)
  | .elapse _ => none

variable {marks : Prop} {s s' s₂ : System α} {t : Nat} {q : Request α} {m : Move α} {log : List (Sample α)}

theorem SameBut.refl (marks : Prop) (s : System α) : s.SameBut marks s := ⟨rfl, rfl, .refl marks s.ring, rfl, rfl⟩

theorem SameBut.answerFree (h : s.SameBut marks s₂) (q : Request α) : s₂.answerFree q = s.answerFree q := by
  cases q <;> simp only [System.answerFree, h.settings, h.flags]

/-! ## Calls that look, and calls that mark -/

/-- A step of a call that looks or marks changes its thread, the lock, and what it marks. -/
theorem Coherent.untouched_but_mark (h : s.Coherent log) (hs : Step s m s') (hm : m.mover? = some t)
    (hq : s.request? m = some q) (hl : q.looks = true ∨ ∃ i, q = .tag i) :
    { s with ring := s'.ring }.Untouched t s' ∧ (s'.ring = s.ring ∨ ∃ i, q = .tag i ∧ s'.ring = s.ring.tag i) := by
  have hf := h.fits t
  have noAppend : ∀ v, q ≠ .append v := by
    rintro v rfl
    rcases hl with hl | ⟨i, hl⟩ <;> cases hl
  cases hs with
  | elapse time => cases hm
  | call u q' hp =>
    cases hm
    exact ⟨untouched_become _, Or.inl rfl⟩
  | begin u c i hp | plan u c w f d hp | again u c w r hp | runOut u c w wake hp | stir u c w wake hp =>
    cases hm
    exact ⟨untouched_become _, Or.inl rfl⟩
  | enter u c hp | relock u c w r hp =>
    cases hm
    exact ⟨(untouched_setHolder _).trans (untouched_become _), Or.inl rfl⟩
  | sleep u c w hp | slice u c w hp =>
    cases hm
    exact ⟨(untouched_setHolder none).trans (untouched_become _), Or.inl rfl⟩
  | refuse u c i hp | serve u c w a hp | lapped u c w e hp | cancel u c w f d hp | expire u c w hp =>
    cases hm
    exact ⟨untouched_reply _ _ _, Or.inl rfl⟩
  | free u c hp hfree =>
    cases hm
    obtain rfl : c.request = q := by simpa [request?, hp, Phase.call?] using hq
    have hflags : (s.answerFree c.request).1 = s.flags := by
      cases hr : c.request with
      | flag a =>
        rw [hr] at hl
        cases a <;> first | rfl | exact absurd hl (by simp [Request.looks])
      | _ => rfl
    rw [hflags]
    exact ⟨⟨rfl, rfl, rfl, rfl, rfl, rfl, fun v hv => by rw [thread_reply, if_neg (Ne.symm hv)]; rfl⟩, Or.inl rfl⟩
  | perform u c hp hne ht =>
    cases hm
    obtain rfl : c.request = q := by simpa [request?, hp, Phase.call?] using hq
    refine ⟨untouched_reply _ _ _, ?_⟩
    cases hr : c.request with
    | tag i => exact Or.inr ⟨i, rfl, rfl⟩
    | append v => exact absurd hr (hne v)
    | _ => exact Or.inl rfl
  | stamp u c v hp hv =>
    cases hm
    obtain rfl : c.request = q := by simpa [request?, hp, Phase.call?] using hq
    exact absurd hv (noAppend v)
  | push u c x r i d hp | overflow u c x e r hp =>
    cases hm
    obtain rfl : c.request = q := by simpa [request?, hp, Phase.call?] using hq
    rw [hp] at hf
    exact absurd hf.2 (noAppend _)
  | unlock u c i hp | notify u c i hp =>
    cases hm
    obtain rfl : c.request = q := by simpa [request?, hp, Phase.call?] using hq
    rw [hp] at hf
    obtain ⟨v, hv⟩ := hf.2.1
    exact absurd hv (noAppend v)

/-- A step of a call that only looks changes its thread and the lock. -/
theorem Coherent.untouched_of_looks (h : s.Coherent log) (hs : Step s m s') (hm : m.mover? = some t)
    (hq : s.request? m = some q) (hl : q.looks = true) : s.Untouched t s' := by
  obtain ⟨hu, hring⟩ := h.untouched_but_mark hs hm hq (Or.inl hl)
  rcases hring with hring | ⟨i, rfl, -⟩
  · rw [hring] at hu
    exact hu
  · cases hl

end System

end Chronicle
