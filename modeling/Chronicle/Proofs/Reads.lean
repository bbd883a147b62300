/-
  Chronicle.Proofs.Reads — a series refines an append-only log.

  The state is any that a series reaches, however the calls of its threads were mixed;
  the log is what was appended on the way (`System.log`), from the first index on. What a
  read made now is answered, or that it would block, is read off the log and the number
  of slots.

  Proved: `reads_refine_log`, for every view, index and limit. A read of an index that is
  not there yet blocks unless its flag is raised; while nobody raises one, it blocks
  (`down_of_run`).
-/

import Chronicle.Proofs.System.Ask
import Chronicle.Proofs.System.Coherence

namespace Chronicle

variable {α : Type}

/-! ## Flags nobody raises -/

def Flags.Down (f : Flags) : Prop := true ∉ f.raised

namespace Flags.Down

variable {f : Flags}

theorem isRaised (h : f.Down) (n : Nat) : f.isRaised n = false := by
  unfold Flags.isRaised
  split
  · rename_i k _
    cases hk : f.raised[k]? with
    | none => simp [hk]
    | some b =>
      cases b with
      | false => simp [hk]
      | true => exact absurd (List.mem_of_getElem? hk) h
  · rfl

theorem after (h : f.Down) {a : FlagAction} (ha : ∀ n, a ≠ .raise n) : (f.after a).Down := by
  cases a with
  | fresh => simpa [Down, Flags.after, fresh] using h
  | clone n => simp only [Flags.after, clone]; split <;> exact h
  | raise n => exact absurd rfl (ha n)
  | lower n =>
    simp only [Flags.after, set]
    split
    · intro hmem
      rcases List.mem_or_eq_of_mem_set hmem with hmem | e
      · exact h hmem
      · cases e
    · exact h
  | look n => exact h

end Flags.Down

/-- The schedule raises no flag. -/
def Calm (moves : List (Move α)) : Prop := ∀ t n, .call t (.flag (.raise n)) ∉ moves

namespace System

variable {o : Opening} {memory : Memory} {clock : Clock} {now : Nat} {s₀ s s' : System α} {moves : List (Move α)}

theorem down_of_run (hd : s.flags.Down) (hp : ∀ t c n, s.phase t = .ready c → c.request ≠ .flag (.raise n))
    (hm : Calm moves) (hr : s.run? moves = some s') : s'.flags.Down := by
  suffices h : s'.flags.Down ∧ ∀ t c n, s'.phase t = .ready c → c.request ≠ .flag (.raise n) from h.1
  refine run_invariant (I := fun u => u.flags.Down ∧ ∀ t c n, u.phase t = .ready c → c.request ≠ .flag (.raise n))
    ?_ ⟨hd, hp⟩ hr
  rintro u m u' hmem hs ⟨hdown, hready⟩
  refine ⟨?_, fun t c n h => ?_⟩
  · rcases hs.flags with e | ⟨t, c, a, rfl, hphase, hq, e⟩
    · rw [e]; exact hdown
    · rw [e]
      exact hdown.after fun n ha => hready t c n hphase (by rw [hq, ha])
  · rcases hs.ready h with h | rfl
    · exact hready t c n h
    · intro hq
      rw [hq] at hmem
      exact hm t n hmem

/-- The series refines an append-only log. -/
theorem reads_refine_log (ho : (o.run memory clock now).2 = .opened s₀) (hr : s₀.run? moves = some s) :
    s.ring.newest = o.settings.start + (s₀.log moves).length - 1 ∧
    s.ring.oldest = max o.settings.start (o.settings.start + (s₀.log moves).length - o.settings.capacity.toNat) ∧
    ∀ (t : Nat) (view : View) (i : Int) (limit : Limit), s.phase t = .idle → s.holder = none →
      (i < s.ring.oldest → s.Answers t (.read view i limit) (.failed (.evicted i s.ring.oldest))) ∧
      (s.ring.oldest ≤ i → i ≤ s.ring.newest → ∃ (k : Nat) (x : Sample α) (a : Answer α),
        i = o.settings.start + k ∧ (s₀.log moves)[k]? = some x ∧ view.Shows x a ∧
          s.Answers t (.read view i limit) a) ∧
      (s.ring.newest < i → limit.raised s.flags = false → s.Blocks t (.read view i limit)) ∧
      (s.ring.newest < i → limit.raised s.flags = true →
        s.Answers t (.read view i limit) (.failed (.cancelled i))) ∧
      (s.ring.newest < i → Calm moves → s.Blocks t (.read view i limit)) := by
  have h := Coherent.of_reached ho hr
  have hw := h.window
  have hcap := h.capacity
  rw [settings_of_reached ho hr] at hw hcap
  refine ⟨hw.newest_eq, by rw [hw.oldest_eq, hcap], fun t view i limit hi hh => ?_⟩
  have hle := hw.oldest_le_newest_succ
  have hblocks : s.ring.newest < i → limit.raised s.flags = false → s.Blocks t (.read view i limit) :=
    fun hn hf => blocks hi hh rfl (not_refused_of_le (by omega)) hn hf
  refine ⟨?_, ?_, hblocks, ?_, ?_⟩
  · intro hlt
    exact answers_evicted hi hh rfl rfl (by simpa [Ring.evicted] using hlt)
  · intro hoi hin
    obtain ⟨k, x, hk, hx, hv⟩ := hw.verdict_read hoi hin view limit
    exact ⟨k, x, _, hk, hx, hv, answers_served hi hh rfl (not_refused_of_le hoi) hin⟩
  · intro hn hf
    cases limit with
    | cancellable f d => exact answers_cancelled hi hh rfl (not_refused_of_le (by omega)) hn rfl hf
    | _ => cases hf
  · intro hn hm
    refine hblocks hn ?_
    obtain ⟨-, ring, -, rfl⟩ := Opening.eq_initial_of_opened ho
    have hdown : s.flags.Down := by
      refine down_of_run ?_ ?_ hm hr
      · simp [initial, Flags.Down, Flags.one, Flags.fresh, Flags.empty]
      · intro t c n hp
        simp [phase] at hp
    cases limit with
    | cancellable f d => exact hdown.isRaised f
    | _ => rfl

/-- Three appends to two slots from −1 on: the first is gone, the last is there for every view, the
    next is waited for. -/
theorem reads_refine_log_lapped :
    ∃ s : System Nat, timed.run? (appendAlone 0 10 ++ appendAlone 0 20 ++ appendAlone 0 30) = some s ∧
      s.ring.newest = 1 ∧ s.ring.oldest = 0 ∧
      s.Answers 0 (.read .value (-1) .forever) (.failed (.evicted (-1) 0)) ∧
      s.Answers 0 (.read .value 1 (.within (.millis 5))) (.value 30) ∧
      s.Answers 0 (.read .sample 1 .forever) (.sample ⟨30, 30.0⟩) ∧
      s.Answers 0 (.read .stampMs 1 .forever) (.stampMs 30.0) ∧
      s.Answers 0 (.read .stampS 1 (.cancellable 0 none)) (.stampS (30.0 / 1000.0)) ∧
      s.Blocks 0 (.read .value 2 (.cancellable 0 none)) := by
  have hrun : (timed.run? (appendAlone 0 10 ++ appendAlone 0 20 ++ appendAlone 0 30)).any
      (fun s => (s.phase 0).isIdle && s.holder.isNone && !s.flags.isRaised 0) = true := by decide +kernel
  obtain ⟨s, hr, hs⟩ := exists_run hrun
  simp only [Bool.and_eq_true, Option.isNone_iff_eq_none, Bool.not_eq_true'] at hs
  obtain ⟨⟨hidle, hfree⟩, hdown⟩ := hs
  have hlog : timed.log (appendAlone 0 10 ++ appendAlone 0 20 ++ appendAlone 0 30) =
      [⟨10, 10.0⟩, ⟨20, 20.0⟩, ⟨30, 30.0⟩] := rfl
  obtain ⟨hn, ho, hread⟩ := reads_refine_log timed_opened hr
  rw [hlog] at hn ho
  replace hn : s.ring.newest = 1 := hn
  replace ho : s.ring.oldest = 0 := ho
  obtain ⟨hevicted, -⟩ := hread 0 .value (-1) .forever (Phase.eq_idle hidle) hfree
  obtain ⟨-, -, hblocks, -⟩ := hread 0 .value 2 (.cancellable 0 none) (Phase.eq_idle hidle) hfree
  have hserved : ∀ view limit, ∃ a, view.Shows ⟨30, 30.0⟩ a ∧ s.Answers 0 (.read view 1 limit) a := by
    intro view limit
    obtain ⟨-, hserved, -⟩ := hread 0 view 1 limit (Phase.eq_idle hidle) hfree
    obtain ⟨k, x, a, hk, hx, ha, hanswer⟩ := hserved (by omega) (by omega)
    obtain rfl : k = 2 := by change (1 : Int) = -1 + k at hk; omega
    rw [hlog] at hx
    cases hx
    exact ⟨a, ha, hanswer⟩
  obtain ⟨_, rfl, hvalue⟩ := hserved .value (.within (.millis 5))
  obtain ⟨_, rfl, hsample⟩ := hserved .sample .forever
  obtain ⟨_, rfl, hstampMs⟩ := hserved .stampMs .forever
  obtain ⟨_, rfl, hstampS⟩ := hserved .stampS (.cancellable 0 none)
  rw [ho] at hevicted
  exact ⟨s, hr, hn, ho, hevicted (by decide), hvalue, hsample, hstampMs, hstampS, hblocks (by omega) hdown⟩

end System

end Chronicle
