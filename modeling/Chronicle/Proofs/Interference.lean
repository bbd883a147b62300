/-
  Chronicle.Proofs.Interference — calls that look are not seen by anybody else.

  A read, a wait or any other request that looks changes nothing but its own thread and the lock,
  whether it succeeds, is refused, runs out of time or is cancelled; a request that marks changes
  the mark as well. So a schedule goes the same way without them, in the same time
  (`leaves_of_run`). And without the time they took: where calls are made one after another and
  the clock does not follow the time, each comes to the same, but for how long it waited
  (`sameBut_of_oneByOne`).

  Proved: `readers_do_not_interfere`.
-/

import Chronicle.Proofs.Raised
import Chronicle.Proofs.System.Omitted
import Chronicle.Proofs.System.Solo

namespace Chronicle

variable {α : Type}

namespace System

variable {o : Opening} {memory : Memory} {clock : Clock} {now : Nat} {s₀ s : System α} {moves : List (Move α)}

/-- A schedule without calls that look leaves the same series and the same replies to all other calls,
    and one without calls that mark the same but for the mark and what is told of it; no move of a call
    that looks changes anything but its thread and the lock; and of calls made one after another, each
    is told the same without those before it that look, whatever time it waits. -/
theorem readers_do_not_interfere (ho : (o.run memory clock now).2 = .opened s₀) (hr : s₀.run? moves = some s) :
    (∀ d : Omission α, ∃ s₂, s₀.run? (s₀.gather d.stays? moves) = some s₂ ∧ d.Leaves s s₂ ∧
      (¬ d.marks → s₂.ring = s.ring ∧ ∀ t, (s₂.thread t).replies = d.rest t (s.thread t).replies)) ∧
    (∀ t q m s', s.move? m = some s' → m.mover? = some t → s.request? m = some q → q.looks = true →
      s.Untouched t s') ∧
    ((∀ n a b, clock n a = clock n b) → ∀ (l : List (Bool × Reply α)) l₂ s' s₂,
      s.OneByOne (l.map (·.2)) s' → s.OneByOne l₂ s₂ →
      (∀ x ∈ l, x.1 = false → x.2.call.request.looks = true ∨ ∃ i, x.2.call.request = .tag i) →
      List.Forall₂ (fun r r₂ => r₂.call.request = r.call.request) (staying l) l₂ →
      s'.SameBut (omitsMark l) s₂ ∧
      List.Forall₂ (fun r r₂ => r.call.request.SameBut (omitsMark l) r.answer.untimed r₂.answer.untimed) (staying l) l₂) := by
  have hc := Coherent.of_reached ho hr
  refine ⟨?_, ?_, ?_⟩
  · intro d
    have hfresh : ∀ t, s₀.thread t = {} := by
      obtain ⟨-, ring, -, rfl⟩ := Opening.eq_initial_of_opened ho
      intro t
      exact thread_initial ..
    obtain ⟨s₂, hr₂, hleaves⟩ := Omission.leaves_of_run d hfresh (Coherent.of_opened ho) hr
    refine ⟨s₂, hr₂, hleaves, fun hm => ⟨hleaves.ring.same hm, fun t => ?_⟩⟩
    have hsame := (hleaves.replies t).imp fun _ _ h => h.eq hm
    exact (List.forall₂_eq_eq_eq ▸ hsame).symm
  · intro t q m s' hm hmover hq hl
    exact hc.untouched_of_looks (step_of_move? hm) hmover hq hl
  · intro hclock l l₂ s' s₂ hrun hrun₂ hl hsame
    have htimeless : ∀ n a b, s.clock n a = s.clock n b := by
      obtain ⟨-, ring, -, rfl⟩ := Opening.eq_initial_of_opened ho
      rw [run_clock hr]
      exact hclock
    refine sameBut_of_oneByOne (.refl _ s) hc hc htimeless hrun hrun₂ ?_ hsame
    intro x hx hout
    refine (hl x hx hout).imp_right ?_
    rintro ⟨i, hi⟩
    exact ⟨⟨x, hx, hout, i, hi⟩, i, hi⟩

def lookers (t : Nat) : Omission α where
  omits u _ q := u == t && q.looks
  harmless _ _ _ h := Or.inl (Bool.and_eq_true_iff.mp h).2

theorem not_marks_lookers (t : Nat) : ¬ (lookers t : Omission α).marks := by
  rintro ⟨u, k, i, h⟩
  cases (Bool.and_eq_true_iff.mp h).2

/-- A reader waits for an index that does not come, -/
def waitsInVain : List (Move Nat) :=
  List.flatten
    [[.elapse 0, .call 1 (.read .value 5 (.within (.millis 1)))], List.replicate 3 (.step 1),
      [.elapse 1000000, .runOut 1, .step 1, .step 1]]

/-- or for which another comes while it waits. -/
def wokenInVain : List (Move Nat) :=
  List.flatten
    [[.call 1 (.read .value 5 (.within (.millis 1)))], List.replicate 3 (.step 1), appendAlone 0 8,
      List.replicate 3 (.step 1), [.elapse 1000000, .runOut 1, .step 1, .step 1],
      [.call 0 .changedSinceTag, .step 0, .step 0]]

/-- The same without the reader. -/
def unread : List (Move Nat) :=
  List.flatten [appendAlone 0 8, [.elapse 1000000, .call 0 .changedSinceTag, .step 0, .step 0]]

/-- Without a reader that waits in vain, and is woken on the way, the series and all other replies are
    the same. Made after it gave up, an append is answered as if it had never asked. -/
theorem readers_do_not_interfere_timed_out :
    (∃ s s₂ : System Nat, small.run? wokenInVain = some s ∧
      (s.thread 1).replies.map (·.answer.fault?) = [some (.timeout 5 (.millis 1))] ∧ small.run? unread = some s₂ ∧
      s₂.ring = s.ring ∧ ∀ t, (s₂.thread t).replies = (lookers 1).rest t (s.thread t).replies) ∧
    ∃ (s s₂ : System Nat) (r r' r₂ : Reply Nat), small.OneByOne [r, r'] s ∧ small.OneByOne [r₂] s₂ ∧
      r.call.request = .read .value 5 (.within (.millis 1)) ∧ r'.call.request = .append 8 ∧
      r₂.call.request = .append 8 ∧ s₂.ring = s.ring ∧ r₂.answer.untimed = r'.answer.untimed := by
  refine ⟨?_, ?_⟩
  · have hrun : (small.run? wokenInVain).any
        (fun s => decide ((s.thread 1).replies.map (·.answer.fault?) = [some (.timeout 5 (.millis 1))])) = true := by
      decide +kernel
    have hstays : small.gather (lookers 1).stays? wokenInVain = unread := by decide +kernel
    obtain ⟨s, hr, hs⟩ := exists_run hrun
    obtain ⟨homitted, -⟩ := readers_do_not_interfere small_opened hr
    obtain ⟨s₂, hr₂, -, hsame⟩ := homitted (lookers 1)
    obtain ⟨hring, hreplies⟩ := hsame (not_marks_lookers 1)
    exact ⟨s, s₂, hr, of_decide_eq_true hs, hstays ▸ hr₂, hring, hreplies⟩
  · have hrun : (small.run? waitsInVain).any (fun u => (u.phase 1).isIdle &&
        (u.run? (.elapse 0 :: appendAlone 0 8)).any fun s => (s.phase 0).isIdle) = true := by decide +kernel
    have hrun₂ : (small.run? (.elapse 0 :: appendAlone 0 8)).any (fun s => (s.phase 0).isIdle) = true := by decide +kernel
    obtain ⟨u, hu, hidle⟩ := exists_run hrun
    simp only [Bool.and_eq_true] at hidle
    obtain ⟨s, hs, hidle'⟩ := exists_run hidle.2
    obtain ⟨s₂, hs₂, hidle₂⟩ := exists_run hrun₂
    have htimeless : ∀ n a b, small.clock n a = small.clock n b := fun _ _ _ => rfl
    have hc := Coherent.of_opened small_opened
    have hcu : u.Coherent _ := hc.of_run hu
    obtain ⟨r, hq, hr⟩ := hc.seesThrough htimeless hu (by decide) (Phase.eq_idle hidle.1)
    obtain ⟨r', hq', hr'⟩ := hcu.seesThrough (by rw [run_clock hu]; exact htimeless) hs (by decide) (Phase.eq_idle hidle')
    obtain ⟨r₂, hq₂, hr₂⟩ := hc.seesThrough htimeless hs₂ (by decide) (Phase.eq_idle hidle₂)
    have hone : small.OneByOne [r, r'] s := .cons 1 hr (.cons 0 hr' (.nil s))
    have hone₂ : small.OneByOne [r₂] s₂ := .cons 0 hr₂ (.nil s₂)
    have hstart : small.run? [] = some small := rfl
    obtain ⟨-, -, hturns⟩ := readers_do_not_interfere small_opened hstart
    obtain ⟨hsystems, hanswers⟩ := hturns htimeless [(false, r), (true, r')] [r₂] s s₂ hone hone₂ (by simp [hq, Request.looks])
      (.cons (by rw [hq₂, hq']) .nil)
    have hmark : ¬ omitsMark [(false, r), (true, r')] := by simp [omitsMark, hq]
    cases hanswers with
    | cons hanswer _ =>
      rcases hanswer with hanswer | ⟨hm, -⟩
      · exact ⟨s, s₂, r, r', r₂, hone, hone₂, hq, hq', hq₂, hsystems.ring.same hmark, hanswer⟩
      · exact absurd hm hmark

end System

end Chronicle
