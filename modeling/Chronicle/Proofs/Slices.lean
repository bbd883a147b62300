/-
  Chronicle.Proofs.Slices — a wait cut into slices comes to the same as one that is not.

  A cancellable request looks at its flag once per poll interval, so it sleeps in slices; a
  request with a time sleeps up to its deadline, one without any until it is woken. While
  nobody raises the flag the three differ in nothing but how often they wake: what comes of
  them, and when, is read off the series and the history that it goes through (`prospect`),
  in which neither the poll interval nor the kind of limit has a part.

  Proved: `slices_agree`, for reads of every view and for waits.
-/

import Chronicle.Proofs.System.Attend
import Chronicle.Proofs.System.Coherence

namespace Chronicle

variable {α : Type}

/-! ## Limits -/

theorem deadline?_upTo (deadline : Option Nat) : (Patience.upTo deadline).deadline? = deadline := by
  cases deadline <;> rfl

theorem deadline?_ofTime? (time : Option Duration) (now : Nat) :
    ((Limit.ofTime? time).startingAt now).deadline? = time.bind (Instant.after? now) := by
  cases time with
  | none => rfl
  | some d => rw [Option.bind_some, Limit.ofTime?, Limit.startingAt, deadline?_upTo]

/-- No deadline is before the call. -/
theorem le_deadline {l : Limit} {now d : Nat} (h : (l.startingAt now).deadline? = some d) : now ≤ d := by
  have hafter : ∀ {time}, Instant.after? now time = some d → now ≤ d := by
    intro time h
    have := Instant.eq_of_after? h
    omega
  cases l with
  | forever => cases h
  | within time =>
    simp only [Limit.startingAt, deadline?_upTo] at h
    exact hafter h
  | cancellable f time =>
    simp only [Limit.startingAt, Patience.deadline?] at h
    obtain ⟨time, -, h⟩ := Option.bind_eq_some_iff.mp h
    exact hafter h

theorem raised_ofTime? (flags : Flags) (time : Option Duration) : (Limit.ofTime? time).raised flags = false := by
  cases time <;> rfl

theorem Duration.toNanos_pos {d : Duration} (h : d.isZero = false) : 0 < d.toNanos := by
  obtain ⟨secs, nanos⟩ := d
  simp only [isZero, Bool.and_eq_false_iff, beq_eq_false_iff_ne] at h
  unfold toNanos second
  rcases h with h | h
  · have : secs.toNat ≠ 0 := fun e => h (UInt64.toNat_inj.mp e)
    simp only
    omega
  · have : nanos.val ≠ 0 := fun e => h (Fin.ext e)
    simp only
    omega

namespace System

variable {s s' : System α} {t : Nat} {i : Int} {q : Request α} {history : List (Occurrence α)}

/-! ## What a request comes to -/

/-- What the request, which waits for the index `i`, comes to if it is made now and its thread
    attends to the history: it is told at once if the index is evicted or there. -/
def prospect (s : System α) (q : Request α) (i : Int) (history : List (Occurrence α)) : Option (Answer α × Nat) :=
  if i < s.ring.oldest then some (.failed (.evicted i s.ring.oldest), s.now)
  else if i ≤ s.ring.newest then some (s.ring.verdict q, s.now)
  else s.fate (s.callOf q) (s.waiterOf q i) history

/-- A request that was answered at once has its answer, whatever comes after. -/
theorem comesTo_of_ends {s₁ : System α} {a : Answer α} (hask : s.ask? t q = some s₁) (hu : s.Untouched t s₁)
    (hends : s.Ends t (s.callOf q) a s₁) (hready : s.Ready t history) {deadline : Option Nat}
    (htimely : Timely deadline s.now history) : s.ComesTo t q history (some (a, s.now)) := by
  have hready₁ := hready.untouched hu hends.holder
  have htimely₁ : Timely deadline s₁.now history := by rw [hu.now]; exact htimely
  refine ⟨s₁, hask, exists_attends_of_idle hready₁ htimely₁ hends.phase, fun s' h => ?_⟩
  obtain ⟨hidle, hrep⟩ := h.idle hready₁ htimely₁ hends.phase
  exact ⟨hidle, hrep.trans hends.replies⟩

theorem comesTo_prospect (hi : s.phase t = .idle) (ht : q.target? s.settings.start = some i) (hg : q.guarded = true)
    (hpoll : 0 < s.settings.pollInterval.toNanos) (hdown : q.limit.raised s.flags = false)
    (hwindow : ∃ start log, s.ring.Window start log)
    (hready : s.Ready t history) (htimely : Timely (q.limit.startingAt s.now).deadline? s.now history) :
    s.ComesTo t q history (s.prospect q i history) := by
  have hh := hready.holder
  unfold prospect
  by_cases hev : i < s.ring.oldest
  · obtain ⟨s₁, hask, hu, hends⟩ := ask?_refused hi hh ht hg (by simpa [Ring.evicted] using hev)
    rw [if_pos hev]
    exact comesTo_of_ends hask hu hends hready htimely
  have hentry := not_refused_of_le (q := q) (s := s) (i := i) (by omega)
  rw [if_neg hev]
  by_cases hn : i ≤ s.ring.newest
  · obtain ⟨s₁, hask, hu, hends⟩ := ask?_served hi hh ht hentry hn
    rw [if_pos hn]
    exact comesTo_of_ends hask hu hends hready htimely
  obtain ⟨s₁, hask, hu, hphase, hfree, hrep⟩ := ask?_blocks hi hh ht hentry (by omega) hdown
  rw [if_neg hn]
  have hready₁ := hready.untouched hu hfree
  have htimely₁ : Timely (s.waiterOf q i).patience.deadline? s₁.now history := by rw [hu.now]; exact htimely
  have hdozes : s₁.Dozes t (s.callOf q) (s.waiterOf q i) s.now := by
    refine ⟨by rw [hu.settings]; exact hphase, ?_, ?_, ?_, by rw [hu.ring]; exact hwindow⟩
    · intro k hk
      rw [hu.settings] at hk
      rw [hu.now]
      exact Waiter.le_wakeAt hk fun d hd => le_deadline hd
    · rw [hu.ring]
      show s.ring.newest < i
      omega
    · rw [hu.flags]
      show (q.limit.startingAt s.now).raised s.flags = false
      rw [raised_startingAt, hdown]
  refine ⟨s₁, hask, hdozes.exists_attends (by rw [hu.settings]; exact hpoll) hready₁ htimely₁, fun s' h => ?_⟩
  have hfate := Dozes.fate_of_attends h hdozes hready₁ htimely₁
  rw [hrep, fate_congr hu.clock hu.ring hu.readings] at hfate
  exact hfate

/-! ## One prospect for all limits -/

/-- Two series that stand alike, at one instant. Who is calling them, the flags and the poll
    interval may differ. -/
structure Alike (s s' : System α) : Prop where
  ring : s'.ring = s.ring
  clock : s'.clock = s.clock
  readings : s'.readings = s.readings
  now : s'.now = s.now

/-- The prospect of a read or a wait has nothing to do with its limit. -/
theorem prospect_congr {ask : Limit → Request α} (hask : (∃ view, ask = .read view i) ∨ ask = .await i)
    (h : s.Alike s') (l l' : Limit) (history : List (Occurrence α)) :
    s'.prospect (ask l') i history = s.prospect (ask l) i history := by
  have hverdict : ∀ r : Ring (Sample α), r.verdict (ask l') = r.verdict (ask l) := by
    intro r
    rcases hask with ⟨view, rfl⟩ | rfl <;> rfl
  have hrefusal : ∀ e, (ask l').refusal e = (ask l).refusal e := by
    intro e
    rcases hask with ⟨view, rfl⟩ | rfl
    · rfl
    · cases e <;> rfl
  have hfate : s'.fate (s'.callOf (ask l')) (s'.waiterOf (ask l') i) history =
      s.fate (s.callOf (ask l)) (s.waiterOf (ask l) i) history := by
    simp only [fate, callOf, waiterOf, hverdict, hrefusal, h.ring, h.clock, h.readings, h.now]
  unfold prospect
  rw [hfate, hverdict, h.ring, h.now]

variable {o : Opening} {memory : Memory} {clock : Clock} {now : Nat} {s₀ : System α} {moves : List (Move α)}

theorem pollInterval_pos
    (ho : (o.run memory clock now).2 = .opened s₀) (hr : s₀.run? moves = some s) : 0 < s.settings.pollInterval.toNanos := by
  obtain ⟨hvalid, -⟩ := Opening.eq_initial_of_opened ho
  rw [settings_of_reached ho hr]
  exact Duration.toNanos_pos (Settings.fault?_eq_none_iff.mp hvalid).2.1

/-- A request with a time, one without if it has no deadline, and a cancellable one whose flag
    nobody raises are told the same at the same instant, or sleep, whatever the poll interval. -/
theorem slices_agree (ho : (o.run memory clock now).2 = .opened s₀) (hr : s₀.run? moves = some s) (ask : Limit → Request α)
    (hask : (∃ view, ask = .read view i) ∨ ask = .await i) (time : Option Duration) (hi : s.phase t = .idle)
    (hready : s.Ready t history) (htimely : Timely (time.bind (Instant.after? s.now)) s.now history) :
    s.ComesTo t (ask (.ofTime? time)) history (s.prospect (ask .forever) i history) ∧
    (time.bind (Instant.after? s.now) = none →
      s.ComesTo t (ask .forever) history (s.prospect (ask .forever) i history)) ∧
    ∀ (o' : Opening) (memory' : Memory) (clock' : Clock) (now' : Nat) (s₀' : System α) (moves' : List (Move α))
      (s' : System α) (f : Nat), (o'.run memory' clock' now').2 = .opened s₀' → s₀'.run? moves' = some s' →
      s.Alike s' → s'.phase t = .idle → s'.Ready t history → s'.flags.isRaised f = false →
      s'.ComesTo t (ask (.cancellable f time)) history (s.prospect (ask .forever) i history) := by
  have htarget : ∀ l (start : Int), (ask l).target? start = some i := by
    intro l start
    rcases hask with ⟨view, rfl⟩ | rfl <;> rfl
  have hguarded : ∀ l, (ask l).guarded = true := by
    intro l
    rcases hask with ⟨view, rfl⟩ | rfl <;> rfl
  have hlimit : ∀ l, (ask l).limit = l := by
    intro l
    rcases hask with ⟨view, rfl⟩ | rfl <;> rfl
  -- one prospect for every series that stands alike and every limit with this deadline
  have hsame : ∀ {o' : Opening} {memory' : Memory} {clock' : Clock} {now' : Nat} {s₀' : System α}
      {moves' : List (Move α)} {s' : System α} (l : Limit), (o'.run memory' clock' now').2 = .opened s₀' → s₀'.run? moves' = some s' → s.Alike s' →
      s'.phase t = .idle → s'.Ready t history → l.raised s'.flags = false →
      (l.startingAt s.now).deadline? = time.bind (Instant.after? s.now) →
      s'.ComesTo t (ask l) history (s.prospect (ask .forever) i history) := by
    intro o' memory' clock' now' s₀' moves' s' l ho' hr' halike hi' hready' hdown hdeadline
    have hcomes : s'.ComesTo t (ask l) history _ := comesTo_prospect hi' (htarget l _) (hguarded l)
      (pollInterval_pos ho' hr') (by rw [hlimit]; exact hdown) ⟨_, _, (Coherent.of_reached ho' hr').window⟩ hready'
      (by rw [hlimit, halike.now, hdeadline]; exact htimely)
    rw [prospect_congr hask halike .forever l] at hcomes
    exact hcomes
  have hself : s.Alike s := ⟨rfl, rfl, rfl, rfl⟩
  refine ⟨?_, ?_, ?_⟩
  · exact hsame _ ho hr hself hi hready (raised_ofTime? _ _) (deadline?_ofTime? time s.now)
  · intro hnone
    exact hsame .forever ho hr hself hi hready rfl hnone.symm
  · intro o' memory' clock' now' s₀' moves' s' f ho' hr' halike hi' hready' hdown
    exact hsame (.cancellable f time) ho' hr' halike hi' hready' hdown rfl

/-- The small series, with a poll interval that goes beyond the last instant. -/
def wide : System Nat := .initial ⟨2, -1, .ofNanos Instant.horizon⟩ (.scripted []) ⟨2, ∅, -1, -2, -2⟩ 0

theorem wide_opened : ((Opening.ofSettings ⟨2, -1, .ofNanos Instant.horizon⟩).run .ample (.scripted []) 0).2 =
    .opened wide := rfl

/-- Two appends, after 4 and 23 ms, and a deadline after 25. -/
def twoAppends : List (Occurrence Nat) := [.append 4000000 0 10, .append 23000000 0 20, .deadline 25000000]

/-- A read of the second element of an empty series, with 25 ms to wait: it comes after 23 ms,
    whether the sleep goes up to the deadline, is cut into slices of 10 ms, or is to be cut into
    slices that have no end. -/
theorem slices_agree_in_time :
    Instant.after? wide.now wide.settings.pollInterval = none ∧
    small.ComesTo 1 (.read .value 0 (.within (.millis 25))) twoAppends (some (.value 20, 23000000)) ∧
    small.ComesTo 1 (.read .value 0 (.cancellable 0 (some (.millis 25)))) twoAppends (some (.value 20, 23000000)) ∧
    wide.ComesTo 1 (.read .value 0 (.cancellable 0 (some (.millis 25)))) twoAppends (some (.value 20, 23000000)) := by
  have hdeadline : (some (Duration.millis 25)).bind (Instant.after? small.now) = some 25000000 := by decide
  have hprospect : small.prospect (.read .value 0 .forever) 0 twoAppends = some (.value 20, 23000000) := rfl
  have hready : ∀ {s : System Nat}, s.holder = none → s.phase 0 = .idle → s.Ready 1 twoAppends := by
    intro s hh hi
    refine ⟨hh, fun x hx u hu => ?_⟩
    simp only [twoAppends, List.mem_cons, List.not_mem_nil, or_false] at hx
    rcases hx with rfl | rfl | rfl <;> cases hu <;> exact ⟨by decide, hi⟩
  have htimely : Timely (some 25000000) small.now twoAppends := by simp [Timely, twoAppends, small, initial]
  have hsmall : ∀ t, small.phase t = .idle := fun t => by simp [phase, small]
  have hwide : ∀ t, wide.phase t = .idle := fun t => by simp [phase, wide]
  obtain ⟨hplain, -, hsliced⟩ := slices_agree (t := 1) (i := 0) small_opened run?_nil (.read .value 0)
    (Or.inl ⟨.value, rfl⟩) (some (.millis 25)) (hsmall 1) (hready rfl (hsmall 0)) (by rw [hdeadline]; exact htimely)
  rw [hprospect] at hplain hsliced
  refine ⟨by decide, hplain, ?_, ?_⟩
  · exact hsliced _ _ _ _ _ [] small 0 small_opened rfl ⟨rfl, rfl, rfl, rfl⟩ (hsmall 1) (hready rfl (hsmall 0)) (by decide)
  · exact hsliced _ _ _ _ _ [] wide 0 wide_opened rfl ⟨rfl, rfl, rfl, rfl⟩ (hwide 1) (hready rfl (hwide 0)) (by decide)

end System

end Chronicle
