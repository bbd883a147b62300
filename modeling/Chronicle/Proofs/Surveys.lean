/-
  Chronicle.Proofs.Surveys — what is told of the series as a whole is told of one state of it.

  Some requests wait for any element at all, and are then answered with an end of the history
  or with its newest value, whatever that is by then. They wait for the first index, which may
  be evicted long since: it is pushed all the same, so that from the first push on they find it
  there, however late they get the lock and however little time they have. What they are told
  is read off the series in that one hold of the lock; nothing they ask for can be evicted.

  Proved: with the lock such a request is answered if there is an element (`run?_surveyed`,
  `Coherent.surveyed_of_run`), and falls asleep or runs out of time if there is none
  (`Coherent.dozes`); every reply to one tells of the series as its last step found it
  (`Told.surveyed`). Together: `surveys_show_one_state`.
-/

import Chronicle.Proofs.Lifetime
import Chronicle.Proofs.Shutdown
import Chronicle.Proofs.Slices
import Chronicle.Proofs.Wakeups

namespace Chronicle

variable {α : Type}

/-! ## The requests -/

namespace Request

/-- A request about the series as a whole, for which any element will do. -/
def surveys : Request α → Bool
  | .edge .. | .newestValue => true
  | _ => false

variable {q : Request α}

/-- It waits for the first index, -/
theorem target?_of_surveys (h : q.surveys = true) (start : Int) : q.target? start = some start := by
  cases q <;> first | rfl | cases h

/-- which may be evicted, -/
theorem guarded_of_surveys (h : q.surveys = true) : q.guarded = false := by
  cases q <;> first | rfl | cases h

/-- and looks at no flag. -/
theorem limit_of_surveys (h : q.surveys = true) : ∃ time, q.limit = .ofTime? time := by
  cases q with
  | edge which time => exact ⟨time, rfl⟩
  | newestValue => exact ⟨none, rfl⟩
  | _ => cases h

end Request

/-- A series that has an element retains it, and no more than there are slots. -/
theorem Ring.Window.bounds {σ : Type} {r : Ring σ} {start : Int} {log : List σ} (h : r.Window start log)
    (hne : log ≠ []) :
    start ≤ r.oldest ∧ r.oldest ≤ r.newest ∧ r.newest - r.oldest < r.capacity := by
  have hnewest := h.newest_eq
  have holdest := h.oldest_eq
  have hpos := h.capacity_pos
  have hlength := List.length_pos_iff.mpr hne
  omega

theorem Ring.Window.newest_lt_start {σ : Type} {r : Ring σ} {start : Int} {log : List σ} (h : r.Window start log) :
    r.newest < start ↔ log = [] := by
  have hnewest := h.newest_eq
  rw [← List.length_eq_zero_iff]
  omega

namespace System

variable {s s' u u' : System α} {t : Nat} {c : Call α} {w : Waiter} {i : Int} {log : List (Sample α)}
  {moves : List (Move α)}

theorem Call.Dated.patience_ne {n : Nat} (h : c.Dated n) (hq : c.request.surveys = true) (f : Nat) (d : Option Nat) :
    c.patience ≠ .cancellable f d := by
  obtain ⟨time, hlimit⟩ := Request.limit_of_surveys hq
  rw [h.patience, hlimit]
  cases time with
  | none => rintro ⟨⟩
  | some time =>
    show Patience.upTo _ ≠ _
    cases Instant.after? c.begun time <;> rintro ⟨⟩

/-! ## With the lock -/

section

variable (hq : c.request.surveys = true)

include hq

/-- Whoever has just got the lock looks for the first index. -/
theorem step?_surveying (hp : s.phase t = .entered c) :
    s.step? t = some (s.become t (.looking c ⟨s.settings.start, c.patience, s.now⟩)) := by
  have hg : ¬ (c.request.guarded = true ∧ s.ring.evicted s.settings.start = true) := by
    rw [Request.guarded_of_surveys hq]
    rintro ⟨⟨⟩, -⟩
  rw [step?_entered hp, enter_looking (Request.target?_of_surveys hq _) hg]

/-- It is answered with two steps if there is an element, -/
theorem run?_surveyed (hp : s.phase t = .entered c) (hn : s.settings.start ≤ s.ring.newest) :
    ∃ s', s.run? [.step t, .step t] = some s' ∧ s.Ends t c (s.ring.verdict c.request) s' := by
  let w : Waiter := ⟨s.settings.start, c.patience, s.now⟩
  let v := s.become t (.looking c w)
  have h₁ : s.move? (.step t) = some v := step?_surveying hq hp
  have h₂ : v.move? (.step t) = some (v.look t c w) := step?_looking (by simp [v])
  have hends : v.Ends t c (v.ring.verdict c.request) (v.look t c w) := look_served hn
  exact ⟨_, by rw [run?_cons_of_move? h₁, run?_cons_of_move? h₂]; rfl, hends.of_become⟩

/-- A look while there is none puts it to sleep, -/
theorem Coherent.run?_dozing {v : System α} (h : s.Coherent log) (hs : s.step? t = some v)
    (hp : v.phase t = .looking c w) (hring : v.ring = s.ring) (hrep : (v.thread t).replies = (s.thread t).replies)
    (hn : s.ring.newest < s.settings.start) :
    ∃ s' wake, s.run? [.step t, .step t] = some s' ∧ s'.phase t = .asleep c w wake ∧
      (s'.thread t).replies = (s.thread t).replies := by
  have hstep := step_of_move? (m := .step t) hs
  have hfits : w.For c v.settings.start v.now := by
    have hv := (h.step hstep).fits t
    rwa [hp] at hv
  have htarget := hfits.target_eq (Request.target?_of_surveys hq _)
  rw [hstep.settings] at htarget
  have hlt : v.ring.newest < w.target := by rw [hring]; omega
  have hne : ∀ f d, w.patience ≠ .cancellable f d := by
    rw [hfits.patience]
    exact Call.Dated.patience_ne hfits.dated hq
  have h₂ : v.move? (.step t) = some (v.release.become t (.asleep c w (w.wakeAt v.settings.pollInterval v.now))) := by
    show v.step? t = _
    rw [step?_looking hp, look_sleeps hlt hne]
  refine ⟨_, _, by rw [run?_cons_of_move? (m := .step t) hs, run?_cons_of_move? h₂]; rfl, by simp; rfl, ?_⟩
  rw [thread_become, if_pos rfl]
  exact hrep

/-- whether it has just got the lock or has it again, unless its time has run out. -/
theorem Coherent.dozes (h : s.Coherent log) (hn : s.ring.newest < s.settings.start)
    (hp : s.phase t = .entered c ∨ ∃ w ranOut, s.phase t = .resumed c w ranOut) :
    (∃ s' w wake, s.run? [.step t, .step t] = some s' ∧ s'.phase t = .asleep c w wake ∧
      (s'.thread t).replies = (s.thread t).replies) ∨
    ∃ w s', s.phase t = .resumed c w true ∧ w.expired s.now = true ∧ s.step? t = some s' ∧
      s.Ends t c (c.request.refusal (.timeout s.settings.start (Instant.since w.started s.now))) s' := by
  rcases hp with hp | ⟨w, ranOut, hp⟩
  · obtain ⟨s', wake, hrun, hasleep, hrep⟩ := h.run?_dozing hq (step?_surveying hq hp)
      (w := ⟨s.settings.start, c.patience, s.now⟩) (by simp) rfl (by simp) hn
    exact Or.inl ⟨s', _, wake, hrun, hasleep, hrep⟩
  · have hs := step?_resumed hp
    by_cases hlapse : ranOut = true ∧ w.expired s.now = true ∧ s.ring.newest < w.target
    · have hfits := h.fits t
      rw [hp] at hfits
      have htarget := hfits.1.target_eq (Request.target?_of_surveys hq _)
      obtain ⟨rfl, hexpired, -⟩ := id hlapse
      rw [if_pos hlapse, htarget] at hs
      exact Or.inr ⟨w, _, hp, hexpired, hs, ends_giveUp _⟩
    · rw [if_neg hlapse] at hs
      obtain ⟨s', wake, hrun, hasleep, hrep⟩ := h.run?_dozing hq hs (w := w) (by simp) rfl (by simp) hn
      exact Or.inl ⟨s', w, wake, hrun, hasleep, hrep⟩

/-- Whatever the others do meanwhile, a thread that has the lock while there is an element neither
    sleeps nor gives up. -/
theorem Coherent.surveyed_of_run (h : s.Coherent log) (hn : s.settings.start ≤ s.ring.newest)
    (hp : s.phase t = .entered c ∨ ∃ w ranOut, s.phase t = .resumed c w ranOut) (hr : s.run? moves = some s') :
    (s'.phase t).holds = true ∧ (s'.thread t).replies = (s.thread t).replies ∨
      ∃ newer r, (s'.thread t).replies = newer ++ r :: (s.thread t).replies ∧ r.call = c ∧
        r.answer = s.ring.verdict c.request := by
  let P : Phase α → Prop := fun p => p = .entered c ∨ (∃ w, p = .looking c w) ∨ ∃ w ranOut, p = .resumed c w ranOut
  have hholds : ∀ p, P p → p.holds = true := by
    rintro p (rfl | ⟨w, rfl⟩ | ⟨w, ranOut, rfl⟩) <;> rfl
  refine (run_section (P := P) (A := (· = s.ring.verdict c.request)) h.locked hholds ?_ (hp.imp_right .inr) hr).imp
    (fun hin => ⟨hholds _ hin.2.2, hin.2.1⟩) id
  intro before u u' _ hb hring hu hstep
  have hc := h.of_run hb
  have hfits := hc.fits t
  have htu := Request.target?_of_surveys hq u.settings.start
  have hstart : u.settings.start ≤ u.ring.newest := by rw [hring, run_settings hb]; exact hn
  rcases hu with hu | ⟨w, hu⟩ | ⟨w, ranOut, hu⟩
  · rw [step?_surveying hq hu] at hstep
    cases hstep
    exact Or.inl ⟨rfl, by simp, Or.inr (Or.inl ⟨_, by simp; rfl⟩)⟩
  · rw [hu] at hfits
    have htarget := hfits.target_eq htu
    rw [step?_looking hu] at hstep
    cases hstep
    exact Or.inr ⟨_, by rw [hring], look_served (by omega)⟩
  · rw [hu] at hfits
    have htarget := hfits.1.target_eq htu
    rw [step?_resumed hu, if_neg (by omega)] at hstep
    cases hstep
    exact Or.inl ⟨rfl, by simp, Or.inr (Or.inl ⟨w, by simp⟩)⟩

/-- A step after which it sleeps was taken while there was no element. -/
theorem Coherent.nil_of_dozing (h : s.Coherent log) (hs : s.step? t = some s') {wake : Option Nat}
    (hp : s'.phase t = .asleep c w wake) : log = [] := by
  have hfits := h.fits t
  have htarget : s.ring.newest < w.target := by
    rcases (step_of_move? (m := .step t) hs).asleep hp with hold | ⟨-, hplan | ⟨-, hlt⟩⟩
    · rw [step?_asleep hold] at hs
      cases hs
    · rw [hplan] at hfits
      exact hfits.2.1
    · exact hlt
  have hc' := (h.step (step_of_move? (m := .step t) hs)).fits t
  rw [hp] at hc'
  have hstart := hc'.1.target_eq (Request.target?_of_surveys hq _)
  rw [(step_of_move? (m := .step t) hs).settings] at hstart
  exact h.window.newest_lt_start.mp (by omega)

end

/-! ## What is told -/

/-- It is told by a step of the call itself. -/
theorem Told.call? {a : Answer α} (h : u.Told t c i a) : (u.phase t).call? = some c := by
  cases h with
  | refused hp | served w hp | cancelled w f d hp | timedOut w d deadline hp =>
    rw [hp]
    rfl

/-- A request that surveys the series is told how it stands, if it has an element; else only that the
    time has run out, if there was a limit. -/
theorem Told.surveyed {a : Answer α} (h : u.Told t c u.settings.start a) (hc : u.Coherent log)
    (hq : c.request.surveys = true) :
    log ≠ [] ∧ u.ring.Tells u.settings.start log c.request a ∨
      log = [] ∧ ∃ d waited, c.request.limit.time? = some d ∧ a = .failed (.timeout u.settings.start waited) := by
  cases h with
  | refused _ hg =>
    rw [Request.guarded_of_surveys hq] at hg
    cases hg
  | served w _ hs hn =>
    refine Or.inl ⟨?_, hc.window.tells (Request.target?_of_surveys hq _) hs hn⟩
    rw [ne_eq, ← hc.window.newest_lt_start]
    omega
  | cancelled w f d _ _ hlimit =>
    obtain ⟨time, htime⟩ := Request.limit_of_surveys hq
    rw [hlimit] at htime
    cases time <;> cases htime
  | timedOut w d deadline _ hn hd =>
    refine Or.inr ⟨hc.window.newest_lt_start.mp hn, d, Instant.since w.started u.now, hd, ?_⟩
    cases hreq : c.request with
    | edge which time =>
      rw [hreq] at hd
      cases time with
      | none => cases hd
      | some time => rfl
    | newestValue => rw [hreq] at hd; cases hd
    | _ => rw [hreq] at hq; cases hq

variable {o : Opening} {memory : Memory} {clock : Clock} {now : Nat} {s₀ : System α}

/-- So was every request that surveyed it, with the lock, in the last step of its call. -/
theorem surveyed_of_reached (ho : (o.run memory clock now).2 = .opened s₀) (hr : s₀.run? moves = some s) {r : Reply α}
    (hmem : r ∈ (s.thread t).replies) (hq : r.call.request.surveys = true) :
    ∃ before u u', s₀.EndedBy t r moves before u u' ∧ u.holder = some t ∧ (u.phase t).call? = some r.call ∧
      (s₀.log before ≠ [] ∧ u.ring.Tells o.settings.start (s₀.log before) r.call.request r.answer ∨
        s₀.log before = [] ∧
          ∃ d waited, r.call.request.limit.time? = some d ∧ r.answer = .failed (.timeout o.settings.start waited)) := by
  obtain ⟨before, u, u', hended, htold⟩ := told_of_reached ho hr hmem (Request.target?_of_surveys hq o.settings.start)
  obtain ⟨-, hb, -, -⟩ := id hended
  have hc := Coherent.of_reached ho hb
  refine ⟨before, u, u', hended, htold.holder hc.locked, htold.call?, ?_⟩
  rw [← settings_of_reached ho hb] at htold ⊢
  exact htold.surveyed hc hq

/-- The same state, shown by the newest index and a read of it, and by the newest value. -/
theorem newestValue_eq_read (ho : (o.run memory clock now).2 = .opened s₀) {t₁ t₂ t₃ : Nat} {r₁ r₂ r₃ : Reply α}
    {before₁ before₂ before₃ : List (Move α)} {u₁ u₁' u₂ u₂' u₃ u₃' : System α} {time : Option Duration} {limit : Limit}
    (h₁ : s₀.EndedBy t₁ r₁ moves before₁ u₁ u₁') (h₂ : s₀.EndedBy t₂ r₂ moves before₂ u₂ u₂')
    (h₃ : s₀.EndedBy t₃ r₃ moves before₃ u₃ u₃') (hq₁ : r₁.call.request = .edge .newest time)
    (hq₂ : r₂.call.request = .read .value i limit) (hq₃ : r₃.call.request = .newestValue)
    (ha : r₁.answer = .index i) (hsame₂ : s₀.log before₂ = s₀.log before₁) (hsame₃ : s₀.log before₃ = s₀.log before₁) :
    r₂.answer = r₃.answer := by
  obtain ⟨-, hb₁, hstep₁, hrep₁⟩ := h₁
  obtain ⟨-, hb₂, hstep₂, hrep₂⟩ := h₂
  obtain ⟨-, hb₃, hstep₃, hrep₃⟩ := h₃
  have hc₁ := Coherent.of_reached ho hb₁
  have hc₂ := Coherent.of_reached ho hb₂
  have hc₃ := Coherent.of_reached ho hb₃
  obtain ⟨htold₁, -⟩ := hc₁.told (step_of_move? (m := .step t₁) hstep₁) hrep₁ (by rw [hq₁]; rfl)
  obtain ⟨htold₂, -⟩ := hc₂.told (step_of_move? (m := .step t₂) hstep₂) hrep₂ (by rw [hq₂]; rfl)
  obtain ⟨htold₃, -⟩ := hc₃.told (step_of_move? (m := .step t₃) hstep₃) hrep₃ (by rw [hq₃]; rfl)
  have hsurvey₁ := htold₁.surveyed hc₁ (by rw [hq₁]; rfl)
  have hsurvey₃ := htold₃.surveyed hc₃ (by rw [hq₃]; rfl)
  rw [hq₁, ha] at hsurvey₁
  rw [hq₃, hsame₃] at hsurvey₃
  obtain ⟨hne, hi⟩ : s₀.log before₁ ≠ [] ∧ i = u₁.ring.newest := by
    rcases hsurvey₁ with ⟨hne, htells⟩ | ⟨-, d, waited, -, he⟩
    · cases htells
      exact ⟨hne, rfl⟩
    · cases he
  obtain ⟨x, hlast, hvalue⟩ : ∃ x, (s₀.log before₁).getLast? = some x ∧ r₃.answer = .value x.value := by
    rcases hsurvey₃ with ⟨-, htells⟩ | ⟨hnil, -⟩
    · exact htells
    · exact absurd hnil hne
  have hnewest₁ := hc₁.window.newest_eq
  have hnewest₂ := hc₂.window.newest_eq
  have hbounds₂ := hc₂.window.bounds (by rw [hsame₂]; exact hne)
  rw [settings_of_reached ho hb₁] at hnewest₁
  rw [settings_of_reached ho hb₂, hsame₂] at hnewest₂
  have hread := htold₂.readsOff hc₂ hq₂
  rw [hvalue]
  generalize r₂.answer = a at hread
  cases hread with
  | evicted hlt => omega
  | retained k y _ _ hn hk hy hshows =>
    have hlength := List.length_pos_iff.mpr hne
    rw [settings_of_reached ho hb₂] at hk
    obtain rfl : k = (s₀.log before₁).length - 1 := by omega
    rw [hsame₂, ← List.getLast?_eq_getElem?, hlast] at hy
    cases hy
    exact hshows
  | notYet e hlt => omega

/-- Requests about the whole series block only while it is empty, and are told of one state of it, the
    one their last step finds: its ends, with no more between them than there are slots, or the element
    at the newest index, whatever was evicted since they were made. Without a push between them, what
    is read at the newest index is the newest value. -/
theorem surveys_show_one_state (ho : (o.run memory clock now).2 = .opened s₀) (hr : s₀.run? moves = some s) :
    (s₀.log moves ≠ [] → o.settings.start ≤ s.ring.oldest ∧ s.ring.oldest ≤ s.ring.newest ∧
      s.ring.newest - s.ring.oldest < o.settings.capacity.toNat) ∧
    (∀ t q, q.surveys = true → s.phase t = .idle → s.holder = none →
      (s₀.log moves = [] → s.Blocks t q) ∧
      (s₀.log moves ≠ [] → s.Answers t q (s.ring.verdict q) ∧
        s.ring.Tells o.settings.start (s₀.log moves) q (s.ring.verdict q))) ∧
    (∀ t c, c.request.surveys = true → s.phase t = .entered c ∨ (∃ w ranOut, s.phase t = .resumed c w ranOut) →
      (s₀.log moves = [] →
        (∃ s' w wake, s.run? [.step t, .step t] = some s' ∧ s'.phase t = .asleep c w wake ∧
          (s'.thread t).replies = (s.thread t).replies) ∨
        ∃ w s', s.phase t = .resumed c w true ∧ w.expired s.now = true ∧ s.step? t = some s' ∧
          s.Ends t c (c.request.refusal (.timeout o.settings.start (Instant.since w.started s.now))) s') ∧
      (s₀.log moves ≠ [] →
        (∃ s', s.run? [.step t, .step t] = some s' ∧ s.Ends t c (s.ring.verdict c.request) s') ∧
        ∀ later s', s.run? later = some s' →
          (s'.phase t).holds = true ∧ (s'.thread t).replies = (s.thread t).replies ∨
            ∃ newer r, (s'.thread t).replies = newer ++ r :: (s.thread t).replies ∧ r.call = c ∧
              r.answer = s.ring.verdict c.request)) ∧
    (∀ t c w wake s', c.request.surveys = true → s.step? t = some s' → s'.phase t = .asleep c w wake →
      s₀.log moves = []) ∧
    (∀ t r, r ∈ (s.thread t).replies → r.call.request.surveys = true →
      ∃ before u u', s₀.EndedBy t r moves before u u' ∧ u.holder = some t ∧ (u.phase t).call? = some r.call ∧
        (s₀.log before ≠ [] ∧ u.ring.Tells o.settings.start (s₀.log before) r.call.request r.answer ∨
          s₀.log before = [] ∧
            ∃ d waited, r.call.request.limit.time? = some d ∧ r.answer = .failed (.timeout o.settings.start waited))) ∧
    (∀ t₁ t₂ t₃ r₁ r₂ r₃ before₁ before₂ before₃ u₁ u₁' u₂ u₂' u₃ u₃' i time limit,
      s₀.EndedBy t₁ r₁ moves before₁ u₁ u₁' → s₀.EndedBy t₂ r₂ moves before₂ u₂ u₂' →
      s₀.EndedBy t₃ r₃ moves before₃ u₃ u₃' → r₁.call.request = .edge .newest time →
      r₂.call.request = .read .value i limit → r₃.call.request = .newestValue → r₁.answer = .index i →
      s₀.log before₂ = s₀.log before₁ → s₀.log before₃ = s₀.log before₁ → r₂.answer = r₃.answer) := by
  have hc := Coherent.of_reached ho hr
  have hset := settings_of_reached ho hr
  have hempty := hc.window.newest_lt_start
  have hthere : s₀.log moves ≠ [] → s.settings.start ≤ s.ring.newest := by
    intro hne
    rw [ne_eq, ← hempty] at hne
    omega
  refine ⟨?_, ?_, ?_, ?_, ?_, ?_⟩
  · intro hne
    have hbounds := hc.window.bounds hne
    rw [hc.capacity, hset] at hbounds
    exact hbounds
  · intro t q hq hi hh
    have ht := Request.target?_of_surveys hq s.settings.start
    have hg : ¬ (q.guarded = true ∧ s.ring.evicted s.settings.start = true) := by
      rw [Request.guarded_of_surveys hq]
      rintro ⟨⟨⟩, -⟩
    refine ⟨?_, ?_⟩
    · intro hnil
      obtain ⟨time, hlimit⟩ := Request.limit_of_surveys hq
      exact blocks hi hh ht hg (hempty.mpr hnil) (by rw [hlimit, raised_ofTime?])
    · intro hne
      rw [← hset]
      exact ⟨answers_served hi hh ht hg (hthere hne), hc.window.tells ht (Int.le_refl _) (hthere hne)⟩
  · intro t c hq hp
    refine ⟨fun hnil => hset ▸ hc.dozes hq (hempty.mpr hnil) hp, ?_⟩
    intro hne
    refine ⟨?_, fun later s' hlater => hc.surveyed_of_run hq (hthere hne) hp hlater⟩
    rcases hp with hp | ⟨w, ranOut, hp⟩
    · exact run?_surveyed hq hp (hthere hne)
    · have hfits := hc.fits t
      rw [hp] at hfits
      have htarget := hfits.1.target_eq (Request.target?_of_surveys hq _)
      have hnewest := hthere hne
      exact run?_resumed hp (by omega)
  · intro t c w wake s' hq hstep hp
    exact hc.nil_of_dozing hq hstep hp
  · intro t r hmem hq
    exact surveyed_of_reached ho hr hmem hq
  · intro t₁ t₂ t₃ r₁ r₂ r₃ before₁ before₂ before₃ u₁ u₁' u₂ u₂' u₃ u₃' i time limit h₁ h₂ h₃ hq₁ hq₂ hq₃ ha hs₂ hs₃
    exact newestValue_eq_read ho h₁ h₂ h₃ hq₁ hq₂ hq₃ ha hs₂ hs₃

/-- A thread asks for the newest index, with no time at all, and another for the newest value. Two
    elements are appended, then the first thread reads what is at the index it was told, and the
    other gets the lock. -/
def overtaken : List (Move Nat) :=
  [appendAlone 0 10, .call 1 (.edge .newest (some (.millis 0))) :: List.replicate 3 (.step 1), [.call 2 .newestValue],
    appendAlone 0 20, appendAlone 0 30, [.call 1 (.read .value (-1) .forever), .step 1, .step 1],
    List.replicate 3 (.step 2)].flatten

/-- In a series of two slots the first element is gone by then, and the newest is the third. -/
theorem surveys_show_one_state_lapped :
    ∃ (s : System Nat) (r r' r'' : Reply Nat), small.run? overtaken = some s ∧ (s.thread 1).replies = [r', r] ∧
      (s.thread 2).replies = [r''] ∧ r.observes? = some (.newest, -1) ∧ r'.answer = .failed (.evicted (-1) 0) ∧
      r''.answer = .value 30 ∧
      (∃ before u u', small.EndedBy 2 r'' overtaken before u u' ∧ u.holder = some 2 ∧
        u.ring.Tells (-1) (small.log before) r''.call.request r''.answer) ∧
      s.ring.oldest ≤ s.ring.newest ∧ s.ring.newest - s.ring.oldest < 2 := by
  have hrun : (small.run? overtaken).any (fun s =>
      decide ((s.thread 1).replies.map (fun r => (r.observes?, r.answer.fault?)) =
        [(some (.oldest, 0), some (.evicted (-1) 0)), (some (.newest, -1), none)]) &&
      decide ((s.thread 2).replies.map (fun r => (r.call.request.surveys, r.value?)) = [(true, some 30)])) = true := by
    decide +kernel
  obtain ⟨s, hr, hs⟩ := exists_run hrun
  simp only [Bool.and_eq_true, decide_eq_true_eq] at hs
  obtain ⟨h1, h2⟩ := hs
  obtain ⟨r', rest, hreplies, hread', hrest⟩ := List.map_eq_cons_iff.mp h1
  obtain ⟨r, rfl, hread⟩ := List.map_eq_singleton_iff.mp hrest
  obtain ⟨r'', hreplies'', hread''⟩ := List.map_eq_singleton_iff.mp h2
  simp only [Prod.mk.injEq] at hread hread' hread''
  have hvalue := Reply.value?_eq_some.mp hread''.2
  have hlog : small.log overtaken ≠ [] := by
    have hlength : (small.log overtaken).length = 3 := by decide +kernel
    intro hnil
    rw [hnil] at hlength
    cases hlength
  obtain ⟨hbounds, -, -, -, htold, -⟩ := surveys_show_one_state small_opened hr
  obtain ⟨before, u, u', hended, hholder, -, htells | ⟨-, d, waited, -, hfailed⟩⟩ :=
    htold 2 r'' (by rw [hreplies'']; exact List.mem_singleton.mpr rfl) hread''.1
  · exact ⟨s, r, r', r'', hr, hreplies, hreplies'', hread.1, Answer.eq_failed hread'.2, hvalue,
      ⟨before, u, u', hended, hholder, htells.2⟩, (hbounds hlog).2⟩
  · rw [hvalue] at hfailed
    cases hfailed

end System

end Chronicle
