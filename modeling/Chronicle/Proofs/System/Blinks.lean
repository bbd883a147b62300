/-
  Chronicle.Proofs.System.Blinks — a flag that is up only between two checks is not seen.

  What the waiters see of the flags follows from what is done to the flags and from where
  the checks come in between (`Sight`): each check sees what the actions before it have
  left (`Flags.seen`, `gather_check?`).

  A blink changes how a family is raised and lowered between two of its checks, so long as
  it is down at the second: how often, through which of its flags, and around whatever
  else is done meanwhile (`Flags.Blink`). What a stretch without checks of the family leaves of
  the others is what it leaves without the raises and lowers of that family (`alike_past_spared`),
  and so is what it sees (`seen_spared`); where it leaves the family down as well, nothing is left of
  the difference (`Alike.eq_of_down`).

  Proved: schedules that differ by blinks, one after the other and over each other, see the
  same of the flags (`Flags.seen_of_blinks`), and end the same for the watched threads
  (`Watched.sameFor_of_blinks`).
-/

import Chronicle.Proofs.Families
import Chronicle.Proofs.System.Unseen

namespace Chronicle

/-- Something that is done to the flags, or a check of one. -/
inductive Sight where
  | act (a : FlagAction)
  | check (f : Nat)
  deriving DecidableEq

namespace Flags

variable {x y z : Flags} {l l' : List Sight} {f g n i : Nat} {up : Bool} {k : Nat → Prop}

def past (x : Flags) : List Sight → Flags
  | [] => x
  | .act a :: l => (x.after a).past l
  | .check _ :: l => x.past l

/-- What the checks see, in order. -/
def seen (x : Flags) : List Sight → List Bool
  | [] => []
  | .act a :: l => (x.after a).seen l
  | .check f :: l => x.isRaised f :: x.seen l

def akin (x : Flags) (f g : Nat) : Bool := x.family[f]? = x.family[g]?

/-- Whether the family of `f` is neither raised nor lowered. -/
def spares (x : Flags) (f : Nat) : Sight → Bool
  | .act (.raise n) | .act (.lower n) => !x.akin f n
  | _ => true

/-- From one history to the other, only the raises and lowers of one family change, between two of its
    checks, and it is down at the second of them. -/
inductive Blink (x : Flags) : List Sight → List Sight → Prop
  | intro (f : Nat) (before mid mid' later : List Sight) :
      (∀ g, .check g ∈ mid → (x.past (before ++ mid)).akin f g = false) →
      mid.filter ((x.past (before ++ mid)).spares f) = mid'.filter ((x.past (before ++ mid)).spares f) →
      (x.past (before ++ mid)).isRaised f = false → (x.past (before ++ mid')).isRaised f = false →
      Blink x (before ++ mid ++ later) (before ++ mid' ++ later)

theorem past_append (x : Flags) (l l' : List Sight) : x.past (l ++ l') = (x.past l).past l' := by
  induction l generalizing x with
  | nil => rfl
  | cons e l ih => cases e <;> exact ih _

theorem seen_append (x : Flags) (l l' : List Sight) : x.seen (l ++ l') = x.seen l ++ (x.past l).seen l' := by
  induction l generalizing x with
  | nil => rfl
  | cons e l ih =>
    cases e with
    | act a => exact ih _
    | check f => exact congrArg (x.isRaised f :: ·) (ih x)

/-- A flag keeps its family. -/
theorem family_after (a : FlagAction) (h : x.family[n]? = some i) : (x.after a).family[n]? = some i := by
  cases a with
  | fresh => exact numbered_concat.mpr (.inl h)
  | clone m =>
    cases hm : x.family[m]? with
    | none => simpa only [after, clone, hm] using h
    | some j =>
      show (x.clone m).family[n]? = some i
      rw [clone_of_number hm]
      exact numbered_concat.mpr (.inl h)
  | raise m | lower m =>
    simp only [after, set]
    split <;> exact h
  | look m => exact h

theorem family_past (l : List Sight) (h : x.family[n]? = some i) : (x.past l).family[n]? = some i := by
  induction l generalizing x with
  | nil => exact h
  | cons e l ih =>
    cases e with
    | act a => exact ih (family_after a h)
    | check f => exact ih h

/-! ## Flags that differ in some families -/

/-- The same flags, but for the states of the families that `k` picks. -/
structure Alike (k : Nat → Prop) (x y : Flags) : Prop where
  family : x.family = y.family
  length : x.raised.length = y.raised.length
  raised : ∀ j, ¬ k j → x.raised[j]? = y.raised[j]?

namespace Alike

theorem refl (k : Nat → Prop) (x : Flags) : Alike k x x := ⟨rfl, rfl, fun _ _ => rfl⟩

theorem symm (h : Alike k x y) : Alike k y x :=
  ⟨h.family.symm, h.length.symm, fun j hj => (h.raised j hj).symm⟩

theorem trans (h : Alike k x y) (h' : Alike k y z) : Alike k x z :=
  ⟨h.family.trans h'.family, h.length.trans h'.length, fun j hj => (h.raised j hj).trans (h'.raised j hj)⟩

theorem set (h : Alike k x y) (n : Nat) (up : Bool) : Alike k (x.set n up) (y.set n up) := by
  cases hn : x.family[n]? with
  | none =>
    have hn' : y.family[n]? = none := h.family ▸ hn
    simpa only [Flags.set, hn, hn'] using h
  | some i =>
    rw [set_of_number hn, set_of_number (h.family ▸ hn)]
    refine ⟨h.family, by simpa using h.length, ?_⟩
    intro j hj
    simp only [List.getElem?_set, h.length, h.raised j hj]

/-- What is done to both does the same to both, -/
theorem after (h : Alike k x y) (a : FlagAction) : Alike k (x.after a) (y.after a) := by
  cases a with
  | fresh =>
    refine ⟨?_, by simp [Flags.after, fresh, h.length], ?_⟩
    · simp only [Flags.after, fresh, h.family, h.length]
    · intro j hj
      simp only [Flags.after, fresh, List.getElem?_append, h.length, h.raised j hj]
  | clone n =>
    cases hn : x.family[n]? with
    | none =>
      have hn' : y.family[n]? = none := h.family ▸ hn
      simpa only [Flags.after, clone, hn, hn'] using h
    | some i =>
      show Alike k (x.clone n) (y.clone n)
      rw [clone_of_number hn, clone_of_number (h.family ▸ hn)]
      exact ⟨congrArg (· ++ [i]) h.family, h.length, h.raised⟩
  | raise n | lower n => exact h.set n _
  | look n => exact h

/-- and a raise or lower of one of these families may be done to one alone. -/
theorem set_left (h : Alike k x y) (hn : ∀ i, x.family[n]? = some i → k i) : Alike k (x.set n up) y := by
  cases hi : x.family[n]? with
  | none => simpa only [Flags.set, hi] using h
  | some i =>
    rw [set_of_number hi]
    refine ⟨h.family, by simpa using h.length, ?_⟩
    intro j hj
    have hne : i ≠ j := fun e => hj (e ▸ hn i hi)
    rw [← h.raised j hj]
    exact List.getElem?_set_ne hne

theorem isRaised_eq (h : Alike k x y) (hg : ∀ i, x.family[g]? = some i → ¬ k i) : x.isRaised g = y.isRaised g := by
  unfold isRaised
  rw [← h.family]
  cases hi : x.family[g]? with
  | none => rfl
  | some i => simp only [List.getD_eq_getElem?_getD, h.raised i (hg i hi)]

/-- If the family of a flag is all they may differ in, and it is down in both, they are the same. -/
theorem eq_of_down (h : Alike (x.family[f]? = some ·) x y) (hx : x.isRaised f = false) (hy : y.isRaised f = false) :
    x = y := by
  have hsame : ∀ j : Nat, x.raised[j]? = y.raised[j]? := by
    intro j
    by_cases hj : x.family[f]? = some j
    · rw [isRaised_of_number hj] at hx
      rw [isRaised_of_number (h.family ▸ hj)] at hy
      rcases Nat.lt_or_ge j x.raised.length with hlt | hge
      · have hlt' : j < y.raised.length := h.length ▸ hlt
        rw [List.getElem?_eq_getElem hlt, Option.getD_some] at hx
        rw [List.getElem?_eq_getElem hlt', Option.getD_some] at hy
        rw [List.getElem?_eq_getElem hlt, List.getElem?_eq_getElem hlt', hx, hy]
      · rw [List.getElem?_eq_none hge, List.getElem?_eq_none (h.length ▸ hge)]
    · exact h.raised j hj
  exact congrArg₂ Flags.mk h.family (List.ext_getElem? hsame)

theorem after_left {a : FlagAction} (h : Alike k x y) (ha : z.spares f (.act a) = false)
    (hk : ∀ n i, z.akin f n = true → x.family[n]? = some i → k i) : Alike k (x.after a) y := by
  cases a with
  | raise n | lower n =>
    have hn : z.akin f n = true := by simpa [spares] using ha
    exact h.set_left fun i hi => hk n i hn hi
  | _ => cases ha

section

variable (h : Alike k x y) (hk : ∀ n i, z.akin f n = true → (x.past l).family[n]? = some i → k i)

include h hk

/-- Without the raises and lowers of these families, the others become the same, -/
theorem past : Alike k (x.past l) (y.past (l.filter (z.spares f))) := by
  induction l generalizing x y with
  | nil => exact h
  | cons e l ih =>
    cases hs : z.spares f e with
    | true =>
      rw [List.filter_cons_of_pos hs]
      cases e with
      | act a => exact ih (h.after a) hk
      | check g => exact ih h hk
    | false =>
      rw [List.filter_cons_of_neg (by simp [hs])]
      cases e with
      | act a => exact ih (h.after_left hs fun n i hn hi => hk n i hn (family_past (.act a :: l) hi)) hk
      | check g => cases hs

/-- and a check of the others sees the same. -/
theorem seen (hl : ∀ g i, .check g ∈ l → (x.past l).family[g]? = some i → ¬ k i) :
    x.seen l = y.seen (l.filter (z.spares f)) := by
  induction l generalizing x y with
  | nil => rfl
  | cons e l ih =>
    have hl' : ∀ g i, .check g ∈ l → (x.past (e :: l)).family[g]? = some i → ¬ k i :=
      fun g i hg => hl g i (List.mem_cons_of_mem e hg)
    cases hs : z.spares f e with
    | true =>
      rw [List.filter_cons_of_pos hs]
      cases e with
      | act a => exact ih (h.after a) hk hl'
      | check g =>
        have hsame : x.isRaised g = y.isRaised g :=
          h.isRaised_eq fun i hi => hl g i (List.mem_cons_self ..) (family_past _ hi)
        exact congrArg₂ List.cons hsame (ih h hk hl')
    | false =>
      rw [List.filter_cons_of_neg (by simp [hs])]
      cases e with
      | act a => exact ih (h.after_left hs fun n i hn hi => hk n i hn (family_past (.act a :: l) hi)) hk hl'
      | check g => cases hs

end

end Alike

/-! ## Stretches -/

theorem number_of_akin (hn : x.akin f n = true) (hi : x.family[n]? = some i) : x.family[f]? = some i := by
  rw [← hi]
  exact of_decide_eq_true hn

/-- Raises and lowers make no flags. -/
theorem family_past_spared (x z : Flags) (f : Nat) (l : List Sight) :
    (x.past (l.filter (z.spares f))).family = (x.past l).family :=
  ((Alike.refl (fun _ => True) x).past fun _ _ _ _ => trivial).family.symm

/-- Without the raises and lowers of a family, a stretch does the same to the others, -/
theorem alike_past_spared (hz : (x.past l).family = z.family) :
    Alike (z.family[f]? = some ·) (x.past l) (x.past (l.filter (z.spares f))) := by
  apply (Alike.refl _ x).past
  intro n i hn hi
  exact number_of_akin hn (hz ▸ hi)

/-- and if it checks none of that family, it sees the same. -/
theorem seen_spared (hz : (x.past l).family = z.family) (hl : ∀ g, .check g ∈ l → z.akin f g = false) :
    x.seen l = x.seen (l.filter (z.spares f)) := by
  apply (Alike.refl (z.family[f]? = some ·) x).seen
  · intro n i hn hi
    exact number_of_akin hn (hz ▸ hi)
  · intro g i hg hi hf
    have hne := hl g hg
    rw [hz] at hi
    rw [akin, hf, hi, decide_eq_false_iff_not] at hne
    exact hne rfl

/-- Two stretches that differ only in the raises and lowers of a family which neither checks, and both
    leave it down, leave and see the same. -/
theorem past_seen_of_spared {mid mid' : List Sight} (hchecks : ∀ g, .check g ∈ mid → (x.past mid).akin f g = false)
    (hothers : mid.filter ((x.past mid).spares f) = mid'.filter ((x.past mid).spares f))
    (hdown : (x.past mid).isRaised f = false) (hdown' : (x.past mid').isRaised f = false) :
    x.past mid = x.past mid' ∧ x.seen mid = x.seen mid' := by
  have hfamily : (x.past mid').family = (x.past mid).family := by
    rw [← family_past_spared x (x.past mid) f mid', ← hothers, family_past_spared]
  have hchecks' : ∀ g, .check g ∈ mid' → (x.past mid).akin f g = false := by
    intro g hg
    have hkept : .check g ∈ mid.filter ((x.past mid).spares f) := hothers ▸ List.mem_filter.mpr ⟨hg, rfl⟩
    exact hchecks g (List.mem_filter.mp hkept).1
  constructor
  · have hleft := alike_past_spared (x := x) (f := f) (l := mid) rfl
    rw [hothers] at hleft
    exact (hleft.trans (alike_past_spared hfamily).symm).eq_of_down hdown hdown'
  · rw [seen_spared rfl hchecks, hothers, ← seen_spared hfamily hchecks']

/-! ## Blinks -/

/-- A blink is not seen, -/
theorem Blink.seen_eq (h : Blink x l l') : x.seen l = x.seen l' := by
  cases h with
  | intro f before mid mid' later hchecks hothers hdown hdown' =>
    rw [past_append] at hchecks hothers hdown hdown'
    obtain ⟨hpast, hseen⟩ := past_seen_of_spared hchecks hothers hdown hdown'
    simp only [seen_append, past_append, hpast, hseen]

/-- nor are several. -/
theorem seen_of_blinks (h : Relation.EqvGen x.Blink l l') : x.seen l = x.seen l' := by
  induction h with
  | rel l l' h => exact h.seen_eq
  | refl l => rfl
  | symm l l' _ ih => exact ih.symm
  | trans l l' l'' _ _ ih ih' => exact ih.trans ih'

end Flags

namespace System

variable {α : Type} {p : Nat → Bool} {s s' s₁ s₂ : System α} {m : Move α} {moves moves₁ moves₂ : List (Move α)}

/-- What a move does to the flags, or the flag that a watched thread checks with it. -/
def sight? (p : Nat → Bool) (s : System α) (m : Move α) : Option Sight :=
  match s.action? m with
  | some a => some (.act a)
  | none => (s.checked? p m).map .check

/-- A move that does something to a flag checks none. -/
theorem checked?_of_action? {a : FlagAction} (h : s.action? m = some a) : s.checked? p m = none := by
  cases m with
  | step t =>
    cases hp : s.phase t with
    | looking c w => simp [action?, hp] at h
    | _ => simp [checked?, hp]
  | _ => rfl

/-- The checks of a schedule see what its sights say. -/
theorem gather_check? (hr : s.run? moves = some s') :
    s.gather (check? p) moves = s.flags.seen (s.gather (sight? p) moves) := by
  induction moves generalizing s with
  | nil => rfl
  | cons m moves ih =>
    obtain ⟨u, hm, hrest⟩ := Option.bind_eq_some_iff.mp hr
    have hflags := (step_of_move? hm).flags_eq
    rw [gather_cons_of_move? hm, gather_cons_of_move? hm, ih hrest]
    cases ha : s.action? m with
    | some a =>
      rw [ha] at hflags
      simp only [check?, sight?, ha, checked?_of_action? ha, hflags]
      rfl
    | none =>
      rw [ha] at hflags
      have hsame : u.flags = s.flags := hflags
      cases hf : s.checked? p m with
      | none => simp [check?, sight?, ha, hf, hsame]
      | some f => simp [check?, sight?, ha, hf, hsame, Flags.seen]

/-- Schedules with the same moves that are not hidden, whose sights differ by blinks, end the same for the
    watched threads. -/
theorem Watched.sameFor_of_blinks (hw : s.Watched p) (hq₁ : ∀ m ∈ moves₁, m.quiet p = true)
    (hq₂ : ∀ m ∈ moves₂, m.quiet p = true) (hr₁ : s.run? moves₁ = some s₁) (hr₂ : s.run? moves₂ = some s₂)
    (hshown : s.gather (shown? p) moves₁ = s.gather (shown? p) moves₂)
    (hblinks : Relation.EqvGen s.flags.Blink (s.gather (sight? p) moves₁) (s.gather (sight? p) moves₂)) :
    s₁.SameFor p s₂ := by
  apply sameFor_of_runs (.refl p s) hw hw hq₁ hq₂ hr₁ hr₂ hshown
  rw [gather_check? hr₁, gather_check? hr₂, Flags.seen_of_blinks hblinks]

end System

end Chronicle
