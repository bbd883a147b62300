/-
  Chronicle.Proofs.Families — flags share their state within a family and nowhere else.

  The flags of a family are those that chains of clones lead to from one fresh flag, in either
  direction: `Kin` is read off the actions alone, as the equivalence that `ClonedFrom` generates.
  The collection keeps a number for each flag's family instead, and one state for each number.
  `Tracks` says that the two agree after any actions: flags have the same number exactly if
  they are kin, and the state of a number is what the last raise or lower of a flag with that
  number left (`Last`).

  A clone takes the number of the flag it is made of, so it adds one pair to the equivalence and
  nothing else; a fresh flag takes a number that no flag has.

  Proved: `shared_within_families`.
-/

import Mathlib.Logic.Relation
import Mathlib.Data.List.Count
import Mathlib.Data.List.Induction
import Chronicle.Flag

namespace Chronicle

namespace FlagAction

def makes : FlagAction → Bool
  | .fresh | .clone _ => true
  | .raise _ | .lower _ | .look _ => false

/-- Whether the flag that an action is done to is among the first `n`. -/
def Known (n : Nat) : FlagAction → Prop
  | .fresh => True
  | .clone m | .raise m | .lower m | .look m => m < n

/-- The flag that an action raises or lowers, and which of the two. -/
def write? : FlagAction → Option (Nat × Bool)
  | .raise m => some (m, true)
  | .lower m => some (m, false)
  | .fresh | .clone _ | .look _ => none

def made (as : List FlagAction) : Nat := as.countP makes

/-- Actions that are done to flags made before them, when `n` flags are there at first. -/
def Possible : Nat → List FlagAction → Prop
  | _, [] => True
  | n, a :: as => a.Known n ∧ Possible (n + made [a]) as

def ClonedFrom (as : List FlagAction) (m n : Nat) : Prop :=
  ∃ before later, as = before ++ .clone m :: later ∧ n = made before

/-- Flags of one family: chains of clones, in either direction, lead from one to the other. -/
def Kin (as : List FlagAction) : Nat → Nat → Prop := Relation.EqvGen (ClonedFrom as)

/-- The last time any of these flags was raised or lowered, it was that. -/
def Last (flags : Nat → Prop) (up : Bool) (as : List FlagAction) : Prop :=
  ∃ before a later m, as = before ++ a :: later ∧ a.write? = some (m, up) ∧ flags m ∧
    ∀ b ∈ later, ∀ k v, b.write? = some (k, v) → ¬ flags k

variable {as : List FlagAction} {a : FlagAction} {m n k : Nat} {up v : Bool} {flags others : Nat → Prop}

instance decidableKnown (n : Nat) : (a : FlagAction) → Decidable (a.Known n)
  | .fresh => inferInstanceAs (Decidable True)
  | .clone m | .raise m | .lower m | .look m => inferInstanceAs (Decidable (m < n))

instance decidablePossible : (n : Nat) → (as : List FlagAction) → Decidable (Possible n as)
  | _, [] => inferInstanceAs (Decidable True)
  | n, a :: as =>
    have := decidablePossible (n + made [a]) as
    inferInstanceAs (Decidable (a.Known n ∧ Possible (n + made [a]) as))

/-! ## One more action -/

theorem made_append (as bs : List FlagAction) : made (as ++ bs) = made as + made bs := List.countP_append

theorem possible_concat : Possible n (as ++ [a]) ↔ Possible n as ∧ a.Known (n + made as) := by
  induction as generalizing n with
  | nil => simp [Possible, made]
  | cons b as ih =>
    have hmade : made (b :: as) = made [b] + made as := made_append [b] as
    simp only [List.cons_append, Possible, ih, hmade, and_assoc, Nat.add_assoc]

/-- The last of a list of actions is one place to look for an action, the others are the rest. -/
theorem concat_eq_iff {before later : List FlagAction} {b : FlagAction} :
    as ++ [a] = before ++ b :: later ↔
      (before = as ∧ b = a ∧ later = []) ∨ ∃ later', later = later' ++ [a] ∧ as = before ++ b :: later' := by
  constructor
  · intro h
    rcases List.eq_nil_or_concat later with rfl | ⟨later', c, rfl⟩
    · obtain ⟨hbefore, hb⟩ := List.append_inj' h rfl
      exact .inl ⟨hbefore.symm, (List.singleton_inj.mp hb).symm, rfl⟩
    · rw [List.concat_eq_append, ← List.cons_append, ← List.append_assoc] at h
      obtain ⟨has, hc⟩ := List.append_inj' h rfl
      obtain rfl := List.singleton_inj.mp hc
      exact .inr ⟨later', List.concat_eq_append, has⟩
  · intro h
    rcases h with ⟨rfl, rfl, rfl⟩ | ⟨later', rfl, rfl⟩
    · rfl
    · simp

theorem clonedFrom_concat : ClonedFrom (as ++ [a]) m n ↔ ClonedFrom as m n ∨ a = .clone m ∧ n = made as := by
  constructor
  · intro h
    obtain ⟨before, later, has, hn⟩ := h
    rcases concat_eq_iff.mp has with ⟨rfl, hb, -⟩ | ⟨later', -, rfl⟩
    · exact .inr ⟨hb.symm, hn⟩
    · exact .inl ⟨before, later', rfl, hn⟩
  · intro h
    rcases h with ⟨before, later, rfl, hn⟩ | ⟨rfl, hn⟩
    · exact ⟨before, later ++ [a], by simp, hn⟩
    · exact ⟨as, [], rfl, hn⟩

/-- Kin stay kin. -/
theorem Kin.concat (h : Kin as m n) : Kin (as ++ [a]) m n :=
  Relation.EqvGen.mono (fun _ _ hc => clonedFrom_concat.mpr (.inl hc)) _ _ h

theorem kin_clone : Kin (as ++ [.clone m]) m (made as) :=
  .rel _ _ (clonedFrom_concat.mpr (.inr ⟨rfl, rfl⟩))

/-! ## What was done last -/

theorem last_nil : ¬ Last flags up [] := by
  intro h
  obtain ⟨before, a, later, m, has, -⟩ := h
  cases before <;> cases has

/-- An action on these flags is the last. -/
theorem last_concat_of_write (hw : a.write? = some (m, v)) (hm : flags m) : Last flags up (as ++ [a]) ↔ v = up := by
  constructor
  · intro h
    obtain ⟨before, b, later, k, has, hb, -, hlater⟩ := h
    rcases concat_eq_iff.mp has with ⟨-, rfl, -⟩ | ⟨later', rfl, -⟩
    · rw [hw] at hb
      cases hb; rfl
    · exact absurd hm (hlater a (by simp) m v hw)
  · intro h
    subst h
    exact ⟨as, a, [], m, rfl, hw, hm, by simp⟩

/-- An action on other flags, or that raises and lowers none, is not looked at. -/
theorem last_concat_of_spared (h : ∀ k v, a.write? = some (k, v) → ¬ flags k) :
    Last flags up (as ++ [a]) ↔ Last flags up as := by
  constructor
  · intro hl
    obtain ⟨before, b, later, k, has, hb, hk, hlater⟩ := hl
    rcases concat_eq_iff.mp has with ⟨-, rfl, -⟩ | ⟨later', rfl, rfl⟩
    · exact absurd hk (h k up hb)
    · exact ⟨before, b, later', k, rfl, hb, hk, fun c hc => hlater c (List.mem_append_left _ hc)⟩
  · intro hl
    obtain ⟨before, b, later, k, rfl, hb, hk, hlater⟩ := hl
    refine ⟨before, b, later ++ [a], k, by simp, hb, hk, ?_⟩
    intro c hc
    rcases List.mem_append.mp hc with hc | hc
    · exact hlater c hc
    · obtain rfl := List.mem_singleton.mp hc
      exact h

/-- Only flags that are raised or lowered at some time matter. -/
theorem last_congr (h : ∀ a ∈ as, ∀ k v, a.write? = some (k, v) → (flags k ↔ others k)) :
    Last flags up as ↔ Last others up as := by
  induction as using List.reverseRecOn with
  | nil => exact iff_of_false last_nil last_nil
  | append_singleton as a ih =>
    have hold := ih fun b hb => h b (List.mem_append_left _ hb)
    have hlast := h a (by simp)
    cases hw : a.write? with
    | none =>
      rw [last_concat_of_spared (by simp [hw]), last_concat_of_spared (by simp [hw]), hold]
    | some w =>
      obtain ⟨k, v⟩ := w
      by_cases hk : flags k
      · rw [last_concat_of_write hw hk, last_concat_of_write hw ((hlast k v hw).mp hk)]
      · have hk' : ¬ others k := fun e => hk ((hlast k v hw).mpr e)
        rw [last_concat_of_spared (by simpa [hw] using hk), last_concat_of_spared (by simpa [hw] using hk'), hold]

end FlagAction

open FlagAction

namespace Flags

variable {f : Flags} {as : List FlagAction} {a : FlagAction} {m n k : Nat} {up v : Bool}

def run (f : Flags) (as : List FlagAction) : Flags := as.foldl after f

/-! ## Numbers of families -/

/-- Every flag has a number. -/
theorem exists_number (hn : n < f.count) : ∃ k, f.family[n]? = some k := ⟨f.family[n], List.getElem?_eq_getElem hn⟩

theorem numbered_concat {j : Nat} : (f.family ++ [j])[n]? = some k ↔ f.family[n]? = some k ∨ n = f.count ∧ j = k := by
  show _ ↔ _ ∨ n = f.family.length ∧ j = k
  rcases Nat.lt_trichotomy n f.family.length with hlt | rfl | hgt
  · rw [List.getElem?_append_left hlt]
    exact ⟨.inl, fun h => h.resolve_right fun e => by omega⟩
  · simp
  · rw [List.getElem?_eq_none (by simp; omega), List.getElem?_eq_none (by omega)]
    simp; omega

theorem isRaised_of_number (hk : f.family[n]? = some k) : f.isRaised n = f.raised[k]?.getD false := by
  simp [isRaised, hk]

theorem clone_of_number (hk : f.family[n]? = some k) : f.clone n = ⟨f.family ++ [k], f.raised⟩ := by
  simp only [clone, hk]

theorem set_of_number (hk : f.family[n]? = some k) (up : Bool) : f.set n up = ⟨f.family, f.raised.set k up⟩ := by
  simp only [set, hk]

/-! ## What the collection keeps -/

/-- The collection is what these actions make of none: flags have the same number exactly if they
    are kin, and the state of a number is the last that a flag with it was set to. -/
structure Tracks (f : Flags) (as : List FlagAction) : Prop where
  count : f.count = made as
  bound : ∀ k ∈ f.family, k < f.raised.length
  written : ∀ a ∈ as, ∀ m v, a.write? = some (m, v) → m < f.count
  clones : ∀ {m n}, ClonedFrom as m n → ∃ k, f.family[m]? = some k ∧ f.family[n]? = some k
  kin : ∀ {m n k}, f.family[m]? = some k → f.family[n]? = some k → Kin as m n
  state : ∀ k, f.raised[k]? = some true ↔ Last (f.family[·]? = some k) true as

theorem Tracks.empty : Flags.empty.Tracks [] where
  count := rfl
  bound := by simp [Flags.empty]
  written := by simp
  clones := by simp [ClonedFrom]
  kin := by simp [Flags.empty]
  state := by simp [Flags.empty, last_nil]

namespace Tracks

/-- Kin have the same number. -/
theorem alike (h : f.Tracks as) (hkin : Kin as m n) : f.family[m]? = f.family[n]? := by
  induction hkin with
  | rel m n hclone =>
    obtain ⟨k, hm, hn⟩ := h.clones hclone
    rw [hm, hn]
  | refl m => rfl
  | symm m n _ ih => exact ih.symm
  | trans m n k _ _ ihm ihn => exact ihm.trans ihn

/-- A flag is added: one of a number that no flag has and that is lowered, or a clone of one with
    its number. -/
theorem add (h : f.Tracks as) {j : Nat} {states : List Bool} (hmakes : a.makes)
    (hstates : ∀ up ∈ states, up = false) (hj : j < (f.raised ++ states).length)
    (hclone : ∀ m, a = .clone m → f.family[m]? = some j)
    (hkin : ∀ n : Nat, f.family[n]? = some j → ∃ m, a = .clone m) :
    Tracks ⟨f.family ++ [j], f.raised ++ states⟩ (as ++ [a]) := by
  have hwrite : a.write? = none := by cases a <;> first | rfl | cases hmakes
  have hnew : ∀ n : Nat, f.family[n]? = some j → Kin (as ++ [a]) n f.count := by
    intro n hn
    obtain ⟨m, rfl⟩ := hkin n hn
    have hnm : Kin as n m := h.kin hn (hclone m rfl)
    rw [h.count]
    exact .trans _ _ _ hnm.concat kin_clone
  constructor
  case count =>
    show (f.family ++ [j]).length = made (as ++ [a])
    rw [List.length_append, made_append, ← h.count, made, List.countP_singleton, if_pos hmakes]
    rfl
  case bound =>
    intro k hk
    rcases List.mem_append.mp hk with hk | hk
    · have hlt := h.bound k hk
      rw [List.length_append]; omega
    · rwa [List.mem_singleton.mp hk]
  case written =>
    intro b hb m v hw
    show m < (f.family ++ [j]).length
    rcases List.mem_append.mp hb with hb | hb
    · have hlt : m < f.family.length := h.written b hb m v hw
      rw [List.length_append]; omega
    · rw [List.mem_singleton.mp hb, hwrite] at hw
      cases hw
  case clones =>
    intro m n hcloned
    rcases clonedFrom_concat.mp hcloned with hcloned | ⟨ha, rfl⟩
    · obtain ⟨k, hm, hn⟩ := h.clones hcloned
      exact ⟨k, numbered_concat.mpr (.inl hm), numbered_concat.mpr (.inl hn)⟩
    · exact ⟨j, numbered_concat.mpr (.inl (hclone m ha)), numbered_concat.mpr (.inr ⟨h.count.symm, rfl⟩)⟩
  case kin =>
    intro m n k hm hn
    rcases numbered_concat.mp hm with hm | ⟨rfl, rfl⟩ <;> rcases numbered_concat.mp hn with hn | ⟨rfl, hk⟩
    · exact (h.kin hm hn).concat
    · exact hnew m (hk ▸ hm)
    · exact .symm _ _ (hnew n hn)
    · exact .refl _
  case state =>
    intro k
    have hold : (f.raised ++ states)[k]? = some true ↔ f.raised[k]? = some true := by
      rcases Nat.lt_or_ge k f.raised.length with hlt | hge
      · rw [List.getElem?_append_left hlt]
      · rw [List.getElem?_append_right hge, List.getElem?_eq_none hge]
        exact iff_of_false (fun e => by cases hstates true (List.mem_of_getElem? e)) (by simp)
    rw [hold, h.state k, last_concat_of_spared (by simp [hwrite])]
    -- the new flag has not been raised or lowered yet
    apply last_congr
    intro b hb m v hw
    have hlt := h.written b hb m v hw
    rw [numbered_concat, or_iff_left (by omega)]

/-- No flag is made; the flags keep their numbers, and only the states may change. -/
theorem restate (h : f.Tracks as) {states : List Bool} (hmakes : a.makes = false) (hlength : states.length = f.raised.length)
    (hwritten : ∀ m v, a.write? = some (m, v) → m < f.count)
    (hstate : ∀ k, states[k]? = some true ↔ Last (f.family[·]? = some k) true (as ++ [a])) :
    Tracks ⟨f.family, states⟩ (as ++ [a]) where
  count := by
    show f.count = made (as ++ [a])
    rw [made_append, h.count, made, made, List.countP_singleton, hmakes]
    rfl
  bound := by rw [hlength]; exact h.bound
  written := by
    intro b hb
    rcases List.mem_append.mp hb with hb | hb
    · exact h.written b hb
    · rw [List.mem_singleton.mp hb]
      exact hwritten
  clones := by
    intro m n hcloned
    rcases clonedFrom_concat.mp hcloned with hcloned | ⟨rfl, -⟩
    · exact h.clones hcloned
    · cases hmakes
  kin := fun hm hn => (h.kin hm hn).concat
  state := hstate

/-- A flag is raised or lowered, and with it all of its number. -/
theorem set (h : f.Tracks as) (hmakes : a.makes = false) (hwrite : a.write? = some (m, up)) (hm : m < f.count) :
    (f.set m up).Tracks (as ++ [a]) := by
  obtain ⟨j, hj⟩ := exists_number hm
  rw [set_of_number hj]
  apply h.restate hmakes List.length_set
  · intro k v hw
    rw [hwrite] at hw
    cases hw
    exact hm
  intro k
  by_cases hk : j = k
  · subst hk
    have hlt := h.bound j (List.mem_of_getElem? hj)
    rw [List.getElem?_set_self hlt, last_concat_of_write hwrite hj, Option.some_inj]
  · rw [List.getElem?_set_ne hk, h.state k, last_concat_of_spared]
    intro m' v hw hm'
    rw [hwrite] at hw
    cases hw
    exact hk (Option.some_inj.mp (hj.symm.trans hm'))

theorem after (h : f.Tracks as) (hknown : a.Known f.count) : (f.after a).Tracks (as ++ [a]) := by
  cases a with
  | fresh =>
    apply h.add rfl (by simp) (by simp) (by simp)
    intro n hn
    -- the number that comes next is no flag's yet
    exact absurd (h.bound _ (List.mem_of_getElem? hn)) (Nat.lt_irrefl _)
  | clone m =>
    obtain ⟨k, hk⟩ := exists_number hknown
    show (f.clone m).Tracks _
    rw [clone_of_number hk, ← List.append_nil f.raised]
    apply h.add rfl (by simp)
    · simpa using h.bound k (List.mem_of_getElem? hk)
    · intro m' hm'
      cases hm'
      exact hk
    · intro n _
      exact ⟨m, rfl⟩
  | raise m | lower m => exact h.set rfl rfl hknown
  | look m =>
    apply h.restate rfl rfl (by simp [write?])
    intro k
    rw [h.state k, last_concat_of_spared (by simp [write?])]

end Tracks

theorem run_concat (f : Flags) (as : List FlagAction) (a : FlagAction) : f.run (as ++ [a]) = (f.run as).after a := by
  simp [run]

/-- Whatever is done to flags, the collection keeps track. -/
theorem tracks_run (h : Possible 0 as) : (empty.run as).Tracks as := by
  induction as using List.reverseRecOn with
  | nil => exact .empty
  | append_singleton as a ih =>
    obtain ⟨hbefore, hknown⟩ := possible_concat.mp h
    have htracks := ih hbefore
    rw [run_concat]
    apply htracks.after
    rwa [htracks.count, ← Nat.zero_add (made as)]

/-- A clone starts as the flag it is made of stands. -/
theorem isRaised_clone (hn : n < f.count) : (f.clone n).isRaised f.count = f.isRaised n := by
  obtain ⟨k, hk⟩ := exists_number hn
  have hnew : (f.clone n).family[f.count]? = some k := by
    rw [clone_of_number hk]
    exact numbered_concat.mpr (.inr ⟨rfl, rfl⟩)
  rw [isRaised_of_number hk, isRaised_of_number hnew, clone_of_number hk]

namespace Tracks

/-- A flag is raised exactly if that is what was last done to its kin. -/
theorem isRaised_iff (h : f.Tracks as) (hn : n < f.count) : f.isRaised n = true ↔ Last (Kin as · n) true as := by
  obtain ⟨k, hk⟩ := exists_number hn
  have hlt := h.bound k (List.mem_of_getElem? hk)
  have hraised : f.isRaised n = true ↔ f.raised[k]? = some true := by
    rw [isRaised_of_number hk, List.getElem?_eq_getElem hlt, Option.getD_some, Option.some_inj]
  rw [hraised, h.state k]
  apply last_congr
  intro b hb m v hw
  constructor
  · intro hm
    exact h.kin hm hk
  · intro hkin
    rw [h.alike hkin, hk]

/-- An action changes no flag but the kin of the one it is done to. -/
theorem isRaised_after (h : f.Tracks as) (hknown : a.Known f.count) (hn : n < f.count)
    (hkin : ¬ Kin as (f.subject a) n) : (f.after a).isRaised n = f.isRaised n := by
  obtain ⟨k, hk⟩ := exists_number hn
  have hlt := h.bound k (List.mem_of_getElem? hk)
  have hadded : ∀ j states, Flags.isRaised ⟨f.family ++ [j], f.raised ++ states⟩ n = f.isRaised n := by
    intro j states
    have hk' : (f.family ++ [j])[n]? = some k := numbered_concat.mpr (.inl hk)
    rw [isRaised_of_number hk, isRaised_of_number hk', List.getElem?_append_left hlt]
  have hset : ∀ m up, m < f.count → ¬ Kin as m n → (f.set m up).isRaised n = f.isRaised n := by
    intro m up hm hkin
    obtain ⟨j, hj⟩ := exists_number hm
    have hne : j ≠ k := by
      intro e
      subst e
      exact hkin (h.kin hj hk)
    have hk' : (f.set m up).family[n]? = some k := by rw [set_of_number hj, hk]
    rw [isRaised_of_number hk, isRaised_of_number hk', set_of_number hj, List.getElem?_set_ne hne]
  cases a with
  | fresh => exact hadded _ _
  | clone m =>
    obtain ⟨j, hj⟩ := exists_number hknown
    show (f.clone m).isRaised n = _
    rw [clone_of_number hj, ← List.append_nil f.raised]
    exact hadded j []
  | raise m | lower m => exact hset m _ hknown hkin
  | look m => rfl

end Tracks

/-- Flags share their state within a family and nowhere else. After any actions, each flag made so
    far is raised exactly if the last time a flag of its family was raised or lowered, it was raised;
    a clone made then would start as the flag it is made of stands; and whatever is done next
    leaves the flags of other families as they are. -/
theorem shared_within_families {as : List FlagAction} (h : Possible 0 as) :
    (empty.run as).count = made as ∧
    (∀ n < made as, (empty.run as).isRaised n = true ↔ Last (Kin as · n) true as) ∧
    (∀ n < made as, ((empty.run as).after (.clone n)).isRaised (made as) = (empty.run as).isRaised n) ∧
    ∀ a, a.Known (made as) → ∀ n < made as, ¬ Kin as ((empty.run as).subject a) n →
      ((empty.run as).after a).isRaised n = (empty.run as).isRaised n := by
  have htracks := tracks_run h
  rw [← htracks.count]
  refine ⟨rfl, ?_, ?_, ?_⟩
  · intro n hn
    exact htracks.isRaised_iff hn
  · intro n hn
    exact isRaised_clone hn
  · intro a hknown n hn hkin
    exact htracks.isRaised_after hknown hn hkin

/-- Two families: the first flag with a clone made before it is raised and one made after, and
    another fresh flag, which is lowered last. -/
def interleaved : List FlagAction := [.fresh, .clone 0, .fresh, .raise 1, .clone 0, .lower 2]

theorem shared_within_families_interleaved :
    Possible 0 interleaved ∧ Last (Kin interleaved · 3) true interleaved ∧ ¬ Last (Kin interleaved · 2) true interleaved ∧
      ((empty.run interleaved).after (.clone 3)).isRaised 4 = true := by
  have h : Possible 0 interleaved := by decide
  obtain ⟨-, hraised, hclone, -⟩ := shared_within_families h
  refine ⟨h, (hraised 3 (by decide)).mp rfl, ?_, hclone 3 (by decide)⟩
  intro hlast
  cases (hraised 2 (by decide)).mpr hlast

end Flags

end Chronicle
