/-
  Chronicle.Proofs.Settings.Decoding — which objects are read as settings, and as which.

  An object is read member by member into a draft, which has a place for each parameter. The
  members named after a parameter, in order, are `f.given members`; all that is read of them
  goes into the place of `f`, and nothing else does. The places are of different types, so
  they are seen through `Draft.value?`, and what a JSON value says of a parameter is the
  relation `f.Says`, which knows nothing of how it is read.

  Proved: what one member does (`Draft.take_eq_some_iff`), and by induction what all of them do
  (`Draft.foldlM_member_eq_some_iff`): an object is read as settings exactly if each of their
  parameters is what the one member named after it says, or its default if there is none
  (`ofJson?_object_iff`). A list is read as the object of its items under the names of the
  parameters, in order (`Draft.foldlM_item`).
-/

import Chronicle.Proofs.Duration.Decoding
import Chronicle.Proofs.Json.Rendering
import Chronicle.Proofs.Json.Units

namespace Chronicle.Settings

namespace Field

def Value : Field → Type
  | .capacity => UInt64
  | .startIndex => Int64
  | .pollInterval => Duration

/-- That a JSON value says that a parameter is `x`. -/
def Says : (f : Field) → Json → f.Value → Prop
  | .capacity, v, (n : UInt64) => v = .whole n.toNat
  | .startIndex, v, (i : Int64) => v = .whole i.toInt
  | .pollInterval, v, (d : Duration) => d.SaidBy v

def read? : (f : Field) → Json → Option f.Value
  | .capacity, v => (v.natBelow? UInt64.size).map UInt64.ofNat
  | .startIndex, .number n =>
    n.toInt?.bind fun i => if Index.InRange i then some (Int64.ofInt i) else none
  | .startIndex, _ => none
  | .pollInterval, v => Duration.ofJson? v

theorem read?_eq_some_iff {f : Field} {v : Json} {x : f.Value} : f.read? v = some x ↔ f.Says v x := by
  cases f with
  | capacity =>
    change UInt64 at x
    constructor
    · intro h
      obtain ⟨k, hk, rfl⟩ := Option.map_eq_some_iff.mp h
      obtain ⟨n, rfl, rfl⟩ := Json.natBelow?_word64.mp hk
      show Json.whole n.toNat = .whole (UInt64.ofNat n.toNat).toNat
      rw [UInt64.ofNat_toNat]
    · intro h
      have hk : v.natBelow? UInt64.size = some x.toNat := Json.natBelow?_word64.mpr ⟨x, h, rfl⟩
      show (v.natBelow? UInt64.size).map UInt64.ofNat = some x
      rw [hk, Option.map_some, UInt64.ofNat_toNat]
  | startIndex =>
    change Int64 at x
    constructor
    · intro h
      cases v with
      | number n =>
        obtain ⟨i, hi, h⟩ := Option.bind_eq_some_iff.mp h
        split at h
        · rename_i hrange
          cases h
          show Json.number n = .whole (Int64.ofInt i).toInt
          have hge : Index.least ≤ i := hrange.1
          have hle : i ≤ Index.greatest := hrange.2
          unfold Index.least at hge
          unfold Index.greatest at hle
          rw [Numeral.eq_ofInt_of_toInt? hi, Int64.toInt_ofInt_of_le (by omega) (by omega)]
          rfl
        · cases h
      | _ => cases h
    · intro h
      obtain rfl : v = .whole x.toInt := h
      have hrange : Index.InRange x.toInt := by
        have hlt := x.toInt_lt
        have hge := x.le_toInt
        unfold Index.InRange Index.least Index.greatest
        omega
      show ((Numeral.ofInt x.toInt).toInt?.bind fun i => if Index.InRange i then some (Int64.ofInt i) else none) = some x
      rw [Numeral.toInt?_ofInt, Option.bind_some, if_pos hrange, Int64.ofInt_toInt]
  | pollInterval => exact Duration.ofJson?_eq_some_iff

/-- The values of the members named after a parameter, in order. -/
def given (f : Field) (members : List (Utf16 × Json)) : List Json :=
  (members.filter fun m => m.1 = Json.fieldName f.name).map (·.2)

theorem named?_eq_some_iff {name : Utf16} {f : Field} : named? name = some f ↔ name = Json.fieldName f.name := by
  constructor
  · intro h
    have hp := List.find?_some h
    exact (of_decide_eq_true hp).symm
  · rintro rfl
    cases f <;> decide

theorem name_inj {f g : Field} (h : Json.fieldName f.name = Json.fieldName g.name) : f = g :=
  Option.some.inj ((named?_eq_some_iff.mpr rfl).symm.trans (named?_eq_some_iff.mpr h))

theorem given_cons_self (f : Field) (v : Json) (ms : List (Utf16 × Json)) :
    f.given ((Json.fieldName f.name, v) :: ms) = v :: f.given ms := by
  simp [given]

theorem given_cons_ne {f : Field} {name : Utf16} (h : name ≠ Json.fieldName f.name) {v : Json}
    {ms : List (Utf16 × Json)} : f.given ((name, v) :: ms) = f.given ms := by
  simp [given, h]

end Field

def value (s : Settings) : (f : Field) → f.Value
  | .capacity => s.capacity
  | .startIndex => s.startIndex
  | .pollInterval => s.pollInterval

/-- What the members named after a parameter make it: its default if there is none, what the
    one says if there is one, and nothing if there are more. -/
inductive Field.Settles (f : Field) : List Json → f.Value → Prop where
  | absent : Settles f [] (default.value f)
  | given {v : Json} {x : f.Value} : f.Says v x → Settles f [v] x

namespace Draft

def value? (d : Draft) : (f : Field) → Option f.Value
  | .capacity => d.capacity
  | .startIndex => d.startIndex
  | .pollInterval => d.pollInterval

def put (d : Draft) : (f : Field) → f.Value → Draft
  | .capacity, (n : UInt64) => { d with capacity := some n }
  | .startIndex, (i : Int64) => { d with startIndex := some i }
  | .pollInterval, (p : Duration) => { d with pollInterval := some p }

/-- The draft of which so much has been read. -/
def ofValues (g : (f : Field) → Option f.Value) : Draft := ⟨g .capacity, g .startIndex, g .pollInterval⟩

@[simp] theorem value?_ofValues (g : (f : Field) → Option f.Value) (f : Field) : (ofValues g).value? f = g f := by
  cases f <;> rfl

theorem ext_value? {d e : Draft} (h : ∀ f, d.value? f = e.value? f) : d = e := by
  obtain ⟨n, i, p⟩ := d
  obtain ⟨m, j, q⟩ := e
  congr 1
  · exact h .capacity
  · exact h .startIndex
  · exact h .pollInterval

@[simp] theorem value?_put (d : Draft) (f : Field) (x : f.Value) : (d.put f x).value? f = some x := by
  cases f <;> rfl

theorem value?_put_ne (d : Draft) {f g : Field} (h : g ≠ f) (x : f.Value) : (d.put f x).value? g = d.value? g := by
  cases f <;> cases g <;> first | rfl | exact absurd rfl h

theorem value_settings (d : Draft) (f : Field) : d.settings.value f = (d.value? f).getD (default.value f) := by
  cases f <;> rfl

theorem take_eq (d : Draft) (v : Json) (f : Field) :
    d.take v f = if (d.value? f).isSome then none else (f.read? v).map (d.put f) := by
  cases f with
  | capacity =>
    simp only [take, Field.read?, value?]
    cases v.natBelow? UInt64.size <;> rfl
  | startIndex =>
    simp only [take, value?]
    cases v with
    | number n =>
      simp only [Field.read?]
      cases n.toInt? with
      | none => rfl
      | some i => by_cases hi : Index.InRange i <;> simp only [Option.bind_some, bind, hi] <;> rfl
    | _ => rfl
  | pollInterval => rfl

/-- Reading a parameter puts into its place what the value says of it, if the place is free. -/
theorem take_eq_some_iff {d e : Draft} {v : Json} {f : Field} :
    d.take v f = some e ↔ d.value? f = none ∧ ∃ x, f.Says v x ∧ e = d.put f x := by
  rw [take_eq]
  by_cases hnone : d.value? f = none
  · rw [hnone, if_neg (by simp), Option.map_eq_some_iff]
    constructor
    · rintro ⟨x, hx, rfl⟩
      exact ⟨rfl, x, Field.read?_eq_some_iff.mp hx, rfl⟩
    · rintro ⟨-, x, hx, rfl⟩
      exact ⟨x, Field.read?_eq_some_iff.mpr hx, rfl⟩
  · rw [if_pos (Option.isSome_iff_ne_none.mpr hnone)]
    constructor
    · intro h
      cases h
    · intro h
      exact absurd h.1 hnone

/-- What a member does: it must be named by a text, and is read if that is the name of a
    parameter. -/
theorem member_eq_some_iff {d e : Draft} {name : Utf16} {v : Json} :
    d.member (name, v) = some e ↔ name.paired ∧
      ((∃ f : Field, name = Json.fieldName f.name ∧ d.take v f = some e) ∨
        ((∀ f : Field, name ≠ Json.fieldName f.name) ∧ d = e)) := by
  simp only [member]
  by_cases hpaired : name.paired
  · rw [if_pos hpaired]
    cases hnamed : Field.named? name with
    | none =>
      have hother : ∀ f : Field, name ≠ Json.fieldName f.name := by
        intro f hf
        rw [Field.named?_eq_some_iff.mpr hf] at hnamed
        cases hnamed
      constructor
      · intro h
        exact ⟨hpaired, .inr ⟨hother, Option.some.inj h⟩⟩
      · rintro ⟨-, ⟨f, hf, -⟩ | ⟨-, rfl⟩⟩
        · exact absurd hf (hother f)
        · rfl
    | some f =>
      have hf := Field.named?_eq_some_iff.mp hnamed
      constructor
      · intro h
        exact ⟨hpaired, .inl ⟨f, hf, h⟩⟩
      · rintro ⟨-, ⟨g, hg, h⟩ | ⟨hother, -⟩⟩
        · rw [Field.named?_eq_some_iff.mpr hg] at hnamed
          cases hnamed
          exact h
        · exact absurd hf (hother f)
  · rw [if_neg hpaired]
    constructor
    · intro h
      cases h
    · intro h
      exact absurd h.1 hpaired

/-- What reading members does to the place of a parameter: nothing if none is named after it,
    else the one that is fills it. -/
inductive Fills (f : Field) : List Json → Option f.Value → Option f.Value → Prop where
  | absent {o : Option f.Value} : Fills f [] o o
  | given {v : Json} {x : f.Value} : f.Says v x → Fills f [v] none (some x)

theorem Fills.of_nil {f : Field} {o o' : Option f.Value} (h : Fills f [] o o') : o = o' := by
  cases h
  rfl

/-- A place that is filled is filled for good. -/
theorem Fills.of_some {f : Field} {vs : List Json} {x : f.Value} {o : Option f.Value} (h : Fills f vs (some x) o) :
    vs = [] ∧ o = some x := by
  cases h
  exact ⟨rfl, rfl⟩

theorem Fills.of_cons {f : Field} {v : Json} {vs : List Json} {o o' : Option f.Value} (h : Fills f (v :: vs) o o') :
    vs = [] ∧ o = none ∧ ∃ x, f.Says v x ∧ o' = some x := by
  cases h with
  | given hx => exact ⟨rfl, rfl, _, hx, rfl⟩

/-- Members are read one by one into free places. -/
theorem foldlM_member_eq_some_iff {d e : Draft} {members : List (Utf16 × Json)} :
    members.foldlM member d = some e ↔
      (∀ m ∈ members, m.1.paired) ∧ ∀ f, Fills f (f.given members) (d.value? f) (e.value? f) := by
  induction members generalizing d with
  | nil =>
    constructor
    · intro h
      cases h
      exact ⟨by simp, fun f => .absent⟩
    · rintro ⟨-, h⟩
      rw [ext_value? fun f => (h f).of_nil]
      rfl
  | cons m ms ih =>
    obtain ⟨name, v⟩ := m
    rw [List.foldlM_cons, Option.bind_eq_bind, Option.bind_eq_some_iff, List.forall_mem_cons]
    constructor
    · rintro ⟨d', hm, hms⟩
      obtain ⟨hpaired, hm⟩ := member_eq_some_iff.mp hm
      obtain ⟨hrest, hfills⟩ := ih.mp hms
      refine ⟨⟨hpaired, hrest⟩, ?_⟩
      intro g
      have hg := hfills g
      rcases hm with ⟨f, hf, htake⟩ | ⟨hother, rfl⟩
      · obtain ⟨hfree, x, hx, rfl⟩ := take_eq_some_iff.mp htake
        by_cases hgf : g = f
        · subst hgf
          rw [hf, Field.given_cons_self, hfree]
          rw [value?_put] at hg
          obtain ⟨hnone, hvalue⟩ := hg.of_some
          rw [hnone, hvalue]
          exact .given hx
        · rwa [Field.given_cons_ne (fun e => hgf (Field.name_inj (e.symm.trans hf))), ← value?_put_ne d hgf x]
      · rwa [Field.given_cons_ne (hother g)]
    · rintro ⟨⟨hpaired, hrest⟩, hfills⟩
      by_cases hnamed : ∃ f : Field, name = Json.fieldName f.name
      · obtain ⟨f, rfl⟩ := hnamed
        have hf := hfills f
        rw [Field.given_cons_self] at hf
        obtain ⟨hnone, hfree, x, hx, hvalue⟩ := hf.of_cons
        refine ⟨d.put f x, member_eq_some_iff.mpr ⟨hpaired, .inl ⟨f, rfl, take_eq_some_iff.mpr ⟨hfree, x, hx, rfl⟩⟩⟩,
          ih.mpr ⟨hrest, fun g => ?_⟩⟩
        by_cases hgf : g = f
        · subst hgf
          rw [hnone, value?_put, hvalue]
          exact .absent
        · rw [value?_put_ne d hgf, ← Field.given_cons_ne fun e => hgf (Field.name_inj e.symm)]
          exact hfills g
      · have hother : ∀ f : Field, name ≠ Json.fieldName f.name := fun f hf => hnamed ⟨f, hf⟩
        refine ⟨d, member_eq_some_iff.mpr ⟨hpaired, .inr ⟨hother, rfl⟩⟩, ih.mpr ⟨hrest, fun g => ?_⟩⟩
        rw [← Field.given_cons_ne (hother g)]
        exact hfills g

end Draft

/-! ## Objects and lists -/

theorem ext_value {s t : Settings} (h : ∀ f, s.value f = t.value f) : s = t := by
  obtain ⟨n, i, p⟩ := s
  obtain ⟨m, j, q⟩ := t
  congr 1
  · exact h .capacity
  · exact h .startIndex
  · exact h .pollInterval

/-- An object is read as the settings of which each parameter is settled by the members named
    after it. -/
theorem ofJson?_object_iff {members : List (Utf16 × Json)} {s : Settings} :
    ofJson? (.object members) = some s ↔
      (∀ m ∈ members, m.1.paired) ∧ ∀ f : Field, f.Settles (f.given members) (s.value f) := by
  simp only [ofJson?, Option.map_eq_some_iff]
  constructor
  · rintro ⟨d, hread, rfl⟩
    obtain ⟨hpaired, hfills⟩ := Draft.foldlM_member_eq_some_iff.mp hread
    refine ⟨hpaired, fun f => ?_⟩
    have hf : Draft.Fills f (f.given members) none (d.value? f) := by
      have hf := hfills f
      rwa [show Draft.value? {} f = none by cases f <;> rfl] at hf
    rw [Draft.value_settings]
    generalize f.given members = vs at hf
    generalize d.value? f = o at hf
    cases hf with
    | absent => exact .absent
    | given hx => exact .given hx
  · rintro ⟨hpaired, hsettles⟩
    refine ⟨.ofValues fun f => if f.given members = [] then none else some (s.value f),
      Draft.foldlM_member_eq_some_iff.mpr ⟨hpaired, fun f => ?_⟩, ext_value fun f => ?_⟩
    · have hf := hsettles f
      rw [Draft.value?_ofValues, show Draft.value? {} f = none by cases f <;> rfl]
      generalize f.given members = vs at hf
      generalize s.value f = x at hf
      cases hf with
      | absent => exact .absent
      | given hx => exact .given hx
    · have hf := hsettles f
      rw [Draft.value_settings, Draft.value?_ofValues]
      generalize f.given members = vs at hf
      generalize s.value f = x at hf
      cases hf <;> rfl

/-- An item is read as the member of that parameter. -/
theorem Draft.member_name (d : Draft) (f : Field) (v : Json) : d.member (Json.fieldName f.name, v) = d.take v f := by
  have hpaired : (Json.fieldName f.name).paired = true := Utf16.paired_ofChars _
  have hnamed : Field.named? (Json.fieldName f.name) = some f := Field.named?_eq_some_iff.mpr rfl
  simp only [member, hpaired, if_true, hnamed]

theorem Draft.foldlM_item {d : Draft} {fs : List Field} {items : List Json} (h : items.length ≤ fs.length) :
    (items.foldlM item (d, fs)).map (·.1) = ((fs.map fun f => Json.fieldName f.name).zip items).foldlM member d := by
  induction items generalizing d fs with
  | nil =>
    rw [List.zip_nil_right]
    rfl
  | cons v items ih =>
    cases fs with
    | nil => exact absurd h (by simp)
    | cons f fs =>
      rw [List.foldlM_cons, List.map_cons, List.zip_cons_cons, List.foldlM_cons, member_name]
      simp only [item]
      cases d.take v f with
      | none => rfl
      | some e => exact ih (Nat.le_of_succ_le_succ h)

theorem Draft.foldlM_item_eq_none {d : Draft} {fs : List Field} {items : List Json} (h : fs.length < items.length) :
    items.foldlM item (d, fs) = none := by
  induction items generalizing d fs with
  | nil => exact absurd h (Nat.not_lt_zero _)
  | cons v items ih =>
    rw [List.foldlM_cons]
    cases fs with
    | nil => rfl
    | cons f fs =>
      simp only [item]
      cases d.take v f with
      | none => rfl
      | some e => exact ih (Nat.lt_of_succ_lt_succ h)

end Chronicle.Settings
