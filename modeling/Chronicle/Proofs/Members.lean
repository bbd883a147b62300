/-
  Chronicle.Proofs.Members — the members of an object decide which settings it describes.

  Members may come in any order, and any number of them may be about other things. A text of
  an object is read as settings exactly if no parameter is named twice and each that is named is
  given a value it takes (`f.Takes`, in plain terms); then each parameter is what its member says
  (`f.Says`), and the default if it has none. Since a parameter is settled by the members named
  after it alone, neither their order nor the other members matter. A list stands for the object
  of its items under the names of the parameters, in order.

  The names are texts, as names are; a name with half a surrogate pair is none, and an object
  with one is not read (`ofJson?_object_iff`).

  Proved: `described_by_members`.
-/

import Mathlib.Data.List.Perm.Basic
import Chronicle.Proofs.Settings.Decoding

namespace Chronicle

def Json.ofMembers (members : List (String × Json)) : Json := .object (members.map fun m => (fieldName m.1, m.2))

theorem Json.fieldName_inj {a b : String} (h : fieldName a = fieldName b) : a = b :=
  String.toList_inj.mp (Utf16.ofChars_inj h)

namespace Settings

variable {members others : List (String × Json)} {s : Settings} {text other : String} {f : Field} {v : Json}

namespace Field

/-- The values that may be given for a parameter: whole numbers in range, and durations of parts in
    range whose seconds do not run out when those among the nanoseconds are carried. -/
def Takes : Field → Json → Prop
  | .capacity, v => ∃ n : Nat, v = .whole n ∧ n ≤ 18446744073709551615
  | .startIndex, v => ∃ i : Int, v = .whole i ∧ -9223372036854775808 ≤ i ∧ i ≤ 9223372036854775807
  | .pollInterval, v => ∃ secs nanos, Duration.Written secs nanos v ∧
      secs.toNat + nanos.toNat / 1000000000 ≤ 18446744073709551615

def isName (name : String) : Bool := all.any fun f => f.name = name

/-- The values of the members named after a parameter, in order. -/
def among (f : Field) (members : List (String × Json)) : List Json :=
  (members.filter fun m => m.1 = f.name).map (·.2)

theorem takes_iff : f.Takes v ↔ ∃ x, f.Says v x := by
  cases f with
  | capacity =>
    constructor
    · rintro ⟨n, rfl, hle⟩
      have hn : (UInt64.ofNat n).toNat = n := UInt64.toNat_ofNat_of_lt' (by unfold UInt64.size; omega)
      exact ⟨UInt64.ofNat n, by show Json.whole n = .whole (UInt64.ofNat n).toNat; rw [hn]⟩
    · rintro ⟨n, hn⟩
      change UInt64 at n
      have hlt := n.toNat_lt
      exact ⟨n.toNat, hn, by omega⟩
  | startIndex =>
    constructor
    · rintro ⟨i, rfl, hge, hle⟩
      have hi : (Int64.ofInt i).toInt = i := Int64.toInt_ofInt_of_le (by omega) (by omega)
      exact ⟨Int64.ofInt i, by show Json.whole i = .whole (Int64.ofInt i).toInt; rw [hi]⟩
    · rintro ⟨i, hi⟩
      change Int64 at i
      have hge := i.le_toInt
      have hlt := i.toInt_lt
      exact ⟨i.toInt, hi, by omega, by omega⟩
  | pollInterval =>
    constructor
    · rintro ⟨secs, nanos, hwritten, hle⟩
      have hfits : secs.toNat + nanos.toNat / Duration.second < UInt64.size := by
        show secs.toNat + nanos.toNat / 1000000000 < 18446744073709551616
        omega
      obtain ⟨d, hd⟩ : ∃ d, Duration.ofParts? secs.toNat nanos.toNat = some d := ⟨_, if_pos hfits⟩
      exact ⟨d, secs, nanos, hwritten, Duration.ofParts?_eq_some_iff.mp hd⟩
    · rintro ⟨d, secs, nanos, hwritten, hsecs, -⟩
      have hlt := UInt64.toNat_lt (Duration.secs d)
      refine ⟨secs, nanos, hwritten, ?_⟩
      change _ = secs.toNat + nanos.toNat / 1000000000 at hsecs
      omega

theorem mem_among : v ∈ f.among members ↔ (f.name, v) ∈ members := by
  simp [among]

theorem length_among (f : Field) (members : List (String × Json)) :
    (f.among members).length = (members.filter fun m => m.1 = f.name).length := List.length_map _

theorem given_eq_among (f : Field) (members : List (String × Json)) :
    f.given (members.map fun m => (Json.fieldName m.1, m.2)) = f.among members := by
  induction members with
  | nil => rfl
  | cons m ms ih =>
    obtain ⟨name, v⟩ := m
    rw [List.map_cons]
    by_cases hname : name = f.name
    · subst hname
      rw [given_cons_self, ih]
      simp [among]
    · rw [given_cons_ne fun e => hname (Json.fieldName_inj e), ih]
      simp [among, hname]

/-- Members that are about other things, and the order of all, say nothing of a parameter. -/
theorem among_perm (h : (others.filter fun m => isName m.1).Perm (members.filter fun m => isName m.1)) (f : Field) :
    (f.among others).Perm (f.among members) := by
  have hnamed : ∀ members : List (String × Json),
      f.among members = ((members.filter fun m => isName m.1).filter fun m => m.1 = f.name).map (·.2) := by
    intro members
    unfold among
    rw [List.filter_filter]
    congr 1
    apply List.filter_congr
    intro m _
    by_cases hm : m.1 = f.name
    · have hname : isName m.1 := List.any_eq_true.mpr ⟨f, by cases f <;> decide, by rw [hm]; exact decide_eq_true rfl⟩
      rw [hname, Bool.and_true]
    · simp [hm]
  rw [hnamed others, hnamed members]
  exact (h.filter _).map _

theorem Settles.of_perm {vs ws : List Json} {x : f.Value} (h : f.Settles vs x) (hperm : ws.Perm vs) : f.Settles ws x := by
  cases h with
  | absent =>
    rw [hperm.eq_nil]
    exact .absent
  | given hx =>
    rw [List.perm_singleton.mp hperm]
    exact .given hx

theorem Settles.length_le {vs : List Json} {x : f.Value} (h : f.Settles vs x) : vs.length ≤ 1 := by
  cases h with
  | absent => exact Nat.zero_le 1
  | given => exact Nat.le_refl 1

theorem Settles.said {vs : List Json} {x : f.Value} (h : f.Settles vs x) (hv : v ∈ vs) : f.Says v x := by
  cases h with
  | absent => cases hv
  | given hx =>
    rw [List.mem_singleton.mp hv]
    exact hx

theorem Settles.default {vs : List Json} {x : f.Value} (h : f.Settles vs x) (hnone : ∀ v, v ∉ vs) :
    x = Settings.default.value f := by
  cases h with
  | absent => rfl
  | given => exact absurd (List.mem_singleton_self _) (hnone _)

theorem exists_settles {vs : List Json} (h : vs.length ≤ 1) (htakes : ∀ v ∈ vs, f.Takes v) : ∃ x, f.Settles vs x := by
  match vs with
  | [] => exact ⟨_, .absent⟩
  | [v] =>
    obtain ⟨x, hx⟩ := takes_iff.mp (htakes v (List.mem_singleton_self v))
    exact ⟨x, .given hx⟩
  | _ :: _ :: _ =>
    simp only [List.length_cons] at h
    omega

end Field

/-- An object whose members are named by texts is read as the settings that they settle. -/
theorem ofJson?_ofMembers_iff :
    ofJson? (.ofMembers members) = some s ↔ ∀ f : Field, f.Settles (f.among members) (s.value f) := by
  have hpaired : ∀ m ∈ members.map fun m => (Json.fieldName m.1, m.2), m.1.paired = true := by
    intro m hm
    obtain ⟨n, -, rfl⟩ := List.mem_map.mp hm
    exact Utf16.paired_ofChars _
  unfold Json.ofMembers
  rw [ofJson?_object_iff]
  simp only [Field.given_eq_among]
  exact ⟨fun h => h.2, fun h => ⟨hpaired, h⟩⟩

def ofValues (g : (f : Field) → f.Value) : Settings := ⟨g .capacity, g .startIndex, g .pollInterval⟩

theorem value_ofValues (g : (f : Field) → f.Value) (f : Field) : (ofValues g).value f = g f := by
  cases f <;> rfl

theorem read?_of_renders {v : Json} (h : v.Renders text.toList) : read? text = ofJson? v := by
  unfold read?
  rw [Json.ofChars?_of_renders h, Option.bind_some]

section

variable (h : (Json.ofMembers members).Renders text.toList)

include h

/-- A text of an object is read as settings exactly if some settings are settled by its members. -/
theorem read?_eq_some_iff : read? text = some s ↔ ∀ f : Field, f.Settles (f.among members) (s.value f) := by
  rw [read?_of_renders h, ofJson?_ofMembers_iff]

theorem read?_isSome_iff : (∃ s, read? text = some s) ↔
    (∀ f : Field, (members.filter fun m => m.1 = f.name).length ≤ 1) ∧
      ∀ (f : Field) v, (f.name, v) ∈ members → f.Takes v := by
  constructor
  · rintro ⟨s, hs⟩
    have hsettles := (read?_eq_some_iff h).mp hs
    constructor
    · intro f
      rw [← Field.length_among]
      exact (hsettles f).length_le
    · intro f v hv
      exact Field.takes_iff.mpr ⟨_, (hsettles f).said (Field.mem_among.mpr hv)⟩
  · rintro ⟨hlength, htakes⟩
    have hsettles : ∀ f : Field, ∃ x, f.Settles (f.among members) x := by
      intro f
      apply Field.exists_settles
      · rw [Field.length_among]
        exact hlength f
      · intro v hv
        exact htakes f v (Field.mem_among.mp hv)
    choose g hg using hsettles
    refine ⟨ofValues g, (read?_eq_some_iff h).mpr fun f => ?_⟩
    rw [value_ofValues]
    exact hg f

/-- Objects that say the same of each parameter are read alike. -/
theorem read?_perm (h' : (Json.ofMembers others).Renders other.toList)
    (hperm : (others.filter fun m => Field.isName m.1).Perm (members.filter fun m => Field.isName m.1)) :
    read? other = read? text := by
  apply Option.ext
  intro s
  rw [read?_eq_some_iff h, read?_eq_some_iff h']
  constructor
  · intro hsettles f
    exact (hsettles f).of_perm (Field.among_perm hperm f).symm
  · intro hsettles f
    exact (hsettles f).of_perm (Field.among_perm hperm f)

end

/-- A list stands for the object of its items under the names of the parameters. -/
theorem ofJson?_list {items : List Json} (h : items.length ≤ 3) :
    ofJson? (.list items) = ofJson? (.ofMembers ((Field.all.map Field.name).zip items)) := by
  have hmembers : ((Field.all.map Field.name).zip items).map (fun m => (Json.fieldName m.1, m.2)) =
      (Field.all.map fun f => Json.fieldName f.name).zip items := by
    rw [List.zip_map_left, List.zip_map_left, List.map_map]
    rfl
  calc ofJson? (.list items)
      = ((items.foldlM Draft.item ({}, Field.all)).map (·.1)).map Draft.settings := by rw [Option.map_map]; rfl
    _ = (((Field.all.map fun f => Json.fieldName f.name).zip items).foldlM Draft.member {}).map Draft.settings := by
      rw [Draft.foldlM_item h]
    _ = ofJson? (.ofMembers ((Field.all.map Field.name).zip items)) := by
      rw [← hmembers]
      rfl

/-- The members of an object decide alone which settings it describes, if any: none of the parameters may
    be named twice, and each that is named must be given a value it takes and is what that says; the
    others have their defaults. Members named otherwise, and the order, do not matter. Up to three
    items of a list stand for the members of the first parameters, and a longer list describes none. -/
theorem described_by_members :
    (∀ members text, (Json.ofMembers members).Renders text.toList →
      ((∃ s, read? text = some s) ↔
        (∀ f : Field, (members.filter fun m => m.1 = f.name).length ≤ 1) ∧
        ∀ (f : Field) v, (f.name, v) ∈ members → f.Takes v) ∧
      (∀ s, read? text = some s → ∀ f : Field,
        (∀ v, (f.name, v) ∈ members → f.Says v (s.value f)) ∧
        ((∀ v, (f.name, v) ∉ members) → s.value f = default.value f)) ∧
      ∀ others other, (Json.ofMembers others).Renders other.toList →
        (others.filter fun m => Field.isName m.1).Perm (members.filter fun m => Field.isName m.1) →
        read? other = read? text) ∧
    ∀ items text, (Json.list items).Renders text.toList →
      (items.length ≤ 3 → ∀ other, (Json.ofMembers ((Field.all.map Field.name).zip items)).Renders other.toList →
        read? text = read? other) ∧
      (3 < items.length → read? text = none) := by
  refine ⟨fun members text h => ⟨read?_isSome_iff h, ?_, fun others other h' => read?_perm h h'⟩, ?_⟩
  · intro s hs f
    have hsettles := (read?_eq_some_iff h).mp hs f
    constructor
    · intro v hv
      exact hsettles.said (Field.mem_among.mpr hv)
    · intro hnone
      exact hsettles.default fun v hv => hnone v (Field.mem_among.mp hv)
  · intro items text h
    constructor
    · intro hlength other hother
      rw [read?_of_renders h, read?_of_renders hother, ofJson?_list hlength]
    · intro hlength
      have hnone : items.foldlM Draft.item (({} : Draft), Field.all) = none := Draft.foldlM_item_eq_none hlength
      rw [read?_of_renders h]
      simp only [ofJson?, hnone, Option.map_none]

/-- A start index and an interval of more than a second of nanoseconds are read the same in either
    order and beside whatever else; a start index given twice is not read, and no list of four. -/
theorem described_by_members_permuted :
    read? "\x7b\"x\":\x7b\"a\":[null]\x7d,\"cancel_poll_interval\":[1,1500000000],\"start_index\":-5\x7d" =
      some ⟨1000, -5, ⟨2, 500000000⟩⟩ ∧
    read? "\x7b\"start_index\":-5,\"y\":-0,\"cancel_poll_interval\":[1,1500000000]\x7d" =
      some ⟨1000, -5, ⟨2, 500000000⟩⟩ ∧
    read? "\x7b\"start_index\":-5,\"start_index\":-5\x7d" = none ∧
    read? "[1,2,[3,4],null]" = none := by
  have renders : ∀ (v : Json) (text : String), text.toList = v.chars → v.Renders text.toList := by
    intro v text h
    rw [h]
    exact Json.renders_chars v
  let interval : String × Json := ("cancel_poll_interval", .list [.whole 1, .whole 1500000000])
  let start : String × Json := ("start_index", .whole (-5))
  obtain ⟨hobjects, hlists⟩ := described_by_members
  obtain ⟨-, -, hsame⟩ := hobjects [("x", .object [(Json.fieldName "a", .list [.null])]), interval, start]
    "\x7b\"x\":\x7b\"a\":[null]\x7d,\"cancel_poll_interval\":[1,1500000000],\"start_index\":-5\x7d"
    (renders _ _ (by decide +kernel))
  obtain ⟨htwice, -, -⟩ := hobjects [start, start] "\x7b\"start_index\":-5,\"start_index\":-5\x7d"
    (renders _ _ (by decide +kernel))
  have hread : read? "\x7b\"x\":\x7b\"a\":[null]\x7d,\"cancel_poll_interval\":[1,1500000000],\"start_index\":-5\x7d" =
      some ⟨1000, -5, ⟨2, 500000000⟩⟩ := by decide +kernel
  refine ⟨hread, ?_, ?_, ?_⟩
  · rw [← hread]
    exact hsame [start, ("y", .number ⟨true, 0, [], none⟩), interval] _ (renders _ _ (by decide +kernel)) (.swap _ _ _)
  · rw [Option.eq_none_iff_forall_ne_some]
    intro s hs
    exact absurd ((htwice.mp ⟨s, hs⟩).1 .startIndex) (by decide)
  · exact (hlists [.whole 1, .whole 2, .list [.whole 3, .whole 4], .null] _ (renders _ _ (by decide +kernel))).2 (by decide)

end Settings

end Chronicle
