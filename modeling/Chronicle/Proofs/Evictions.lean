/-
  Chronicle.Proofs.Evictions — what goes into a ring comes out of it, or is still there.

  `r.pushAll xs` pushes elements in turn and collects what the pushes hand back. A push evicts
  by comparing the ends of the ring, but hands back whatever is in the slot of the new index;
  in a window on a log the two are about one element (`Window.displaces`), since the index a
  lap before the new one is the oldest if the ring is full, and not retained if it is not.

  Proved: a push puts its element at the end of what is retained, and takes from the front
  what it hands back (`Window.retained_push`); it fills a slot if it hands back nothing
  (`Window.size_push`). From it, by induction on the pushes: `evictions_lose_nothing`.
-/

import Chronicle.Proofs.Ring.Bounds
import Chronicle.Proofs.System.Coherence

namespace Chronicle

namespace Ring

variable {σ : Type}

/-- Pushes the elements in turn. Answers the ring, and what the pushes displaced, in order. -/
def pushAll (r : Ring σ) : List σ → Except Panic (Ring σ × List σ)
  | [] => .ok (r, [])
  | x :: xs =>
    match r.push x with
    | .ok (_, d) r' => (r'.pushAll xs).map fun (r'', displaced) => (r'', d.toList ++ displaced)
    | .error p _ => .error p

/-- What is found at the retained indices, from the oldest to the newest. -/
def retained (r : Ring σ) : List (Except Panic σ) :=
  (List.range (r.newest + 1 - r.oldest).toNat).map fun k : Nat => r.element (r.oldest + k)

/-- A push that brought `r` to `r'` displaced this: nothing unless the ring was full, and then the
    element of the index it evicted. -/
structure Displaces (r r' : Ring σ) (d : Option σ) : Prop where
  capacity : r'.capacity = r.capacity
  full : d.isSome = true ↔ r.length = .ok r.capacity
  evicted : ∀ x, d = some x → r.element r.oldest = .ok x ∧ r'.oldest = r.oldest + 1
  kept : d = none → r'.oldest = r.oldest

variable {r r' : Ring σ} {start i : Int} {log : List σ} {x : σ} {d : Option σ}

/-! ## One push -/

namespace Window

/-- What is retained is the end of the log. -/
theorem retained_eq (h : r.Window start log) : r.retained = (log.drop (r.oldest - start).toNat).map .ok := by
  have hnewest := h.newest_eq
  have hstart := h.start_le_oldest
  have hnext := h.oldest_le_newest_succ
  unfold retained
  apply List.ext_getElem
  · simp only [List.length_map, List.length_range, List.length_drop]
    omega
  · intro k hk hk'
    simp only [List.length_map, List.length_range] at hk
    obtain ⟨j, y, hj, hy, he⟩ := h.element (i := r.oldest + k) (by omega) (by omega)
    obtain rfl : j = (r.oldest - start).toNat + k := by omega
    rw [List.getElem_map, List.getElem_map, List.getElem_range, he, List.getElem_drop,
      (List.getElem?_eq_some_iff.mp hy).2]

/-- The slot of the next index is free, or has the oldest element if the ring is full. -/
theorem slot?_next (h : r.Window start log) :
    r.slot? (r.slotOf (r.newest + 1)) =
      if r.newest + 1 < r.oldest + r.capacity then none else log[(r.oldest - start).toNat]? := by
  have hnewest := h.newest_eq
  have hstart := h.start_le_oldest
  have hfull := h.newest_lt_oldest_add
  have hpos := h.capacity_pos
  split
  · rename_i hroom
    rcases hslot : r.slot? (r.slotOf (r.newest + 1)) with _ | y
    · rfl
    · obtain ⟨k, hk, ho, hs⟩ := (h.slot?_iff _ y).mp hslot
      have hlt := (List.getElem?_eq_some_iff.mp hk).1
      have := slotOf_inj hpos (i := start + k) (j := r.newest + 1) (by omega) (by omega) hs
      omega
  · have hlap : r.newest + 1 = r.oldest + r.capacity := by omega
    have holdest : r.oldest = start + (r.oldest - start).toNat := by omega
    have hlt : (r.oldest - start).toNat < log.length := by omega
    rw [hlap, slotOf_add_capacity, List.getElem?_eq_getElem hlt]
    refine (h.slot?_iff _ _).mpr ⟨(r.oldest - start).toNat, List.getElem?_eq_getElem hlt, ?_, ?_⟩
    · omega
    · rw [← holdest]

section

variable (h : r.Window start log) (hp : r.push x = .ok (i, d) r')

include h hp

theorem displaced_eq : d = if r.newest + 1 < r.oldest + r.capacity then none else log[(r.oldest - start).toNat]? := by
  have he := h.push_eq (h.newest_lt_of_push hp) x
  rw [hp] at he
  cases he
  exact h.slot?_next

theorem oldest_push : r'.oldest = if r.newest + 1 < r.oldest + r.capacity then r.oldest else r.oldest + 1 := by
  rw [(h.push hp).2.1]
  rfl

theorem capacity_push : r'.capacity = r.capacity := by
  rw [(h.push hp).2.1]
  rfl

theorem displaces : r.Displaces r' d := by
  have hd := h.displaced_eq hp
  have ho := h.oldest_push hp
  have hnewest := h.newest_eq
  have hstart := h.start_le_oldest
  have hfull := h.newest_lt_oldest_add
  have hpos := h.capacity_pos
  have hlength := h.length_eq
  by_cases hroom : r.newest + 1 < r.oldest + r.capacity
  · rw [if_pos hroom] at hd ho
    subst hd
    refine ⟨h.capacity_push hp, ?_, ?_, fun _ => ho⟩
    · rw [hlength, Except.ok.injEq]
      constructor
      · intro hsome
        cases hsome
      · intro hcount
        omega
    · intro y hy
      cases hy
  · rw [if_neg hroom] at hd ho
    have hlt : (r.oldest - start).toNat < log.length := by omega
    rw [List.getElem?_eq_getElem hlt] at hd
    refine ⟨h.capacity_push hp, ?_, ?_, fun hnone => by rw [hd] at hnone; cases hnone⟩
    · rw [hd, hlength, Except.ok.injEq]
      constructor
      · intro _
        omega
      · intro _
        rfl
    · intro y hy
      obtain ⟨k, z, hk, hz, he⟩ := h.element (i := r.oldest) (by omega) (by omega)
      obtain rfl : k = (r.oldest - start).toNat := by omega
      rw [List.getElem?_eq_getElem hlt] at hz
      rw [he, ← Option.some.inj hz, Option.some.inj (hd.symm.trans hy)]
      exact ⟨rfl, ho⟩

/-- The element joins what is retained at one end, and what is displaced leaves it at the other. -/
theorem retained_push : r.retained ++ [.ok x] = d.toList.map .ok ++ r'.retained := by
  have hd := h.displaced_eq hp
  have ho := h.oldest_push hp
  have hnewest := h.newest_eq
  have hstart := h.start_le_oldest
  have hnext := h.oldest_le_newest_succ
  have hpos := h.capacity_pos
  have hle : (r.oldest - start).toNat ≤ log.length := by omega
  rw [h.retained_eq, (h.push hp).1.retained_eq, ho]
  by_cases hroom : r.newest + 1 < r.oldest + r.capacity
  · rw [hd, if_pos hroom, if_pos hroom, List.drop_append_of_le_length hle, List.map_append]
    rfl
  · have hlt : (r.oldest - start).toNat < log.length := by omega
    rw [hd, if_neg hroom, if_neg hroom, List.getElem?_eq_getElem hlt,
      show (r.oldest + 1 - start).toNat = (r.oldest - start).toNat + 1 by omega, List.drop_append_of_le_length hlt,
      List.drop_eq_getElem_cons hlt, List.map_append, List.map_cons]
    rfl

/-- A push fills a slot, unless its element takes the place of another. -/
theorem size_push (hsize : r.length = .ok r.slots.size) : r'.length = .ok r'.slots.size := by
  have hpush := h.push hp
  have hnext := h.slot?_next
  have hnewest := h.newest_eq
  have hstart := h.start_le_oldest
  have hsucc := h.oldest_le_newest_succ
  have hfull := h.newest_lt_oldest_add
  have hpos := h.capacity_pos
  rw [h.length_eq, Except.ok.injEq] at hsize
  rw [hpush.1.length_eq, hpush.2.1, Except.ok.injEq]
  have hfilled : r.slots.contains (r.slotOf (r.newest + 1)) = (r.slot? (r.slotOf (r.newest + 1))).isSome :=
    Std.TreeMap.contains_eq_isSome_getElem?
  rw [hnext] at hfilled
  simp only [pushed, Std.TreeMap.size_insert, hfilled]
  by_cases hroom : r.newest + 1 < r.oldest + r.capacity
  · simp only [if_pos hroom, Option.isSome_none, Bool.false_eq_true, if_false]
    omega
  · have hlt : (r.oldest - start).toNat < log.length := by omega
    simp only [if_neg hroom, List.getElem?_eq_getElem hlt, Option.isSome_some, if_true]
    omega

end

end Window

/-! ## Pushes in turn -/

theorem pushAll_cons (xs : List σ) (hp : r.push x = .ok (i, d) r') :
    r.pushAll (x :: xs) = (r'.pushAll xs).map fun p => (p.1, d.toList ++ p.2) := by
  simp only [pushAll, hp]

/-- Pushes in turn succeed as long as there is a next index. -/
theorem Window.pushAll_isOk (h : r.Window start log) (xs : List σ) (hroom : r.newest + xs.length ≤ Index.greatest) :
    ∃ p, r.pushAll xs = .ok p := by
  induction xs generalizing r log with
  | nil => exact ⟨_, rfl⟩
  | cons x xs ih =>
    rw [List.length_cons] at hroom
    have hp := h.push_eq (by omega) x
    obtain ⟨p, hxs⟩ := ih (h.push hp).1 (by show r.newest + 1 + xs.length ≤ _; omega)
    exact ⟨_, by rw [pushAll_cons xs hp, hxs]; rfl⟩

theorem Window.pushAll_overflow (h : r.Window start log) {xs : List σ} (hroom : Index.greatest < r.newest + xs.length) :
    r.pushAll xs = .error .addOverflow := by
  induction xs generalizing r log with
  | nil =>
    have := h.newest_le
    simp only [List.length_nil] at hroom
    omega
  | cons x xs ih =>
    rw [List.length_cons] at hroom
    by_cases hlast : r.newest = Index.greatest
    · simp only [pushAll, push_eq_error hlast]
    · have hp := h.push_eq (x := x) (by have := h.newest_le; omega)
      rw [pushAll_cons xs hp, ih (h.push hp).1 (by show _ < r.newest + 1 + xs.length; omega)]
      rfl

/-- What was retained and what is pushed is what is displaced and what is retained then. -/
theorem Window.pushAll (h : r.Window start log) (hsize : r.length = .ok r.slots.size) {xs displaced : List σ}
    (hp : r.pushAll xs = .ok (r', displaced)) :
    r'.Window start (log ++ xs) ∧ r'.capacity = r.capacity ∧ r'.length = .ok r'.slots.size ∧
      r.retained ++ xs.map .ok = displaced.map .ok ++ r'.retained := by
  induction xs generalizing r log displaced with
  | nil =>
    cases hp
    exact ⟨by rwa [List.append_nil], rfl, hsize, by simp⟩
  | cons x xs ih =>
    obtain ⟨j, d, u, hpush⟩ : ∃ j d u, r.push x = .ok (j, d) u := by
      cases hpush : r.push x with
      | ok jd u => exact ⟨jd.1, jd.2, u, rfl⟩
      | error p u =>
        simp only [Ring.pushAll, hpush] at hp
        cases hp
    rw [pushAll_cons xs hpush] at hp
    rcases hxs : u.pushAll xs with p | ⟨v, ds⟩
    · rw [hxs] at hp
      cases hp
    rw [hxs] at hp
    obtain ⟨rfl, rfl⟩ : v = r' ∧ d.toList ++ ds = displaced := by cases hp; exact ⟨rfl, rfl⟩
    obtain ⟨hwindow, hcapacity, hlength, hretained⟩ := ih (h.push hpush).1 (h.size_push hpush hsize) hxs
    rw [List.append_assoc] at hwindow
    refine ⟨hwindow, hcapacity.trans (h.displaces hpush).capacity, hlength, ?_⟩
    calc r.retained ++ (x :: xs).map .ok
        = r.retained ++ [.ok x] ++ xs.map .ok := by simp
      _ = d.toList.map .ok ++ (u.retained ++ xs.map .ok) := by rw [h.retained_push hpush, List.append_assoc]
      _ = (d.toList ++ ds).map .ok ++ v.retained := by rw [hretained, List.map_append, List.append_assoc]

theorem size_of_empty? {memory : Memory} {capacity : Nat} (h : empty? memory capacity start = .ok (some r)) :
    r.slots.size = 0 := by
  obtain ⟨-, -, rfl⟩ := empty?_eq_some_iff.mp h
  rfl

end Ring

namespace System

variable {α : Type} {o : Opening} {memory : Memory} {clock : Clock} {now : Nat} {s₀ : System α}

/-- Elements pushed onto a new ring are handed back or still there, each once and in order; a push
    hands one back only if the ring was full, and it is the one at the index that the push evicts. -/
theorem evictions_lose_nothing (ho : (o.run memory clock now).2 = .opened s₀) (xs : List (Sample α)) :
    (o.settings.start + xs.length - 1 ≤ Index.greatest →
      ∃ r displaced, s₀.ring.pushAll xs = .ok (r, displaced) ∧
        displaced.map .ok ++ r.retained = xs.map .ok ∧
        r.capacity = o.settings.capacity.toNat ∧ r.length = .ok r.slots.size ∧
        ∀ before x after, xs = before ++ x :: after → ∃ u ds u' d,
          s₀.ring.pushAll before = .ok (u, ds) ∧ u.push x = .ok (o.settings.start + before.length, d) u' ∧
            u.Displaces u' d) ∧
    (Index.greatest < o.settings.start + xs.length - 1 → s₀.ring.pushAll xs = .error .addOverflow) := by
  have hc := Coherent.of_opened ho
  have hw := hc.window
  have hcap := hc.capacity
  rw [settings_of_opened ho] at hw hcap
  have hnewest := hw.newest_eq
  simp only [List.length_nil] at hnewest
  have hsize : s₀.ring.length = .ok s₀.ring.slots.size := by
    obtain ⟨-, ring, hring, rfl⟩ := Opening.eq_initial_of_opened ho
    have holdest := hw.oldest_eq
    have hpos := hw.capacity_pos
    simp only [List.length_nil] at holdest
    rw [hw.length_eq, show (initial o.settings clock ring now).ring = ring from rfl, Ring.size_of_empty? hring,
      Except.ok.injEq]
    change ring.newest = _ at hnewest
    change ring.oldest = _ at holdest
    change 0 < ring.capacity at hpos
    omega
  have hretained : s₀.ring.retained = [] := by
    rw [hw.retained_eq, List.drop_nil]
    rfl
  refine ⟨?_, ?_⟩
  · intro hroom
    obtain ⟨⟨r, displaced⟩, hp⟩ := hw.pushAll_isOk xs (by omega)
    obtain ⟨-, hcapacity, hlength, hall⟩ := hw.pushAll hsize hp
    rw [hretained, List.nil_append] at hall
    refine ⟨r, displaced, hp, hall.symm, hcapacity.trans hcap, hlength, ?_⟩
    rintro before x after rfl
    rw [List.length_append, List.length_cons] at hroom
    obtain ⟨⟨u, ds⟩, hbefore⟩ := hw.pushAll_isOk before (by omega)
    have hu := (hw.pushAll hsize hbefore).1
    rw [List.nil_append] at hu
    have hunewest := hu.newest_eq
    have hpush := hu.push_eq (x := x) (by omega)
    refine ⟨u, ds, _, _, hbefore, ?_, hu.displaces hpush⟩
    rw [hpush, show u.newest + 1 = o.settings.start + before.length by omega]
  · intro hover
    exact hw.pushAll_overflow (by omega)

/-- Three elements pushed onto two slots from −1 on: the third push finds the ring full and hands back
    the first element, which it evicts; the other two are there. -/
theorem evictions_lose_nothing_lapped :
    ∃ r u u' x, small.ring.pushAll [⟨10, 0⟩, ⟨20, 0⟩, ⟨30, 0⟩] = .ok (r, [⟨10, 0⟩]) ∧
      r.retained = [.ok ⟨20, 0⟩, .ok ⟨30, 0⟩] ∧ r.capacity = 2 ∧ r.length = .ok r.slots.size ∧
      small.ring.pushAll [⟨10, 0⟩, ⟨20, 0⟩] = .ok (u, []) ∧ u.length = .ok 2 ∧
      u.push ⟨30, 0⟩ = .ok (1, some x) u' ∧ x.value = 10 ∧ u.element u.oldest = .ok x := by
  obtain ⟨hall, -⟩ := evictions_lose_nothing small_opened [⟨10, 0⟩, ⟨20, 0⟩, ⟨30, 0⟩]
  obtain ⟨r, displaced, hp, hkept, hcapacity, hlength, hpushes⟩ := hall (by decide)
  obtain ⟨u, ds, u', d, hbefore, hpush, hd⟩ := hpushes [⟨10, 0⟩, ⟨20, 0⟩] ⟨30, 0⟩ [] rfl
  have hthree : (small.ring.pushAll [⟨10, 0⟩, ⟨20, 0⟩, ⟨30, 0⟩]).toOption.map (·.2.length) = some 1 := by
    decide +kernel
  have htwo : (small.ring.pushAll [⟨10, 0⟩, ⟨20, 0⟩]).toOption.map (fun p => (p.2.length, p.1.capacity,
      p.1.length.toOption, (p.1.element p.1.oldest).toOption.map (·.value))) = some (0, 2, some 2, some 10) := by
    decide +kernel
  rw [hp] at hthree
  rw [hbefore] at htwo
  obtain ⟨hnone, hslots, hcount, hfirst⟩ : ds.length = 0 ∧ u.capacity = 2 ∧ u.length.toOption = some 2 ∧
      (u.element u.oldest).toOption.map (·.value) = some 10 := by
    simpa [Except.toOption] using htwo
  obtain rfl : ds = [] := List.eq_nil_of_length_eq_zero hnone
  have hfull : u.length = .ok 2 := by
    cases hu : u.length with
    | ok n => rw [hu] at hcount; cases hcount; rfl
    | error p => rw [hu] at hcount; cases hcount
  obtain ⟨x, rfl⟩ := Option.isSome_iff_exists.mp (hd.full.mpr (by rw [hfull, hslots]))
  obtain ⟨helement, -⟩ := hd.evicted x rfl
  rw [helement] at hfirst
  obtain ⟨y, rfl⟩ := List.length_eq_one_iff.mp (Option.some.inj hthree)
  obtain ⟨hy, hrest⟩ := List.cons.inj hkept
  cases hy
  exact ⟨r, u, u', x, hp, hrest, hcapacity, hlength, hbefore, hfull, hpush, Option.some.inj hfirst, helement⟩

end System

end Chronicle
