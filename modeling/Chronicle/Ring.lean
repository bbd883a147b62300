/-
  Chronicle.Ring — the bounded history: a fixed number of slots, reused in turn.

  Index `i` lives in slot `i mod capacity`. The ring holds the elements of the indices
  from `oldest` to `newest`; a push takes the next index, evicts the oldest one if the
  ring was full, and hands back whatever its slot held. These changes are made one after
  another, so that a panic may come between two of them.

  All slots are allocated at the start. `Memory` says what a slot takes and what there is;
  only filled slots are stored here.

  All arithmetic on indices is checked (`Index.sum`, `Index.difference`).
-/

import Std.Data.TreeMap
import Chronicle.Index

namespace Chronicle

/-- What slots are allocated from. -/
structure Memory where
  /-- The bytes of a slot: eight for a stamp, and at least as many again for the value and
      whether there is one. -/
  slotBytes : Nat
  le_slotBytes : 16 ≤ slotBytes
  /-- The bytes that can be had at once. -/
  room : Nat

/-- No object has more bytes. -/
def Memory.limit : Nat := 9223372036854775807

structure Ring (σ : Type) where
  /-- How many slots there are. -/
  capacity : Nat
  /-- The filled slots. -/
  slots : Std.TreeMap Nat σ
  /-- The first retained index; the next one to come while there is none. -/
  oldest : Int
  /-- The last index given out; the one before the first while there is none. -/
  newest : Int
  /-- The last index passed to `tag`. -/
  tagged : Int

namespace Ring

variable {σ : Type}

/-- An empty ring whose first index is `start`. More slots than an object can have are a
    panic; there is no ring if they could be had but for want of room. -/
def empty? (memory : Memory) (capacity : Nat) (start : Int) : Except Panic (Option (Ring σ)) := do
  let bytes := capacity * memory.slotBytes
  if Memory.limit < bytes then
    throw .capacityOverflow
  if memory.room < bytes then
    return none
  let before ← Index.difference start 1
  return some ⟨capacity, ∅, start, before, before⟩

def slotOf (r : Ring σ) (i : Int) : Nat := (i % (r.capacity : Int)).toNat

def slot? (r : Ring σ) (n : Nat) : Option σ := r.slots[n]?

/-- An index that was given out and is no longer retained, or lies before all of them. -/
def evicted (r : Ring σ) (i : Int) : Bool := i < r.oldest

def length (r : Ring σ) : Except Panic Nat :=
  if r.newest < r.oldest then
    .ok 0
  else do
    let span ← Index.difference r.newest r.oldest
    let count ← Index.sum span 1
    return count.toNat

/-- Whether the indices from `oldest` to `newest` are more than there are slots. -/
def overfull (r : Ring σ) (newest : Int) : Except Panic Bool := do
  let span ← Index.difference newest r.oldest
  let count ← Index.sum span 1
  return (r.capacity : Int) < count

/-- Stores an element under the next index, and answers that index and the element its slot
    held before. A panic leaves what was changed before it. -/
def push (r : Ring σ) (x : σ) : EStateM.Result Panic (Ring σ) (Int × Option σ) :=
  let store : EStateM Panic (Ring σ) (Int × Option σ) := do
    let newest ← liftExcept (Index.sum (← get).newest 1)
    modify fun r => { r with newest }
    if ← liftExcept ((← get).overfull newest) then
      let oldest ← liftExcept (Index.sum (← get).oldest 1)
      modify fun r => { r with oldest }
    let n := (← get).slotOf newest
    let displaced := (← get).slot? n
    modify fun r => { r with slots := r.slots.insert n x }
    return (newest, displaced)
  store.run r

def element (r : Ring σ) (i : Int) : Except Panic σ :=
  match r.slot? (r.slotOf i) with
  | some x => .ok x
  | none => .error (.emptySlot i)

/-- How many elements were ever pushed onto a ring that began at `start`. -/
def countPushed (r : Ring σ) (start : Int) : Except Panic Nat := do
  let last ← Index.difference r.newest start
  let count ← Index.sum last 1
  return count.toNat

/-- Marks an index to compare `newest` with. -/
def tag (r : Ring σ) (i : Int) : Ring σ := { r with tagged := i }

/-- Whether the newest index is another than the marked one. -/
def changedSinceTag (r : Ring σ) : Bool := r.tagged != r.newest

theorem slot?_insert (r : Ring σ) (n m : Nat) (x : σ) :
    { r with slots := r.slots.insert n x }.slot? m = if n = m then some x else r.slot? m := by
  simp [slot?, Std.TreeMap.getElem?_insert]

end Ring

end Chronicle
