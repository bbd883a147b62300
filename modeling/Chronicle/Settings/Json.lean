/-
  Chronicle.Settings.Json — settings as JSON.

  Settings are written as an object of all three fields. They are read from an object in
  which any field may be missing and unknown ones are skipped, or from a list of the
  fields in order, short of any number at the end. A field may occur once. Whole numbers
  must be written as such and fit their field; a duration is an object of exactly its
  two fields, or the list of them.
-/

import Chronicle.Settings
import Chronicle.Json.Reading

namespace Chronicle

/-- A natural number below `bound`, written as a whole number. -/
def Json.natBelow? (bound : Nat) : Json → Option Nat
  | .number n =>
    match n.toInt? with
    | some (.ofNat k) => if k < bound then some k else none
    | _ => none
  | _ => none

def Json.fieldName (s : String) : Utf16 := Utf16.ofChars s.toList

namespace Duration

structure Draft where
  secs : Option Nat := none
  nanos : Option Nat := none

def Draft.take (d : Draft) : Utf16 × Json → Option Draft
  | (name, v) =>
    if name = Json.fieldName "secs" then
      if d.secs.isSome then none else (v.natBelow? UInt64.size).map fun n => { d with secs := some n }
    else if name = Json.fieldName "nanos" then
      if d.nanos.isSome then none else (v.natBelow? UInt32.size).map fun n => { d with nanos := some n }
    else none

def ofJson? : Json → Option Duration
  | .object members => do
    let d ← members.foldlM Draft.take {}
    ofParts? (← d.secs) (← d.nanos)
  | .list [s, n] => do ofParts? (← s.natBelow? UInt64.size) (← n.natBelow? UInt32.size)
  | _ => none

def toJson (d : Duration) : Json :=
  .object [(Json.fieldName "secs", .number (.ofInt d.secs.toNat)),
    (Json.fieldName "nanos", .number (.ofInt d.nanos.val))]

end Duration

namespace Settings

/-- The parameters, in the order in which they are listed. -/
inductive Field where
  | capacity
  | startIndex
  | pollInterval
  deriving DecidableEq, Repr

def Field.name : Field → String
  | .capacity => "capacity"
  | .startIndex => "start_index"
  | .pollInterval => "cancel_poll_interval"

def Field.all : List Field := [.capacity, .startIndex, .pollInterval]

def Field.named? (name : Utf16) : Option Field :=
  Field.all.find? fun f => Json.fieldName f.name = name

structure Draft where
  capacity : Option UInt64 := none
  startIndex : Option Int64 := none
  pollInterval : Option Duration := none

namespace Draft

/-- Reads one parameter, which must not have been read before. -/
def take (d : Draft) (v : Json) : Field → Option Draft
  | .capacity =>
    if d.capacity.isSome then none
    else (v.natBelow? UInt64.size).map fun n => { d with capacity := some (UInt64.ofNat n) }
  | .startIndex =>
    if d.startIndex.isSome then none
    else
      match v with
      | .number n => do
        let i ← n.toInt?
        if Index.InRange i then some { d with startIndex := some (Int64.ofInt i) } else none
      | _ => none
  | .pollInterval =>
    if d.pollInterval.isSome then none
    else (Duration.ofJson? v).map fun p => { d with pollInterval := some p }

/-- Reads one member of an object. Its name must be text; an unknown one is skipped with
    whatever it holds. -/
def member (d : Draft) : Utf16 × Json → Option Draft
  | (name, v) =>
    if name.paired then
      match Field.named? name with
      | some f => d.take v f
      | none => some d
    else none

/-- Reads one item of a list, which must not have more items than there are fields. -/
def item (d : Draft × List Field) (v : Json) : Option (Draft × List Field) :=
  match d.2 with
  | [] => none
  | f :: fs => (d.1.take v f).map fun e => (e, fs)

/-- The settings read, with the default of each parameter that did not occur. -/
def settings (d : Draft) : Settings where
  capacity := d.capacity.getD Settings.default.capacity
  startIndex := d.startIndex.getD Settings.default.startIndex
  pollInterval := d.pollInterval.getD Settings.default.pollInterval

end Draft

def ofJson? : Json → Option Settings
  | .object members => (members.foldlM Draft.member {}).map Draft.settings
  | .list items => (items.foldlM Draft.item ({}, Field.all)).map (·.1.settings)
  | _ => none

def toJson (s : Settings) : Json :=
  .object [(Json.fieldName Field.capacity.name, .number (.ofInt s.capacity.toNat)),
    (Json.fieldName Field.startIndex.name, .number (.ofInt s.start)),
    (Json.fieldName Field.pollInterval.name, s.pollInterval.toJson)]

def read? (text : String) : Option Settings := (Json.ofChars? text.toList).bind ofJson?

def write (s : Settings) : String := String.ofList s.toJson.chars

end Settings

end Chronicle
