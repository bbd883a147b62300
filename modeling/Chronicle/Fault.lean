/-
  Chronicle.Fault — why a read has no value, and why settings are refused.

  A fault is a cause. `message` is the sentence shown to people, `debug` the cause with
  its fields; both keep every field, so they tell any two faults apart.
-/

import Chronicle.Index
import Chronicle.Duration.Text

namespace Chronicle

/-- Why a read has no value. -/
inductive ReadFault where
  /-- The index lies before the oldest retained one. -/
  | evicted (index oldest : Int)
  /-- The limit of the wait passed before the index was appended. -/
  | timeout (index : Int) (waited : Duration)
  /-- The flag of the wait was raised before the index was appended. -/
  | cancelled (index : Int)
  deriving DecidableEq, Repr, Inhabited

namespace ReadFault

def index : ReadFault → Int
  | .evicted i _ | .timeout i _ | .cancelled i => i

def isTimeout : ReadFault → Bool
  | .timeout .. => true
  | _ => false

def isEvicted : ReadFault → Bool
  | .evicted .. => true
  | _ => false

def messageChars : ReadFault → List Char
  | .evicted i o =>
    "index ".toList ++ Decimal.ofInt i ++ " is too old: oldest retained index is ".toList ++ Decimal.ofInt o
  | .timeout i w =>
    "timed out after ".toList ++ w.chars ++ " waiting for index ".toList ++ Decimal.ofInt i
  | .cancelled i => "wait for index ".toList ++ Decimal.ofInt i ++ " was cancelled".toList

def message (e : ReadFault) : String := String.ofList e.messageChars

def debugChars : ReadFault → List Char
  | .evicted i o =>
    "Evicted \x7b index: ".toList ++ Decimal.ofInt i ++ ", oldest: ".toList ++ Decimal.ofInt o ++ " \x7d".toList
  | .timeout i w =>
    "Timeout \x7b index: ".toList ++ Decimal.ofInt i ++ ", waited: ".toList ++ w.chars ++ " \x7d".toList
  | .cancelled i => "Cancelled \x7b index: ".toList ++ Decimal.ofInt i ++ " \x7d".toList

def debug (e : ReadFault) : String := String.ofList e.debugChars

end ReadFault

inductive SettingsFault where
  | zeroCapacity
  | zeroPollInterval
  /-- There is no index before the first one. -/
  | startIndexOutOfRange
  deriving DecidableEq, Repr, Inhabited

def SettingsFault.message : SettingsFault → String
  | .zeroCapacity => "capacity must be greater than zero"
  | .zeroPollInterval => "cancel poll interval must be greater than zero"
  | .startIndexOutOfRange => "start index must be greater than i64::MIN"

end Chronicle
