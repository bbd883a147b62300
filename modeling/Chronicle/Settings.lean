/-
  Chronicle.Settings — what a series is built from.

  Any settings can be written down; `Settings.fault?` says whether they describe a
  series. The faults are looked for in a fixed order: capacity, poll interval, first
  index.
-/

import Chronicle.Fault

namespace Chronicle

structure Settings where
  /-- How many elements are retained. -/
  capacity : UInt64 := 1000
  /-- The index of the first element. -/
  startIndex : Int64 := 0
  /-- How long a cancellable wait sleeps between two looks at its flag. -/
  pollInterval : Duration := Duration.millis 10
  deriving DecidableEq, Repr, Inhabited

namespace Settings

/-- The settings of a series about which nothing was said. -/
def default : Settings := {}

def ofCapacity (n : UInt64) : Settings := { default with capacity := n }

def start (s : Settings) : Int := s.startIndex.toInt

def fault? (s : Settings) : Option SettingsFault :=
  if s.capacity = 0 then some .zeroCapacity
  else if s.pollInterval.isZero then some .zeroPollInterval
  else if s.start = Index.least then some .startIndexOutOfRange
  else none

def debug (s : Settings) : String :=
  String.ofList <|
    "TimeSeriesConfig \x7b capacity: ".toList ++ Decimal.ofNat s.capacity.toNat ++
    ", start_index: ".toList ++ Decimal.ofInt s.start ++
    ", cancel_poll_interval: ".toList ++ s.pollInterval.chars ++ " \x7d".toList

end Settings

end Chronicle
