/-
  Chronicle.System — a series shared by threads, one small step at a time.

  A system is a series with its lock, its wait set, its clock, the flags, and the threads
  that call it. A thread's call is a sequence of phases, and every phase ends with one
  step. The steps of an append are: take the lock, read the clock, push, release the
  lock, wake all sleepers. A request that waits takes the lock and looks; to sleep, it
  releases the lock and joins the wait set in one step. It leaves the wait set when an
  append wakes it, when its time runs out, or for no reason, and then needs the lock
  again before it looks anew.

  `System.move?` is one move of the whole: any idle thread may make any call, any thread
  whose next step is possible may take it, a sleeper may wake, and time may pass. The
  order of moves is up to whoever schedules them; `System.run?` follows one schedule.

  A panic ends the call, with the lock released and nobody woken.
-/

import Chronicle.Ring.Answer
import Chronicle.Settings
import Chronicle.Thread

namespace Chronicle

variable {α : Type}

structure System (α : Type) where
  settings : Settings
  clock : Clock
  ring : Ring (Sample α)
  /-- How often the clock was read. -/
  readings : Nat
  flags : Flags
  now : Nat
  /-- Who has the lock. -/
  holder : Option Nat
  /-- The threads that ever made a call. -/
  threads : Std.TreeMap Nat (Thread α)

namespace System

/-- A series nobody has called yet. Its first flag is there from the start. -/
def initial (settings : Settings) (clock : Clock) (ring : Ring (Sample α)) (now : Nat) : System α :=
  ⟨settings, clock, ring, 0, .one, now, none, ∅⟩

def thread (s : System α) (t : Nat) : Thread α := s.threads.getD t {}

def phase (s : System α) (t : Nat) : Phase α := (s.thread t).phase

def become (s : System α) (t : Nat) (p : Phase α) : System α :=
  { s with threads := s.threads.insert t { s.thread t with phase := p } }

/-- Ends a thread's call with an answer, and reports what there is to report. -/
def reply (s : System α) (t : Nat) (c : Call α) (a : Answer α) (report : Option Event) : System α :=
  let th := s.thread t
  let ended : Thread α := ⟨.idle, ⟨c, a, s.now⟩ :: th.replies, report.toList ++ th.trace⟩
  { s with threads := s.threads.insert t ended }

def release (s : System α) : System α := { s with holder := none }

/-- Takes the lock for a thread and brings its call to a phase, if the lock is free. -/
def acquire (s : System α) (t : Nat) (p : Phase α) : Option (System α) :=
  match s.holder with
  | none => some ({ s with holder := some t }.become t p)
  | some _ => none

/-- Ends the call of a thread that has the lock with a fault. -/
def giveUp (s : System α) (t : Nat) (c : Call α) (e : ReadFault) : System α :=
  s.release.reply t c (c.request.refusal e) (some e.event)

def notifyAll (s : System α) : System α :=
  { s with threads := s.threads.map fun _ th => { th with phase := th.phase.notified } }

def answerFree (s : System α) : Request α → Flags × Answer α
  | .capacity => (s.flags, .count s.settings.capacity.toNat)
  | .start => (s.flags, .index s.settings.start)
  | .flag a =>
    (s.flags.after a, match a with
      | .fresh | .clone _ => .count (s.flags.subject a)
      | .raise _ | .lower _ => .done
      | .look n => .truth (s.flags.isRaised n))
  | _ => (s.flags, .done)

/-- The step of a thread that has just got the lock. -/
def enter (s : System α) (t : Nat) (c : Call α) : System α :=
  match c.request with
  | .append v =>
    { s with readings := s.readings + 1 }.become t (.stamped c ⟨v, s.clock s.readings s.now⟩)
  | request =>
    match request.target? s.settings.start with
    | some i =>
      if request.guarded ∧ s.ring.evicted i then
        s.giveUp t c (.evicted i s.ring.oldest)
      else
        s.become t (.looking c ⟨i, c.patience, s.now⟩)
    | none =>
      let (ring, a) := s.ring.perform s.settings.start request
      { s with ring }.release.reply t c a none

def look (s : System α) (t : Nat) (c : Call α) (w : Waiter) : System α :=
  match w.look s.ring.newest s.flags with
  | .satisfied =>
    match s.ring.serve c.request with
    | .ok a => s.release.reply t c a none
    | .error e => s.giveUp t c e
  | .gaveUp e => s.giveUp t c e
  | .plan => s.become t (.planning c w)
  | .sleep wake => s.release.become t (.asleep c w wake)

def step? (s : System α) (t : Nat) : Option (System α) :=
  match s.phase t with
  | .idle | .asleep .. => none
  | .ready c =>
    if c.request.lockFree then
      let (flags, a) := s.answerFree c.request
      some ({ s with flags }.reply t c a none)
    else
      s.acquire t (.entered c)
  | .entered c => some (s.enter t c)
  | .stamped c x =>
    match s.ring.push x with
    | .ok (i, _) ring => some ({ s with ring }.become t (.pushed c i))
    | .error p ring => some ({ s with ring }.release.reply t c (.panicked p) none)
  | .pushed c i => some (s.release.become t (.unlocked c i))
  | .unlocked c i => some (s.notifyAll.reply t c (.index i) none)
  | .looking c w => some (s.look t c w)
  | .planning c w => some (s.release.become t (.asleep c w (w.wakeAt s.settings.pollInterval s.now)))
  | .woken c w ranOut => s.acquire t (.resumed c w ranOut)
  | .resumed c w ranOut =>
    match w.lapse? s.ring.newest ranOut s.now with
    | some e => some (s.giveUp t c e)
    | none => some (s.become t (.looking c w))

def call? (s : System α) (t : Nat) (r : Request α) : Option (System α) :=
  match s.phase t with
  | .idle => some (s.become t (.ready ⟨r, s.now, r.limit.startingAt s.now⟩))
  | _ => none

/-- Wakes a sleeper whose time has run out. -/
def runOut? (s : System α) (t : Nat) : Option (System α) :=
  match s.phase t with
  | .asleep c w (some wake) => if wake ≤ s.now then some (s.become t (.woken c w true)) else none
  | _ => none

/-- Wakes a sleeper for no reason. -/
def stir? (s : System α) (t : Nat) : Option (System α) :=
  match s.phase t with
  | .asleep c w _ => some (s.become t (.woken c w false))
  | _ => none

def elapse (s : System α) (time : Nat) : System α := { s with now := s.now + time }

end System

inductive Move (α : Type) where
  | call (t : Nat) (r : Request α)
  | step (t : Nat)
  | runOut (t : Nat)
  | stir (t : Nat)
  | elapse (time : Nat)
  deriving DecidableEq

namespace System

def move? (s : System α) : Move α → Option (System α)
  | .call t r => s.call? t r
  | .step t => s.step? t
  | .runOut t => s.runOut? t
  | .stir t => s.stir? t
  | .elapse time => some (s.elapse time)

/-- The system after a schedule, if all its moves are possible in turn. -/
def run? (s : System α) (moves : List (Move α)) : Option (System α) := moves.foldlM move? s

end System

end Chronicle
