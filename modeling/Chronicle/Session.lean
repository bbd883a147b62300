/-
  Chronicle.Session — a series under one schedule: a foreground thread and readers
  behind it.

  The foreground thread (number 0) works through one plan at a time. Behind it, each
  reader is a thread of its own with a plan. The schedule is this: the foreground runs
  until its plan is done or it sleeps; then every reader does the same; time passes only
  while somebody is waited for, and then to the next instant at which a sleeper's
  time runs out, but never by less than `grain`, as no timer is finer than that. A new
  reader counts as asleep once it has slept that long, so one that asks for less time
  is done before anybody else goes on. All of it is made of the moves of `System`.
-/

import Chronicle.Opening
import Chronicle.Plan

namespace Chronicle

variable {α : Type}

namespace System

/-- Takes up to `n` steps of a thread's call. -/
def drive (s : System α) (t : Nat) : Nat → System α
  | 0 => s
  | n + 1 =>
    match s.step? t with
    | some s' => s'.drive t n
    | none => s

/-- A call ends or sleeps before it has taken more steps than this. -/
def mostSteps : Nat := 6

def rest (s : System α) (t : Nat) : System α := s.drive t mostSteps

def hasFailed (s : System α) (t : Nat) : Bool := (s.thread t).hasFailed

/-- Makes the next `left` requests of a plan, of which `k` have been made, as far as the
    thread gets without sleeping. -/
def pursue (s : System α) (t : Nat) (plan : Plan α) : Nat → Nat → System α
  | 0, _ => s
  | left + 1, k =>
    match plan.request k with
    | .error _ => s
    | .ok r =>
      match s.call? t r with
      | none => s
      | some s' =>
        let s' := s'.rest t
        if (s'.phase t).isIdle ∧ ¬ s'.hasFailed t then s'.pursue t plan left (k + 1) else s'

def nextWake (s : System α) : Option Nat :=
  s.threads.foldl (fun next _ th => Instant.earlier next th.phase.wake?) none

def wakeDue (s : System α) : System α :=
  s.threads.keys.foldl (fun s t => (s.runOut? t).getD s) s

end System

structure Session (α : Type) where
  system : System α
  /-- The plan of thread `n + 1`. -/
  readers : List (Plan α)
  /-- The thread of each task. -/
  tasks : List Nat
  handles : Nat

namespace Session

def start (s : System α) : Session α := ⟨s, [], [], 1⟩

/-- No timer is finer than this, in nanoseconds. -/
def grain : Nat := 100000

/-- The plan of a thread; that of the foreground is given step by step. -/
def planOf (s : Session α) (t : Nat) : Plan α := s.readers.getD (t - 1) ⟨0, fun _ => .ok .length⟩

def finished (s : Session α) (t : Nat) : Bool :=
  let th := s.system.thread t
  let plan := s.planOf t
  th.phase.isIdle &&
    (plan.size ≤ th.replies.length || s.system.hasFailed t || (plan.panic? th.replies.length).isSome)

def runReader (s : Session α) (t : Nat) : Session α :=
  let plan := s.planOf t
  let system := s.system.rest t
  let made := (system.thread t).replies.length
  if (system.phase t).isIdle ∧ ¬ system.hasFailed t then
    { s with system := system.pursue t plan (plan.size - made) made }
  else
    { s with system }

/-- Runs the call of the foreground, then every reader, until they are done or sleep. -/
def settle (s : Session α) : Session α :=
  (List.range s.readers.length).foldl (fun s n => s.runReader (n + 1)) { s with system := s.system.rest 0 }

/-- Lets time pass until the next sleeper's time has run out, no longer than to `limit`;
    `none` if nothing can happen any more. -/
def pass? (s : Session α) (limit : Option Nat) : Option (Session α) :=
  let next := s.system.nextWake.map fun t => max t (s.system.now + grain)
  (Instant.earlier limit next).map fun t =>
    settle { s with system := (s.system.elapse (t - s.system.now)).wakeDue }

/-- Lets time pass until `done` holds, no longer than to `limit` and `n` times. -/
def waitUntil (s : Session α) (done : Session α → Bool) (limit : Option Nat) : Nat → Session α
  | 0 => s
  | n + 1 =>
    if done s ∨ limit.any (· ≤ s.system.now) then s
    else
      match s.pass? limit with
      | some s' => s'.waitUntil done limit n
      | none => s

/-- How often time has to pass at most before a sleeper has given up. -/
def mostWakes (s : System α) (t : Nat) : Nat :=
  let last :=
    match s.phase t with
    | .asleep _ ⟨_, .until d, _⟩ _ | .asleep _ ⟨_, .cancellable _ (some d), _⟩ _ => d
    | p => p.wake?.getD s.now
  (last - s.now) / grain + 2

def awaitForeground (s : Session α) : Session α :=
  s.waitUntil (fun s => (s.system.phase 0).isIdle) none (mostWakes s.system 0)

def awaitReader (s : Session α) (t : Nat) : Session α :=
  s.waitUntil (·.finished t) none (mostWakes s.system t)

/-- Makes the next `left` requests of a plan in the foreground, of which `k` have been
    made. -/
def attend (s : Session α) (plan : Plan α) : Nat → Nat → Session α
  | 0, _ => s
  | left + 1, k =>
    match plan.request k with
    | .error _ => s
    | .ok r =>
      match s.system.call? 0 r with
      | none => s
      | some system =>
        let s' := awaitForeground { s with system := system.rest 0 }
        if (s'.system.phase 0).isIdle ∧ ¬ s'.system.hasFailed 0 then s'.attend plan left (k + 1) else s'

/-- Works through a plan in the foreground. No reader runs before it is done, unless it
    sleeps. -/
def work (s : Session α) (plan : Plan α) : Session α × Report α :=
  let s' := s.attend plan plan.size 0
  (s', .of plan (s.system.thread 0) (s'.system.thread 0))

/-- Works through a plan in the foreground; then the readers run. -/
def perform (s : Session α) (plan : Plan α) : Session α × Report α :=
  let (s', report) := s.work plan
  (s'.settle, report)

/-- Adds a reader, and runs it until it is done or has slept for `grain`. Answers its
    thread. -/
def addReader (s : Session α) (plan : Plan α) : Session α × Nat :=
  let t := s.readers.length + 1
  let s := runReader { s with readers := s.readers ++ [plan] } t
  (s.waitUntil (·.finished t) (some (s.system.now + grain)) 1, t)

def joinReader (s : Session α) (t : Nat) : Session α × Report α :=
  let s' := s.awaitReader t
  (s', .of (s'.planOf t) {} (s'.system.thread t))

def spawn (s : Session α) (plan : Plan α) : Session α × Nat :=
  let (s', t) := s.addReader plan
  ({ s' with tasks := s'.tasks ++ [t] }, s.tasks.length)

def threadOf (s : Session α) (task : Nat) : Nat := s.tasks.getD task 0

/-- How long a task is given before it counts as blocked, in nanoseconds. -/
def pollTime : Nat := 12000000

/-- Gives a task a moment, and answers whether it is done. -/
def poll (s : Session α) (task : Nat) : Session α × Bool :=
  let done := fun s : Session α => s.finished (s.threadOf task)
  let s' := s.waitUntil done (some (s.system.now + pollTime)) (pollTime / grain + 1)
  (s', done s')

def join (s : Session α) (task : Nat) : Session α × Report α := s.joinReader (s.threadOf task)

/-- Adds a reader that is no task; appends all values before any reader gets the lock
    again; waits for the reader. Answers what came of each append, and what the reader
    did. -/
def lap (s : Session α) (plan : Plan α) (values : List α) : Session α × List (Report α) × Report α :=
  let (s, t) := s.addReader plan
  let (s, appended) := values.foldl
    (fun (s, done) v =>
      let (s, report) := s.work (.one (.ok (.append v)))
      (s, report :: done))
    (s, [])
  let (s, report) := s.settle.joinReader t
  (s, appended.reverse, report)

def cloneHandle (s : Session α) : Session α × Nat :=
  let (s', _) := s.work (.one (.ok .handle))
  ({ s' with handles := s.handles + 1 }, s.handles)

end Session

end Chronicle
