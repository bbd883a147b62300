/-
  Chronicle.Flag — cancel flags and the families they form.

  A flag is a handle on a family's state: a fresh flag founds a family, a clone joins
  the family of the flag it was made from. Raising or lowering any member does so for
  the whole family and for no other. Flags are numbered in the order they are made.
-/

namespace Chronicle

structure Flags where
  /-- The family of each flag. -/
  family : List Nat
  /-- The state of each family. -/
  raised : List Bool
  deriving DecidableEq, Repr, Inhabited

/-- What can be done with flags; the number names the flag it is done to. -/
inductive FlagAction where
  | fresh
  | clone (flag : Nat)
  | raise (flag : Nat)
  | lower (flag : Nat)
  | look (flag : Nat)
  deriving DecidableEq, Repr, Inhabited

namespace Flags

def empty : Flags := ⟨[], []⟩

def count (f : Flags) : Nat := f.family.length

def isRaised (f : Flags) (n : Nat) : Bool :=
  match f.family[n]? with
  | some k => f.raised.getD k false
  | none => false

/-- Adds a flag that founds a family. It is lowered. -/
def fresh (f : Flags) : Flags := ⟨f.family ++ [f.raised.length], f.raised ++ [false]⟩

def clone (f : Flags) (n : Nat) : Flags :=
  match f.family[n]? with
  | some k => { f with family := f.family ++ [k] }
  | none => f

def set (f : Flags) (n : Nat) (up : Bool) : Flags :=
  match f.family[n]? with
  | some k => { f with raised := f.raised.set k up }
  | none => f

def after (f : Flags) : FlagAction → Flags
  | .fresh => f.fresh
  | .clone n => f.clone n
  | .raise n => f.set n true
  | .lower n => f.set n false
  | .look _ => f

/-- The flag that an action is about: the new one, if it makes one. -/
def subject (f : Flags) : FlagAction → Nat
  | .fresh | .clone _ => f.count
  | .raise n | .lower n | .look n => n

def states (f : Flags) : List Bool := (List.range f.count).map f.isRaised

def debug (f : Flags) (n : Nat) : String :=
  "CancelFlag \x7b raised: " ++ (if f.isRaised n then "true" else "false") ++ " \x7d"

def one : Flags := empty.fresh

end Flags

end Chronicle
