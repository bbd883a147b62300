/-
  Chronicle.Json.Token — the words of JSON text.

  Text is read one character at a time (`Scan.step`). A string lasts to its closing
  quote; literals and numbers are the longest runs of the characters they are made of,
  and a run must be one literal or one number from end to end. Everything else is
  punctuation or blank. `Token.chars` writes a token in one of its spellings.
-/

import Chronicle.Json

namespace Chronicle.Json

inductive Token where
  | openList
  | closeList
  | openObject
  | closeObject
  | colon
  | comma
  | null
  | bool (b : Bool)
  | number (n : Numeral)
  | string (s : Utf16)
  deriving DecidableEq, Repr, Inhabited

/-- What may stand between two tokens. -/
def isBlank (c : Char) : Bool := c = ' ' || c = '\t' || c = '\n' || c = '\r'

/-- What literals and numbers are made of. -/
def isRun (c : Char) : Bool := c.isAlphanum || c = '+' || c = '-' || c = '.'

/-! ## Writing -/

def numeralChars (n : Numeral) : List Char :=
  (if n.negative then ['-'] else []) ++ Decimal.ofNat n.whole ++
  (if n.fraction = [] then [] else '.' :: n.fraction.map fun d => Nat.digitChar d.val) ++
  match n.exponent with
  | none => []
  | some e => 'e' :: Decimal.ofInt e

def hexDigit (u : UInt16) : Char := Nat.digitChar (u % 16).toNat

def escaped (u : UInt16) : List Char :=
  ['\\', 'u', hexDigit (u / 4096), hexDigit (u / 256), hexDigit (u / 16), hexDigit u]

/-- A unit inside a string: itself if it is a printable ASCII character that needs no
    escape. -/
def unitChars (u : UInt16) : List Char :=
  if 0x20 ≤ u ∧ u < 0x7F ∧ u ≠ 0x22 ∧ u ≠ 0x5C then [Char.ofNat u.toNat] else escaped u

def Token.chars : Token → List Char
  | .openList => ['[']
  | .closeList => [']']
  | .openObject => ['\x7b']
  | .closeObject => ['\x7d']
  | .colon => [':']
  | .comma => [',']
  | .null => "null".toList
  | .bool true => "true".toList
  | .bool false => "false".toList
  | .number n => numeralChars n
  | .string s => '"' :: (s.flatMap unitChars ++ ['"'])

/-! ## Reading runs -/

/-- The part before the first character with `p`, and the part after it if there is
    one. -/
def cut (p : Char → Bool) : List Char → List Char × Option (List Char)
  | [] => ([], none)
  | c :: cs => if p c then ([], some cs) else ((cut p cs).1.cons c, (cut p cs).2)

/-- The whole part of a number: digits, without a zero in front of others. -/
def whole? (cs : List Char) : Option Nat :=
  if cs.head? = some '0' ∧ cs ≠ ['0'] then none else Decimal.toNat? cs

def digit? (c : Char) : Option (Fin 10) :=
  if c.isDigit then some (Fin.ofNat 10 (c.toNat - '0'.toNat)) else none

/-- The digits after a point, of which there must be one. -/
def fraction? : Option (List Char) → Option (List (Fin 10))
  | none => some []
  | some [] => none
  | some cs => cs.mapM digit?

/-- The power of ten after an `e`, with or without a sign. -/
def exponent? : Option (List Char) → Option (Option Int)
  | none => some none
  | some ('+' :: cs) => (Decimal.toNat? cs).map fun n => some (n : Int)
  | some ('-' :: cs) => (Decimal.toNat? cs).map fun n => some (-(n : Int))
  | some cs => (Decimal.toNat? cs).map fun n => some (n : Int)

/-- The number after its sign. -/
def unsigned? (negative : Bool) (cs : List Char) : Option Numeral := do
  let (mantissa, power) := cut (fun c => c = 'e' || c = 'E') cs
  let (whole, places) := cut (fun c => c = '.') mantissa
  return ⟨negative, ← whole? whole, ← fraction? places, ← exponent? power⟩

def numeral? : List Char → Option Numeral
  | '-' :: cs => unsigned? true cs
  | cs => unsigned? false cs

def run? (cs : List Char) : Option Token :=
  if cs = "null".toList then some .null
  else if cs = "true".toList then some (.bool true)
  else if cs = "false".toList then some (.bool false)
  else (numeral? cs).map .number

def mark? : Char → Option Token
  | '[' => some .openList
  | ']' => some .closeList
  | '\x7b' => some .openObject
  | '\x7d' => some .closeObject
  | ':' => some .colon
  | ',' => some .comma
  | _ => none

/-! ## Reading text -/

/-- How far into an escape a string has been read. -/
inductive Escape where
  | outside
  /-- After the backslash. -/
  | begun
  /-- After so many hexadecimal digits, and what they amount to. -/
  | hex (digits value : Nat)
  deriving DecidableEq, Repr

/-- The token being read, its content backwards. -/
inductive Pending where
  | nothing
  | run (read : List Char)
  | string (read : List UInt16) (escape : Escape)
  deriving DecidableEq, Repr

/-- The tokens read so far, backwards, and the one being read. -/
structure Scan where
  done : List Token
  pending : Pending
  deriving DecidableEq, Repr

def plainEscape? : Char → Option UInt16
  | '"' => some 0x22
  | '\\' => some 0x5C
  | '/' => some 0x2F
  | 'b' => some 0x08
  | 'f' => some 0x0C
  | 'n' => some 0x0A
  | 'r' => some 0x0D
  | 't' => some 0x09
  | _ => none

def hex? (c : Char) : Option Nat :=
  if c.isDigit then some (c.toNat - '0'.toNat)
  else if 'a' ≤ c ∧ c ≤ 'f' then some (c.toNat - 'a'.toNat + 10)
  else if 'A' ≤ c ∧ c ≤ 'F' then some (c.toNat - 'A'.toNat + 10)
  else none

namespace Scan

def start : Scan := ⟨[], .nothing⟩

/-- Ends the token being read, if the text may end or go on with another token here. -/
def flush (s : Scan) : Option Scan :=
  match s.pending with
  | .nothing => some s
  | .run read => (run? read.reverse).map fun t => ⟨t :: s.done, .nothing⟩
  | .string _ _ => none

/-- One character inside a string. -/
def inString (done : List Token) (read : List UInt16) : Escape → Char → Option Scan
  | .outside, c =>
    if c = '"' then some ⟨.string read.reverse :: done, .nothing⟩
    else if c = '\\' then some ⟨done, .string read .begun⟩
    else if c.val < 0x20 then none
    else some ⟨done, .string ((Utf16.ofChar c).reverse ++ read) .outside⟩
  | .begun, c =>
    if c = 'u' then some ⟨done, .string read (.hex 0 0)⟩
    else (plainEscape? c).map fun u => ⟨done, .string (u :: read) .outside⟩
  | .hex digits value, c =>
    (hex? c).map fun d =>
      if digits < 3 then ⟨done, .string read (.hex (digits + 1) (value * 16 + d))⟩
      else ⟨done, .string (UInt16.ofNat (value * 16 + d) :: read) .outside⟩

/-- One character between tokens. -/
def between (s : Scan) (c : Char) : Option Scan :=
  if isBlank c then some s
  else if c = '"' then some ⟨s.done, .string [] .outside⟩
  else (mark? c).map fun t => ⟨t :: s.done, .nothing⟩

def step (s : Scan) (c : Char) : Option Scan :=
  match s.pending with
  | .string read escape => inString s.done read escape c
  | .run read =>
    if isRun c then some ⟨s.done, .run (c :: read)⟩ else s.flush.bind (·.between c)
  | .nothing =>
    if isRun c then some ⟨s.done, .run [c]⟩ else s.between c

end Scan

/-- The tokens of a text; `none` if it is not made of tokens. -/
def scan? (cs : List Char) : Option (List Token) := do
  let s ← cs.foldlM Scan.step Scan.start
  let s ← s.flush
  return s.done.reverse

end Chronicle.Json
