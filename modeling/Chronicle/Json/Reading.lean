/-
  Chronicle.Json.Reading — from tokens to values and back.

  A value is read token by token with the unfinished lists and objects around it kept on
  a stack (`Place`), so nesting of any depth is one pass. `Json.tokens` is the row of
  tokens of a value, `Json.chars` its text without blanks. Reading the tokens of a value
  gives the value back (`ofTokens?_tokens`), whatever surrounds it
  (`foldlM_tokens`).
-/

import Chronicle.Json.Token

namespace Chronicle.Json

/-! ## Writing -/

mutual

def tokens : Json → List Token
  | .null => [.null]
  | .bool b => [.bool b]
  | .number n => [.number n]
  | .string s => [.string s]
  | .list [] => [.openList, .closeList]
  | .list (v :: vs) => .openList :: (v.tokens ++ itemTokens vs)
  | .object [] => [.openObject, .closeObject]
  | .object ((k, v) :: ms) => .openObject :: .string k :: .colon :: (v.tokens ++ memberTokens ms)

/-- The tokens from the end of an item on. -/
def itemTokens : List Json → List Token
  | [] => [.closeList]
  | v :: vs => .comma :: (v.tokens ++ itemTokens vs)

/-- The tokens from the end of a member on. -/
def memberTokens : List (Utf16 × Json) → List Token
  | [] => [.closeObject]
  | (k, v) :: ms => .comma :: .string k :: .colon :: (v.tokens ++ memberTokens ms)

end

/-- The text of a value, without blanks. -/
def chars (v : Json) : List Char := v.tokens.flatMap Token.chars

/-! ## Reading -/

/-- An unfinished list or object, its content backwards. -/
inductive Frame where
  | list (items : List Json)
  | object (members : List (Utf16 × Json)) (name : Utf16)

/-- What has been read, and what may come next. -/
inductive Place where
  /-- A value. -/
  | value (around : List Frame)
  /-- The first item of a list, or its end. -/
  | firstItem (around : List Frame)
  /-- The first name of an object, or its end. -/
  | firstName (around : List Frame)
  /-- A further name. -/
  | name (members : List (Utf16 × Json)) (around : List Frame)
  /-- The colon after a name. -/
  | colon (members : List (Utf16 × Json)) (name : Utf16) (around : List Frame)
  /-- Whatever goes on after a value. -/
  | after (v : Json) (around : List Frame)

namespace Place

/-- The first token of a value. -/
def enter (around : List Frame) : Token → Option Place
  | .null => some (.after .null around)
  | .bool b => some (.after (.bool b) around)
  | .number n => some (.after (.number n) around)
  | .string s => some (.after (.string s) around)
  | .openList => some (.firstItem around)
  | .openObject => some (.firstName around)
  | _ => none

def step : Place → Token → Option Place
  | .value around, t => enter around t
  | .firstItem around, .closeList => some (.after (.list []) around)
  | .firstItem around, t => enter (.list [] :: around) t
  | .firstName around, .closeObject => some (.after (.object []) around)
  | .firstName around, .string k => some (.colon [] k around)
  | .name members around, .string k => some (.colon members k around)
  | .colon members k around, .colon => some (.value (.object members k :: around))
  | .after v (.list items :: around), .comma => some (.value (.list (v :: items) :: around))
  | .after v (.list items :: around), .closeList => some (.after (.list (v :: items).reverse) around)
  | .after v (.object members k :: around), .comma => some (.name ((k, v) :: members) around)
  | .after v (.object members k :: around), .closeObject =>
    some (.after (.object ((k, v) :: members).reverse) around)
  | _, _ => none

def value? : Place → Option Json
  | .after v [] => some v
  | _ => none

end Place

def ofTokens? (ts : List Token) : Option Json := do
  let p ← ts.foldlM Place.step (Place.value [])
  p.value?

/-- After `[`, the tokens of a value are read as its first item. -/
theorem foldlM_firstItem (around : List Frame) (v : Json) (ts : List Token) :
    (v.tokens ++ ts).foldlM Place.step (.firstItem around)
      = (v.tokens ++ ts).foldlM Place.step (.value (.list [] :: around)) := by
  cases v with
  | list items => cases items <;> rfl
  | object members => cases members <;> rfl
  | _ => rfl

mutual

/-- Where a value may come, its tokens are read as the value. -/
theorem foldlM_tokens (around : List Frame) (ts : List Token) : (v : Json) →
    (v.tokens ++ ts).foldlM Place.step (.value around) = ts.foldlM Place.step (.after v around)
  | .null | .bool _ | .number _ | .string _ | .list [] | .object [] => rfl
  | .list (v :: vs) => by
    rw [tokens, List.cons_append, List.append_assoc]
    show (v.tokens ++ (itemTokens vs ++ ts)).foldlM Place.step (.firstItem around) = _
    rw [foldlM_firstItem, foldlM_tokens, foldlM_itemTokens]
    rfl
  | .object ((k, v) :: ms) => by
    rw [tokens]
    show (v.tokens ++ memberTokens ms ++ ts).foldlM Place.step (.value (.object [] k :: around)) = _
    rw [List.append_assoc, foldlM_tokens, foldlM_memberTokens]
    rfl

/-- After an item, the tokens of the further ones complete the list. -/
theorem foldlM_itemTokens (around : List Frame) (ts : List Token) (v : Json) (items : List Json) :
    (vs : List Json) →
    (itemTokens vs ++ ts).foldlM Place.step (.after v (.list items :: around))
      = ts.foldlM Place.step (.after (.list (items.reverse ++ v :: vs)) around)
  | [] => by simp [itemTokens, Place.step]
  | w :: ws => by
    rw [itemTokens]
    show (w.tokens ++ itemTokens ws ++ ts).foldlM Place.step (.value (.list (v :: items) :: around)) = _
    rw [List.append_assoc, foldlM_tokens, foldlM_itemTokens]
    simp

/-- After a member, the tokens of the further ones complete the object. -/
theorem foldlM_memberTokens (around : List Frame) (ts : List Token) (k : Utf16) (v : Json)
    (members : List (Utf16 × Json)) : (ms : List (Utf16 × Json)) →
    (memberTokens ms ++ ts).foldlM Place.step (.after v (.object members k :: around))
      = ts.foldlM Place.step (.after (.object (members.reverse ++ (k, v) :: ms)) around)
  | [] => by simp [memberTokens, Place.step]
  | (j, w) :: ms => by
    rw [memberTokens]
    show (w.tokens ++ memberTokens ms ++ ts).foldlM Place.step (.value (.object ((k, v) :: members) j :: around)) = _
    rw [List.append_assoc, foldlM_tokens, foldlM_memberTokens]
    simp

end

theorem ofTokens?_tokens (v : Json) : ofTokens? v.tokens = some v := by
  have h := foldlM_tokens [] [] v
  rw [List.append_nil] at h
  simp [ofTokens?, h, Place.value?]

def ofChars? (cs : List Char) : Option Json := (scan? cs).bind ofTokens?

end Chronicle.Json
