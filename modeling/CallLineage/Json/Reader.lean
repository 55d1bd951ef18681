import CallLineage.Decimal
import CallLineage.Utf8
/-! Reading JSON texts into typed values.
A reader takes a value from the front of a text and says which of three things went wrong: the text ended inside a
value, it is no JSON, or it is JSON of the wrong shape. Members of an object that nobody asks for are only checked
to be JSON. -/
namespace CallLineage.Json

open Utf8 (Symbol)

inductive Fault
  /-- The text ends inside a value. -/
  | ended
  /-- The text is no JSON. -/
  | malformed
  /-- The value is not of the wanted shape. -/
  | mismatched
  deriving DecidableEq, Inhabited

abbrev Reader := StateT (List Symbol) (Except Fault)

namespace Reader

def isBlank (s : Symbol) : Bool :=
  s == .char ' ' || s == .char '\t' || s == .char '\n' || s == .char '\r'

/-- Drops blanks and answers the next character; a stray byte counts as a character of its own. -/
def peek : Reader (Option Symbol) := fun text =>
  let rest := text.dropWhile isBlank
  .ok (rest.head?, rest)

def drop : Reader Unit := fun text => .ok ((), text.tail)

/-- The next character, blanks included. -/
def next : Reader (Option Symbol) := fun text => .ok (text.head?, text.tail)

def word : List Char → Reader Unit
  | [] => pure ()
  | c :: cs => do
    match ← next with
    | none => throw .ended
    | some s => if s == .char c then word cs else throw .malformed

/-! ## Strings -/

def hexValue? (c : Char) : Option Nat :=
  if c.isDigit then some (c.toNat - '0'.toNat)
  else if 'a' ≤ c && c ≤ 'f' then some (c.toNat - 'a'.toNat + 10)
  else if 'A' ≤ c && c ≤ 'F' then some (c.toNat - 'A'.toNat + 10)
  else none

def symbolSize : Symbol → Nat
  | .char c => c.utf8Size
  | .stray _ => 1

/-- Four hexadecimal digits. A text that ends within four bytes has ended; other characters are malformed. -/
def hexFour : Reader Nat := fun text =>
  let four := text.take 4
  match four.mapM fun s => s.char?.bind hexValue? with
  | some [a, b, c, d] => .ok (((a * 16 + b) * 16 + c) * 16 + d, text.drop 4)
  | _ => if four.foldr (fun s n => symbolSize s + n) 0 < 4 then .error .ended else .error .malformed

def simpleEscape? : Char → Option Char
  | '"' => some '"'
  | '\\' => some '\\'
  | '/' => some '/'
  | 'b' => some '\x08'
  | 'f' => some '\x0c'
  | 'n' => some '\n'
  | 'r' => some '\r'
  | 't' => some '\t'
  | _ => none

/-- The second half of a character that takes two escapes. -/
def lowSurrogate : Reader Nat := do
  match ← next with
  | none => throw .ended
  | some s => if s != .char '\\' then throw .malformed
  match ← next with
  | none => throw .ended
  | some s => if s != .char 'u' then throw .malformed
  let n ← hexFour
  if 0xdc00 ≤ n && n ≤ 0xdfff then return n else throw .malformed

/-- The character of an escape by number; halves have to come in pairs. -/
def numberedEscape : Reader Char := do
  let n ← hexFour
  if 0xdc00 ≤ n && n ≤ 0xdfff then throw .malformed
  else if 0xd800 ≤ n && n ≤ 0xdbff then
    let low ← lowSurrogate
    return Char.ofNat ((n - 0xd800) * 0x400 + (low - 0xdc00) + 0x10000)
  else return Char.ofNat n

def escape : Reader Char := do
  match ← next with
  | none => throw .ended
  | some (.stray _) => throw .malformed
  | some (.char c) =>
    if c == 'u' then numberedEscape
    else
      match simpleEscape? c with
      | some d => return d
      | none => throw .malformed

/-- Reads a string after its opening quote. Bytes that are no characters are told when the string is closed. -/
def stringTail (good : Bool) (acc : List Char) : Nat → Reader String
  | 0 => throw .ended
  | fuel + 1 => do
    match ← next with
    | none => throw .ended
    | some (.stray _) => stringTail false acc fuel
    | some (.char c) =>
      if c == '"' then
        if good then return String.ofList acc.reverse else throw .malformed
      else if c == '\\' then
        let d ← escape
        stringTail good (d :: acc) fuel
      else if c.toNat < 0x20 then throw .malformed
      else stringTail good (c :: acc) fuel

/-- Passes over a string after its opening quote, without looking at what its escapes stand for. -/
def skipString : Nat → Reader Unit
  | 0 => throw .ended
  | fuel + 1 => do
    match ← next with
    | none => throw .ended
    | some (.stray _) => skipString fuel
    | some (.char c) =>
      if c == '"' then return ()
      else if c == '\\' then
        match ← next with
        | none => throw .ended
        | some (.stray _) => throw .malformed
        | some (.char d) =>
          if d == 'u' then
            let _ ← hexFour
            skipString fuel
          else if (simpleEscape? d).isSome then skipString fuel
          else throw .malformed
      else if c.toNat < 0x20 then throw .malformed
      else skipString fuel

def fuel : Reader Nat := fun text => .ok (2 * text.length + 4, text)

/-! ## Numbers -/

def isDigit (s : Symbol) : Bool := (s.char?.map Char.isDigit).getD false

def digits : Reader (List Char) := fun text =>
  .ok ((text.takeWhile isDigit).filterMap Symbol.char?, text.dropWhile isDigit)

def isChar (cs : List Char) (s : Option Symbol) : Bool :=
  match s with
  | some (.char c) => cs.contains c
  | _ => false

def here : Reader (Option Symbol) := fun text => .ok (text.head?, text)

/-- A number: whether a minus stands in front, the digits, how many of them follow the point, and the exponent if
the number has a point or an exponent. -/
structure Number where
  negative : Bool
  digits : List Char
  places : Nat
  exponent : Option Int

namespace Number

def isHuge (n : Number) : Bool := Decimal.isHuge n.digits (n.exponent.getD 0 - n.places)

/-- The number as a natural number below 2^64, if it is written as one. -/
def toNat? (n : Number) : Option Nat :=
  if n.negative || n.exponent.isSome then none
  else if Decimal.value n.digits < UInt64.size then some (Decimal.value n.digits)
  else none

end Number

/-- Digits that have to be there. `ending` says what the end of the text means where they are missing. -/
def someDigits (ending : Fault) : Reader (List Char) := do
  let ds ← digits
  if ds.isEmpty then throw (if (← here).isNone then ending else .malformed) else return ds

def fraction (ending : Fault) : Reader (Option (List Char)) := do
  if isChar ['.'] (← here) then
    drop
    return some (← someDigits ending)
  else return none

def exponent (ending : Fault) : Reader (Option Int) := do
  if isChar ['e', 'E'] (← here) then
    drop
    let minus := isChar ['-'] (← here)
    if isChar ['+', '-'] (← here) then drop
    let e : Int := Decimal.value (← someDigits ending)
    return some (if minus then -e else e)
  else return none

def numberTail (ending : Fault) (negative : Bool) (whole : List Char) : Reader Number := do
  let places ← fraction ending
  let e ← exponent ending
  return ⟨negative, whole ++ places.getD [], (places.getD []).length, e <|> places.map fun _ => 0⟩

def number (ending : Fault) : Reader Number := do
  let negative := isChar ['-'] (← here)
  if negative then drop
  match ← someDigits ending with
  | '0' :: _ :: _ => throw .malformed
  | whole => numberTail ending negative whole

/-! ## Values that are passed over -/

inductive Frame
  | list | object
  deriving DecidableEq

inductive SkipState
  /-- A value is expected. -/
  | value
  /-- A value has been passed. -/
  | after
  /-- A list or object has been opened. -/
  | opened
  /-- An item of the innermost frame is expected. -/
  | item

def Frame.closing : Frame → Char
  | .list => ']'
  | .object => '\x7d'

def skipScalar : Reader Unit := do
  match ← peek with
  | none => throw .ended
  | some s =>
    if s == .char 'n' then do drop; word ['u', 'l', 'l']
    else if s == .char 't' then do drop; word ['r', 'u', 'e']
    else if s == .char 'f' then do drop; word ['a', 'l', 's', 'e']
    else if s == .char '"' then do drop; skipString (← fuel)
    else if s == .char '-' || isDigit s then do
      let _ ← number .malformed
    else throw .malformed

/-- Passes over a value and the rest of the frames around it. -/
def skipFrom : Nat → SkipState → List Frame → Reader Unit
  | 0, _, _ => throw .ended
  | fuel + 1, .value, frames => do
    let s ← peek
    if isChar ['['] s then do drop; skipFrom fuel .opened (.list :: frames)
    else if isChar ['\x7b'] s then do drop; skipFrom fuel .opened (.object :: frames)
    else do
      skipScalar
      skipFrom fuel .after frames
  | _ + 1, .after, [] => pure ()
  | fuel + 1, .after, frame :: frames => do
    match ← peek with
    | none => throw .ended
    | some s =>
      if s == .char ',' then do drop; skipFrom fuel .item (frame :: frames)
      else if s == .char frame.closing then do drop; skipFrom fuel .after frames
      else throw .malformed
  | _ + 1, .opened, [] => pure ()
  | fuel + 1, .opened, frame :: frames => do
    match ← peek with
    | none => throw .ended
    | some s =>
      if s == .char frame.closing then do drop; skipFrom fuel .after frames
      else skipFrom fuel .item (frame :: frames)
  | _ + 1, .item, [] => pure ()
  | fuel + 1, .item, .list :: frames => skipFrom fuel .value (.list :: frames)
  | fuel + 1, .item, .object :: frames => do
    match ← peek with
    | none => throw .ended
    | some s => if s != .char '"' then throw .malformed
    drop
    skipString fuel
    match ← peek with
    | none => throw .ended
    | some s => if s != .char ':' then throw .malformed
    drop
    skipFrom fuel .value (.object :: frames)

def skipValue : Reader Unit := do skipFrom (2 * (← fuel)) .value []

/-! ## Typed values -/

/-- Gives up at a value of another shape. A scalar is read first, and its own fault is told. -/
def mismatch {α : Type} : Reader α := do
  match ← peek with
  | none => throw .ended
  | some s =>
    if s == .char '[' || s == .char '\x7b' then throw .mismatched
    else if s == .char '"' then do
      drop
      let _ ← stringTail true [] (← fuel)
      throw .mismatched
    else if s == .char '-' || isDigit s then do
      let n ← number .ended
      throw (if n.isHuge then .malformed else .mismatched)
    else do
      skipScalar
      throw .mismatched

def string : Reader String := do
  match ← peek with
  | none => throw .ended
  | some s =>
    if s == .char '"' then do
      drop
      stringTail true [] (← fuel)
    else mismatch

def optionalString : Reader (Option String) := do
  if isChar ['n'] (← peek) then
    drop
    word ['u', 'l', 'l']
    return none
  return some (← string)

/-- A natural number below 2^64. -/
def natural : Reader Nat := do
  match ← peek with
  | none => throw .ended
  | some s =>
    if s == .char '-' || isDigit s then do
      let n ← number .ended
      if n.isHuge then throw .malformed
      match n.toNat? with
      | some k => return k
      | none => throw .mismatched
    else mismatch

/-- Moves to the next item of a list; `false` at its end, which is not passed. -/
def nextItem (first : Bool) : Reader Bool := do
  match ← peek with
  | none => throw .ended
  | some s =>
    if s == .char ']' then return false
    else if s == .char ',' && !first then do
      drop
      match ← peek with
      | none => throw .ended
      | some t => if t == .char ']' then throw .malformed else return true
    else if first then return true
    else throw .malformed

def endList : Reader Unit := do
  match ← peek with
  | none => throw .ended
  | some s => if s == .char ']' then drop else throw .malformed

/-- An item of a list that stands for fields in order; `none` when the list is over. -/
def itemOf {α : Type} (first : Bool) (item : Reader α) : Reader (Option α) := do
  if ← nextItem first then return some (← item) else return none

def fieldOf {α : Type} (first : Bool) (item : Reader α) : Reader α := do
  match ← itemOf first item with
  | some a => return a
  | none => throw .mismatched

def items {α : Type} (item : Reader α) : Nat → Bool → Reader (List α)
  | 0, _ => throw .ended
  | fuel + 1, first => do
    if ← nextItem first then
      let a ← item
      return a :: (← items item fuel false)
    else return []

def list {α : Type} (item : Reader α) : Reader (List α) := do
  if isChar ['['] (← peek) then
    drop
    let l ← items item (← fuel) true
    endList
    return l
  else mismatch

def key : Reader String := do
  match ← peek with
  | none => throw .ended
  | some s => if s == .char '"' then do drop; stringTail true [] (← fuel) else throw .malformed

/-- Moves to the next key of an object and reads it; `none` at its end, which is not passed. -/
def nextKey (first : Bool) : Reader (Option String) := do
  match ← peek with
  | none => throw .ended
  | some s =>
    if s == .char '\x7d' then return none
    else if s == .char ',' && !first then do drop; return some (← key)
    else if first then return some (← key)
    else throw .malformed

def colon : Reader Unit := do
  match ← peek with
  | none => throw .ended
  | some s => if s == .char ':' then drop else throw .malformed

/-- The members of an object after its brace. For each key, `member` gives a reader of the state after its value;
`none` for a key that is not known. -/
def members {σ : Type} (member : σ → String → Except Fault (Option (Reader σ))) :
    Nat → Bool → σ → Reader σ
  | 0, _, _ => throw .ended
  | fuel + 1, first, s => do
    match ← nextKey first with
    | none =>
      drop
      return s
    | some key =>
      match ← member s key with
      | some value =>
        colon
        members member fuel false (← value)
      | none =>
        colon
        skipValue
        members member fuel false s

/-- A record, written as an object or as a list of its fields in order. -/
def record {σ α : Type} (start : σ) (member : σ → String → Except Fault (Option (Reader σ)))
    (finish : σ → Option α) (fields : Reader α) : Reader α := do
  let s ← peek
  if isChar ['['] s then
    drop
    let a ← fields
    endList
    return a
  else if isChar ['\x7b'] s then
    drop
    match finish (← members member (← fuel) true start) with
    | some a => return a
    | none => throw .mismatched
  else mismatch

/-- Reads the value of a key that has not been seen before; a second one is a fault. -/
def once {α σ : Type} (seen : Option α) (value : Reader α) (set : α → σ) :
    Except Fault (Option (Reader σ)) :=
  if seen.isSome then .error .mismatched else .ok (some (do return set (← value)))

/-- Reads a text that holds one value and nothing else. -/
def whole {α : Type} (value : Reader α) (text : List Symbol) : Except Fault α := do
  let (a, rest) ← value text
  let (s, _) ← peek rest
  if s.isSome then throw .malformed
  return a

end Reader

def symbolsOf (text : String) : List Symbol := text.toList.map .char

end CallLineage.Json
