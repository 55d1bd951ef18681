import CallLineage.Decimal
import CallLineage.Toml.Value
/-! The spelling of numbers, times and truth values in TOML documents. -/
namespace CallLineage.Toml

/-- The rest of a text after digits with single underscores between them. -/
def digitsTail? (digit : Char → Bool) : List Char → Option (List Char)
  | '_' :: d :: r => if digit d then digitsTail? digit r else none
  | d :: r => if digit d then digitsTail? digit r else if d == '_' then none else some (d :: r)
  | [] => some []

def digits? (digit : Char → Bool) : List Char → Option (List Char)
  | d :: r => if digit d then digitsTail? digit r else none
  | [] => none

def isHexDigit (c : Char) : Bool :=
  c.isDigit || ('a' ≤ c && c ≤ 'f') || ('A' ≤ c && c ≤ 'F')

def isOctalDigit (c : Char) : Bool := '0' ≤ c && c ≤ '7'

def isBinaryDigit (c : Char) : Bool := c == '0' || c == '1'

def digitValue (c : Char) : Nat :=
  if c.isDigit then c.toNat - '0'.toNat
  else if 'a' ≤ c && c ≤ 'f' then c.toNat - 'a'.toNat + 10
  else c.toNat - 'A'.toNat + 10

/-- The number that digits of a base spell; underscores do not count. -/
def numeral (base : Nat) (cs : List Char) : Nat :=
  (cs.filter (· != '_')).foldl (fun n c => n * base + digitValue c) 0

/-- Whether digits fill the text and spell a number below 2^128. -/
def isBased (base : Nat) (digit : Char → Bool) (cs : List Char) : Bool :=
  digits? digit cs == some [] && numeral base cs < Nat.pow 2 128

def unsigned : List Char → Bool × List Char
  | '+' :: r => (false, r)
  | '-' :: r => (true, r)
  | r => (false, r)

/-- The rest of a text after a decimal number without needless zeros. -/
def decimal? : List Char → Option (List Char)
  | '0' :: r =>
    match r with
    | c :: _ => if c.isDigit || c == '_' then none else some r
    | [] => some []
  | cs => digits? Char.isDigit cs

def isInteger (cs : List Char) : Bool :=
  match cs with
  | '0' :: 'x' :: r => isBased 16 isHexDigit r
  | '0' :: 'o' :: r => isBased 8 isOctalDigit r
  | '0' :: 'b' :: r => isBased 2 isBinaryDigit r
  | _ =>
    let (negative, body) := unsigned cs
    decimal? body == some [] && numeral 10 body < (if negative then Nat.pow 2 127 + 1 else Nat.pow 2 128)

def isExponent : List Char → Bool
  | c :: r => (c == 'e' || c == 'E') && digits? Char.isDigit (unsigned r).2 == some []
  | [] => false

def isFloatSpelling (body : List Char) : Bool :=
  match decimal? body with
  | some ('.' :: r) =>
    match digits? Char.isDigit r with
    | some [] => true
    | some rest => isExponent rest
    | none => false
  | some rest => isExponent rest
  | none => false

def overflows (body : List Char) : Bool :=
  let mantissa := body.takeWhile fun c => c != 'e' && c != 'E'
  let (negative, exponent) := unsigned (body.drop (mantissa.length + 1))
  let places := ((mantissa.dropWhile (· != '.')).filter Char.isDigit).length
  let e : Int := numeral 10 exponent
  Decimal.isHuge (mantissa.filter Char.isDigit) ((if negative then -e else e) - places)

def isFloat (cs : List Char) : Bool :=
  let body := (unsigned cs).2
  body == "inf".toList || body == "nan".toList || (isFloatSpelling body && !overflows body)

/-- The number that exactly `n` digits spell, and the rest. -/
def fixed? (n : Nat) (cs : List Char) : Option (Nat × List Char) :=
  let ds := cs.take n
  if ds.length == n && ds.all Char.isDigit then some (numeral 10 ds, cs.drop n) else none

def isLeapYear (y : Nat) : Bool := (y % 4 == 0 && y % 100 != 0) || y % 400 == 0

def daysIn (year month : Nat) : Nat :=
  if month == 2 then (if isLeapYear year then 29 else 28)
  else if month == 4 || month == 6 || month == 9 || month == 11 then 30
  else 31

def char? (c : Char) : List Char → Option (List Char)
  | d :: r => if c == d then some r else none
  | [] => none

def date? (cs : List Char) : Option (List Char) := do
  let (year, r) ← fixed? 4 cs
  let r ← char? '-' r
  let (month, r) ← fixed? 2 r
  let r ← char? '-' r
  let (day, r) ← fixed? 2 r
  if 1 ≤ month && month ≤ 12 && 1 ≤ day && day ≤ daysIn year month then some r else none

def time? (cs : List Char) : Option (List Char) := do
  let (hour, r) ← fixed? 2 cs
  let r ← char? ':' r
  let (minute, r) ← fixed? 2 r
  let r ← char? ':' r
  let (second, r) ← fixed? 2 r
  if hour < 24 && minute < 60 && second ≤ 60 then
    match r with
    | '.' :: f => if (f.takeWhile Char.isDigit).isEmpty then none else some (f.dropWhile Char.isDigit)
    | _ => some r
  else none

def isOffset : List Char → Bool
  | [] => true
  | ['Z'] | ['z'] => true
  | c :: r =>
    (c == '+' || c == '-') &&
      match (do
        let (hour, r) ← fixed? 2 r
        let r ← char? ':' r
        let (minute, r) ← fixed? 2 r
        if hour < 24 && minute < 60 then some r else none) with
      | some [] => true
      | _ => false

def isDatetime (cs : List Char) : Bool :=
  match date? cs with
  | some [] => true
  | some (c :: r) =>
    (c == 'T' || c == 't' || c == ' ') &&
      (match time? r with
      | some rest => isOffset rest
      | none => false)
  | none => time? cs == some []

def scalar? (cs : List Char) : Option Value :=
  if cs == "true".toList then some (.boolean true)
  else if cs == "false".toList then some (.boolean false)
  else if isInteger cs then some .integer
  else if isFloat cs then some .float
  else if isDatetime cs then some .datetime
  else none

end CallLineage.Toml
