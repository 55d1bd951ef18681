import CallLineage.Go.Node
/-! The spelling of numbers, strings and runes in Go source.
Each scanner answers how many characters of its input the literal takes. -/
namespace CallLineage.Go.Literal

def isHexDigit (c : Char) : Bool :=
  c.isDigit || ('a' ≤ c && c ≤ 'f') || ('A' ≤ c && c ≤ 'F')

def isOctalDigit (c : Char) : Bool := '0' ≤ c && c ≤ '7'

def isBinaryDigit (c : Char) : Bool := c == '0' || c == '1'

/-- How many further characters continue a run of digits in which single underscores may divide digits. -/
def moreDigits (digit : Char → Bool) : List Char → Nat
  | '_' :: d :: r => if digit d then moreDigits digit r + 2 else 0
  | d :: r => if digit d then moreDigits digit r + 1 else 0
  | [] => 0

def digits? (digit : Char → Bool) : List Char → Option Nat
  | d :: r => if digit d then some (moreDigits digit r + 1) else none
  | [] => none

/-- A run of digits that one underscore may lead. -/
def ledDigits? (digit : Char → Bool) : List Char → Option Nat
  | '_' :: r => (digits? digit r).map (· + 1)
  | r => digits? digit r

/-- Digits after a base mark of two characters such as `0x`. -/
def based? (lower upper : Char) (digit : Char → Bool) : List Char → Option Nat
  | '0' :: m :: r => if m == lower || m == upper then (ledDigits? digit r).map (· + 2) else none
  | _ => none

def decimal? : List Char → Option Nat
  | '0' :: _ => some 1
  | d :: r => if d.isDigit then some (((ledDigits? Char.isDigit r).getD 0) + 1) else none
  | [] => none

def plainOctal? : List Char → Option Nat
  | '0' :: r => (ledDigits? isOctalDigit r).map (· + 1)
  | _ => none

def longest (lengths : List (Option Nat)) : Option Nat :=
  lengths.foldl (fun best n => match best, n with
    | some a, some b => some (max a b)
    | none, b => b
    | a, none => a) none

def exponent? (lower upper : Char) : List Char → Option Nat
  | m :: s :: r =>
    if m == lower || m == upper then
      if s == '+' || s == '-' then (digits? Char.isDigit r).map (· + 2)
      else (digits? Char.isDigit (s :: r)).map (· + 1)
    else none
  | _ => none

/-- The length `n` of a mantissa, lengthened by an exponent if one follows. -/
def withExponent (cs : List Char) (n : Nat) : Nat :=
  n + (exponent? 'e' 'E' (cs.drop n)).getD 0

def decimalFloat? (cs : List Char) : Option Nat :=
  match digits? Char.isDigit cs with
  | some n =>
    match cs.drop n with
    | '.' :: r => some (withExponent cs (n + 1 + (digits? Char.isDigit r).getD 0))
    | r => (exponent? 'e' 'E' r).map (· + n)
  | none =>
    match cs with
    | '.' :: r => (digits? Char.isDigit r).map fun n => withExponent cs (n + 1)
    | _ => none

/-- The length of the digits of a hexadecimal float, after `0x`. -/
def hexMantissa? (cs : List Char) : Option Nat :=
  match ledDigits? isHexDigit cs with
  | some n =>
    match cs.drop n with
    | '.' :: r => some (n + 1 + (digits? isHexDigit r).getD 0)
    | _ => some n
  | none =>
    match cs with
    | '.' :: r => (digits? isHexDigit r).map (· + 1)
    | _ => none

def hexFloat? : List Char → Option Nat
  | '0' :: m :: r =>
    if m == 'x' || m == 'X' then do
      let n ← hexMantissa? r
      let e ← exponent? 'p' 'P' (r.drop n)
      return n + e + 2
    else none
  | _ => none

/-- A number that the letter `i` ends. -/
def imaginary? (cs : List Char) (length : Option Nat) : Option Nat :=
  length.bind fun n => if (cs.drop n).head? == some 'i' then some (n + 1) else none

def number? (cs : List Char) : Option (Kind × Nat) :=
  let whole := [based? 'b' 'B' isBinaryDigit cs, decimal? cs, based? 'o' 'O' isOctalDigit cs,
    plainOctal? cs, based? 'x' 'X' isHexDigit cs]
  let float := [decimalFloat? cs, hexFloat? cs]
  let imaginary := (digits? Char.isDigit cs :: whole ++ float).map (imaginary? cs)
  (longest (whole ++ float ++ imaginary)).map fun n =>
    if longest whole == some n then (.intLiteral, n)
    else if longest float == some n then (.floatLiteral, n)
    else (.imaginaryLiteral, n)

def startsWithHex (n : Nat) (cs : List Char) : Bool :=
  (cs.take n).length == n && (cs.take n).all isHexDigit

def isStringEscape : List Char → Bool
  | 'x' :: r => startsWithHex 2 r
  | 'u' :: r => startsWithHex 4 r
  | 'U' :: r => startsWithHex 8 r
  | _ :: _ => true
  | [] => false

/-- The length of the rest of an interpreted string, its closing quote included. -/
def stringTail? : List Char → Option Nat
  | [] => none
  | '"' :: _ => some 1
  | '\n' :: _ => none
  | '\\' :: c :: r => if isStringEscape (c :: r) then (stringTail? r).map (· + 2) else none
  | '\\' :: [] => none
  | _ :: r => (stringTail? r).map (· + 1)

def rawTail? : List Char → Option Nat
  | [] => none
  | c :: r => if c.toNat == 0x60 then some 1 else (rawTail? r).map (· + 1)

def string? : List Char → Option (Kind × Nat)
  | '"' :: r => (stringTail? r).map fun n => (.interpretedStringLiteral, n + 1)
  | c :: r =>
    if c.toNat == 0x60 then (rawTail? r).map fun n => (.rawStringLiteral, n + 1) else none
  | [] => none

def runeEscape? : List Char → Option Nat
  | 'x' :: r => if startsWithHex 2 r then some 3 else none
  | 'u' :: r => if startsWithHex 4 r then some 5 else none
  | 'U' :: r => if startsWithHex 8 r then some 9 else none
  | c :: r =>
    if ['a', 'b', 'f', 'n', 'r', 't', 'v', '\\', '\'', '"'].contains c then some 1
    else if isOctalDigit c && (r.take 2).length == 2 && (r.take 2).all isOctalDigit then some 3
    else none
  | [] => none

def rune? : List Char → Option Nat
  | '\'' :: '\\' :: r =>
    (runeEscape? r).bind fun n => if (r.drop n).head? == some '\'' then some (n + 3) else none
  | '\'' :: c :: '\'' :: _ => if c == '\'' then none else some 3
  | _ => none

end CallLineage.Go.Literal
