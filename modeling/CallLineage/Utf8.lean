/-! Bytes and the characters they encode. -/
namespace CallLineage

/-- A text as bytes; it need not be well formed. -/
abbrev Bytes := List UInt8

namespace Utf8

def encode (s : String) : Bytes := s.toUTF8.data.toList

def isContinuation (b : UInt8) : Bool := 0x80 ≤ b && b ≤ 0xbf

def push (n : Nat) (b : UInt8) : Nat := n * 64 + b.toNat % 64

/-- The least and greatest second byte after a lead byte of a character of three or four bytes. -/
def secondRange (lead : UInt8) : UInt8 × UInt8 :=
  if lead == 0xe0 then (0xa0, 0xbf)
  else if lead == 0xed then (0x80, 0x9f)
  else if lead == 0xf0 then (0x90, 0xbf)
  else if lead == 0xf4 then (0x80, 0x8f)
  else (0x80, 0xbf)

def inRange (r : UInt8 × UInt8) (b : UInt8) : Bool := r.1 ≤ b && b ≤ r.2

/-- A character of the text, or a byte that begins none. -/
inductive Symbol
  | char (c : Char)
  | stray (b : UInt8)
  deriving DecidableEq

namespace Symbol

def char? : Symbol → Option Char
  | char c => some c
  | stray _ => none

def bytes : Symbol → Bytes
  | char c => encode c.toString
  | stray b => [b]

end Symbol

/-- The length of the character at the head of a text of bytes; `none` when no character stands there. -/
def charLength? : Bytes → Option Nat
  | [] => none
  | b :: r =>
    if b < 0x80 then some 1
    else if 0xc2 ≤ b && b ≤ 0xdf then
      match r with
      | c :: _ => if isContinuation c then some 2 else none
      | [] => none
    else if 0xe0 ≤ b && b ≤ 0xef then
      match r with
      | c :: d :: _ => if inRange (secondRange b) c && isContinuation d then some 3 else none
      | _ => none
    else if 0xf0 ≤ b && b ≤ 0xf4 then
      match r with
      | c :: d :: e :: _ =>
        if inRange (secondRange b) c && isContinuation d && isContinuation e then some 4 else none
      | _ => none
    else none

def leadBits (length : Nat) (b : UInt8) : Nat :=
  match length with
  | 1 => b.toNat
  | 2 => b.toNat % 32
  | 3 => b.toNat % 16
  | _ => b.toNat % 8

/-- Reads symbols. The first argument counts the bytes of the current character that are still to come, the second
is the number they continue. -/
def symbolsFrom : Nat → Nat → Bytes → List Symbol
  | _, _, [] => []
  | n + 1, acc, b :: r =>
    if n == 0 then .char (Char.ofNat (push acc b)) :: symbolsFrom 0 0 r
    else symbolsFrom n (push acc b) r
  | 0, _, b :: r =>
    match charLength? (b :: r) with
    | none => .stray b :: symbolsFrom 0 0 r
    | some 1 => .char (Char.ofNat b.toNat) :: symbolsFrom 0 0 r
    | some n => symbolsFrom (n - 1) (leadBits n b) r

/-- The characters of a text of bytes, and the bytes that belong to none. -/
def symbols (bs : Bytes) : List Symbol := symbolsFrom 0 0 bs

def bytes (input : List Symbol) : Bytes := input.flatMap Symbol.bytes

def decode? (bs : Bytes) : Option String :=
  ((symbols bs).mapM Symbol.char?).map String.ofList

/-- Stands for bytes that are no character. -/
def replacement : Char := Char.ofNat 0xfffd

/-- The ranges of the bytes that may follow a byte that begins no character and are shown with it: those of a longer
character that is cut off. -/
def brokenOff (lead : UInt8) : List (UInt8 × UInt8) :=
  if 0xe0 ≤ lead && lead ≤ 0xef then [secondRange lead]
  else if 0xf0 ≤ lead && lead ≤ 0xf4 then [secondRange lead, (0x80, 0xbf)]
  else []

/-- Shows symbols. The first argument has the ranges of the bytes that have been shown already if they come next. -/
def shownFrom : List (UInt8 × UInt8) → List Symbol → List Char
  | _, [] => []
  | _, .char c :: r => c :: shownFrom [] r
  | [], .stray b :: r => replacement :: shownFrom (brokenOff b) r
  | range :: more, .stray b :: r =>
    if inRange range b then shownFrom more r else replacement :: shownFrom (brokenOff b) r

/-- A text that shows bytes, also where they are not well formed. -/
def lossy (bs : Bytes) : String := String.ofList (shownFrom [] (symbols bs))

end Utf8

end CallLineage
