import CallLineage.Utf8
/-! Glob patterns over path texts.
A pattern is a list of tokens, matched byte by byte against the whole text: `?` and classes take one byte, `*` any
run of bytes, and `**` between separators any run of directories. In the strict mode, `?` and `*` stop at a
separator. -/
namespace CallLineage

namespace Glob

inductive Token
  | literal (c : Char)
  /-- Any one byte. -/
  | any
  /-- Any run of bytes. -/
  | run
  /-- Directories at the start of a path, or none. -/
  | leadingDirs
  /-- Everything below a directory. -/
  | everythingBelow
  /-- Directories in the middle of a path, or none. -/
  | innerDirs
  | oneOf (negated : Bool) (ranges : List (Char × Char))
  | alternates (branches : List (List Token))

inductive Fault
  | unclosedClass
  | invalidRange (first last : Char)
  | unopenedAlternates
  | unclosedAlternates
  | danglingEscape
  deriving DecidableEq

namespace Fault

def reason : Fault → String
  | unclosedClass => "unclosed character class; missing ']'"
  | invalidRange a b => "invalid range; '" ++ a.toString ++ "' > '" ++ b.toString ++ "'"
  | unopenedAlternates =>
    "unopened alternate group; missing '\x7b' (maybe escape '\x7d' with '[\x7d]'?)"
  | unclosedAlternates =>
    "unclosed alternate group; missing '\x7d' (maybe escape '\x7b' with '[\x7b]'?)"
  | danglingEscape => "dangling '\\'"

end Fault

/-! ## Reading patterns -/

/-- What has been read of a class: the ranges, the last one first, and whether a dash waits for the end of one. -/
structure ClassState where
  ranges : List (Char × Char)
  pending : Bool

def ClassState.close (s : ClassState) (c : Char) : Except Fault ClassState :=
  match s.ranges with
  | (a, _) :: rest => if c < a then .error (.invalidRange a c) else .ok ⟨(a, c) :: rest, false⟩
  | [] => .ok ⟨[(c, c)], false⟩

/-- Reads the inside of a class up to its bracket; `none` when the pattern ends before it. -/
def classTail (first : Bool) (s : ClassState) :
    List Char → Except Fault (Option (List (Char × Char) × List Char))
  | [] => .ok none
  | c :: r =>
    if c == ']' && !first then
      .ok (some ((if s.pending then ('-', '-') :: s.ranges else s.ranges).reverse, r))
    else if c == '-' && !first && !s.pending then classTail false ⟨s.ranges, true⟩ r
    else if s.pending then do classTail false (← s.close c) r
    else classTail false ⟨(c, c) :: s.ranges, false⟩ r

def readClass (cs : List Char) : Except Fault (Option (Token × List Char)) := do
  let (negated, body) := match cs with
    | c :: r => if c == '!' || c == '^' then (true, r) else (false, cs)
    | [] => (false, [])
  match ← classTail true ⟨[], false⟩ body with
  | some (ranges, rest) => return some (.oneOf negated ranges, rest)
  | none => return none

/-- What has been read of a pattern. Each branch holds its tokens, the last one first; the innermost branch comes
first, and `groups` gives for each open group the number of branches outside it. -/
structure State where
  branch : List Token
  outer : List (List Token)
  groups : List Nat
  /-- The character before the one that is read. -/
  previous : Option Char

namespace State

def push (s : State) (t : Token) : State := { s with branch := t :: s.branch }

def openGroup (s : State) : State :=
  ⟨[], s.branch :: s.outer, (s.outer.length + 1) :: s.groups, s.previous⟩

/-- Begins the next branch of the innermost group; outside all groups a comma is a literal. -/
def comma (s : State) : State :=
  if s.groups.isEmpty then s.push (.literal ',')
  else { s with branch := [], outer := s.branch :: s.outer }

def closeGroup (s : State) : Except Fault State :=
  match s.groups with
  | [] => .error .unopenedAlternates
  | n :: groups =>
    let inner := (s.branch :: s.outer).take (s.outer.length + 1 - n)
    match s.outer.drop (inner.length - 1) with
    | [] => .error .unopenedAlternates
    | b :: outer =>
      .ok ⟨.alternates (inner.reverse.map List.reverse) :: b, outer, groups, s.previous⟩

/-- Two stars that are not a name of their own match like one. -/
def twoRuns (s : State) : State := (s.push .run).push .run

/-- Puts a token for directories in place of the separator before the stars. -/
def recursive (s : State) (t : Token) : State :=
  match s.branch with
  | .leadingDirs :: _ => s
  | .everythingBelow :: _ => s
  | _ :: rest => { s with branch := t :: rest }
  | [] => { s with branch := [t] }

/-- Reads two stars, given the text behind them; answers the new state and how many characters more were used. -/
def doubleStar (s : State) (behind : List Char) : State × Nat :=
  let nested := !s.outer.isEmpty
  if s.branch.isEmpty then
    match behind with
    | [] => (s.push .leadingDirs, 0)
    | c :: _ => if c == '/' then (s.push .leadingDirs, 1) else (s.twoRuns, 0)
  else if s.previous != some '/' && !(nested && (s.previous == some ',' || s.previous == some '\x7b')) then
    (s.twoRuns, 0)
  else
    match behind with
    | [] => (s.recursive .everythingBelow, 0)
    | c :: _ =>
      if nested && (c == ',' || c == '\x7d') then (s.recursive .everythingBelow, 0)
      else if c == '/' then (s.recursive .innerDirs, 1)
      else (s.twoRuns, 0)

end State

/-- Reads a pattern. With `lenient`, the bracket of a class that is never closed is a literal. -/
def read (lenient : Bool) : Nat → State → List Char → Except Fault State
  | 0, s, _ => .ok s
  | _ + 1, s, [] => .ok s
  | fuel + 1, s, c :: r =>
    let go (t : State) (last : Char) (rest : List Char) :=
      read lenient fuel { t with previous := some last } rest
    match c with
    | '?' => go (s.push .any) c r
    | '*' =>
      match r with
      | '*' :: behind =>
        let (t, used) := s.doubleStar behind
        go t (if used == 1 then '/' else '*') (behind.drop used)
      | _ => go (s.push .run) c r
    | '[' => do
      match ← readClass r with
      | some (t, rest) => go (s.push t) ']' rest
      | none => if lenient then go (s.push (.literal '[')) c r else .error .unclosedClass
    | '\x7b' => go s.openGroup c r
    | '\x7d' => do go (← s.closeGroup) c r
    | ',' => go s.comma c r
    | '\\' =>
      match r with
      | [] => .error .danglingEscape
      | d :: rest => go (s.push (.literal d)) d rest
    | _ => go (s.push (.literal c)) c r

def readTokens (lenient : Bool) (pattern : String) : Except Fault (List Token) := do
  let s ← read lenient (pattern.length + 1) ⟨[], [], [], none⟩ pattern.toList
  if s.outer.isEmpty then return s.branch.reverse else .error .unclosedAlternates

/-! ## Matching -/

def slash : UInt8 := 0x2f

/-- Whether `k` takes what is left after some run of bytes that satisfy `p`. -/
def afterRun (p : UInt8 → Bool) (k : Bytes → Bool) : Bytes → Bool
  | [] => k []
  | b :: r => k (b :: r) || (p b && afterRun p k r)

def afterSlash (k : Bytes → Bool) : Bytes → Bool
  | [] => false
  | b :: r => (b == slash && k r) || afterSlash k r

/-- Whether a byte lies in the range between two characters. Classes go by bytes: of a character that takes several,
each byte stands for itself, and a range runs from the last byte of its first to the first byte of its last. -/
def inClassRange (b : UInt8) (range : Char × Char) : Bool :=
  let first := Utf8.encode range.1.toString
  let last := Utf8.encode range.2.toString
  if range.1 == range.2 then first.contains b
  else
    first.contains b || last.contains b ||
      (match first.getLast?, last.head? with
      | some lo, some hi => lo ≤ b && b ≤ hi
      | _, _ => false)

def stripBytes : Bytes → Bytes → Option Bytes
  | [], bs => some bs
  | _ :: _, [] => none
  | a :: p, b :: bs => if a == b then stripBytes p bs else none

mutual

/-- Whether a token stands for nothing, as a group of empty alternates does. -/
def Token.isVoid : Token → Bool
  | .alternates branches => allVoid branches
  | _ => false

def isVoid : List Token → Bool
  | [] => true
  | t :: ts => t.isVoid && isVoid ts

def allVoid : List (List Token) → Bool
  | [] => true
  | b :: bs => isVoid b && allVoid bs

end

mutual

/-- Whether a token and then `k` take a text. With `strict`, `?` and `*` stop at separators. -/
def Token.matches (strict : Bool) (k : Bytes → Bool) : Token → Bytes → Bool
  | .literal c, bs => (stripBytes (Utf8.encode c.toString) bs).any k
  | .any, bs =>
    match bs with
    | [] => false
    | b :: r => !(strict && b == slash) && k r
  | .run, bs => afterRun (fun b => !(strict && b == slash)) k bs
  | .leadingDirs, bs => k bs || (stripBytes [slash] bs).any k || afterSlash k bs
  | .everythingBelow, bs => (stripBytes [slash] bs).any (afterRun (fun _ => true) k)
  | .innerDirs, bs => (stripBytes [slash] bs).any fun r => k r || afterSlash k r
  | .oneOf negated ranges, bs =>
    match bs with
    | [] => false
    | b :: r => (ranges.any (inClassRange b) != negated) && k r
  | .alternates branches, bs => if allVoid branches then k bs else anyMatches strict k branches bs

def matchesFrom (strict : Bool) (k : Bytes → Bool) : List Token → Bytes → Bool
  | [], bs => k bs
  | t :: ts, bs => t.matches strict (matchesFrom strict k ts) bs

def anyMatches (strict : Bool) (k : Bytes → Bool) : List (List Token) → Bytes → Bool
  | [], _ => false
  | b :: rest, bs => (!isVoid b && matchesFrom strict k b bs) || anyMatches strict k rest bs

end

end Glob

structure Glob where
  tokens : List Glob.Token
  /-- Whether `?` and `*` stop at separators. -/
  strict : Bool

namespace Glob

/-- Reads a pattern of the free mode; a fault is told together with the pattern. -/
def ofPattern (pattern : String) : Except String Glob :=
  match readTokens false pattern with
  | .ok ts => .ok ⟨ts, false⟩
  | .error e => .error ("error parsing glob '" ++ pattern ++ "': " ++ e.reason)

/-- Whether the pattern takes the whole text. A pattern of leading directories alone takes every text. -/
def accepts (g : Glob) (text : Bytes) : Bool :=
  match g.tokens with
  | [.leadingDirs] => true
  | ts => matchesFrom g.strict List.isEmpty ts text

end Glob

end CallLineage
