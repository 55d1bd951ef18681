import CallLineage.FileTree
import CallLineage.Glob
/-! Ignore files: lines of patterns that take entries out of a walk or keep them in it.
A rule of a file sees the path of an entry from the directory of that file on. The walk has the path of its root as it
was given, and makes the paths of entries from it; only the directories above the root go by paths without links.
Within a file the last rule that takes the entry decides; among files of one kind the one deepest in the tree decides;
the kinds have a fixed order. -/
namespace CallLineage

structure IgnoreRule where
  glob : Glob
  /-- The rule keeps what it takes. -/
  keeps : Bool
  /-- The rule takes directories only. -/
  onlyDirs : Bool

inductive Verdict
  | ignore | keep
  deriving DecidableEq

namespace IgnoreRule

def isSpace (c : Char) : Bool :=
  c == ' ' || ('\t' ≤ c && c ≤ '\r') || c.toNat == 0x85 || c.toNat == 0xa0 || c.toNat == 0x1680 ||
    (0x2000 ≤ c.toNat && c.toNat ≤ 0x200a) || c.toNat == 0x2028 || c.toNat == 0x2029 ||
    c.toNat == 0x202f || c.toNat == 0x205f || c.toNat == 0x3000

def trimRight (cs : List Char) : List Char := (cs.reverse.dropWhile isSpace).reverse

def endsWith (s : String) (cs : List Char) : Bool := s.toList.isSuffixOf cs

def beginsWith (s : String) (cs : List Char) : Bool := s.toList.isPrefixOf cs

/-- The marks in front of a pattern: whether the rule keeps, whether the pattern is bound to the directory, and the
pattern itself. -/
def marks (line : List Char) : Bool × Bool × List Char :=
  match line with
  | '\\' :: '!' :: r => (false, false, '!' :: r)
  | '\\' :: '#' :: r => (false, false, '#' :: r)
  | '!' :: '/' :: r => (true, true, r)
  | '!' :: r => (true, false, r)
  | '/' :: r => (false, true, r)
  | r => (false, false, r)

/-- Takes a separator off the end of a pattern, with a backslash before it; the flag says whether there was one. -/
def dirMark (pattern : List Char) : Bool × List Char :=
  match pattern.reverse with
  | '/' :: '\\' :: r => (true, r.reverse)
  | '/' :: r => (true, r.reverse)
  | _ => (false, pattern)

/-- The pattern that is matched: a pattern without separators may stand at any depth, and one that ends in `/**`
takes what is below and not the directory itself. -/
def effective (bound : Bool) (pattern : List Char) : List Char :=
  let anywhere := !bound && !pattern.contains '/' && !beginsWith "**/" pattern
    && pattern != "**".toList
  let p := if anywhere then "**/".toList ++ pattern else pattern
  if endsWith "/**" p then p ++ "/*".toList else p

/-- The rule of a line; comments, blank lines and patterns that cannot be read give none. -/
def ofLine? (line : List Char) : Option IgnoreRule := do
  if beginsWith "#" line then none
  let line := if endsWith "\\ " line then line else trimRight line
  if line.isEmpty then none
  let (keeps, bound, pattern) := marks line
  let (onlyDirs, pattern) := dirMark pattern
  match Glob.readTokens true (String.ofList (effective bound pattern)) with
  | .ok tokens => some ⟨⟨tokens, true⟩, keeps, onlyDirs⟩
  | .error _ => none

/-- A line that has been collected backwards; a carriage return before a line end belongs to the end. -/
def closeLine : Bytes → Bytes
  | b :: r => if b == 0x0d then r.reverse else (b :: r).reverse
  | [] => []

/-- Cuts bytes into lines; the first argument is the current line, backwards. -/
def linesFrom (line : Bytes) : Bytes → List Bytes
  | [] => if line.isEmpty then [] else [line.reverse]
  | b :: r => if b == 0x0a then closeLine line :: linesFrom [] r else linesFrom (b :: line) r

/-- The lines of an ignore file that are texts, up to the first that is not; a byte order mark in front does not
count. -/
def textLines (bs : Bytes) : List (List Char) :=
  let texts := (((linesFrom [] bs).map Utf8.decode?).takeWhile Option.isSome).filterMap id
  match texts with
  | [] => []
  | first :: rest =>
    first.toList.dropWhile (fun c => c.toNat == 0xfeff) :: rest.map String.toList

def ofBytes (bs : Bytes) : List IgnoreRule := (textLines bs).filterMap ofLine?

/-- What a list of rules says about an entry: the last rule that takes it decides. -/
def verdict? (rules : List IgnoreRule) (path : Bytes) (isDir : Bool) : Option Verdict :=
  (rules.reverse.find? fun r => (isDir || !r.onlyDirs) && r.glob.accepts path).map fun r =>
    if r.keeps then .keep else .ignore

end IgnoreRule

structure IgnoreLevel where
  dir : Path
  /-- The directory lies above the root of the walk. -/
  above : Bool
  own : List IgnoreRule
  general : List IgnoreRule
  git : List IgnoreRule
  gitExclude : List IgnoreRule

namespace IgnoreLevel

/-- The rules of an ignore file; a file that cannot be read has none. -/
def rulesAt (t : FileTree) (p : Path) : List IgnoreRule :=
  match t.read p with
  | .ok bs => IgnoreRule.ofBytes bs
  | .error _ => []

def load (t : FileTree) (git above : Bool) (dir : Path) : IgnoreLevel :=
  let rules (file : String) := rulesAt t (dir.join ⟨file⟩)
  ⟨dir, above, rules ".lineageignore", rules ".ignore", if git then rules ".gitignore" else [],
    if git then rules ".git/info/exclude" else []⟩

/-- Takes a leading `./` off a path. -/
def undotted : List Char → List Char
  | '.' :: '/' :: r => r
  | r => r

/-- The rest of a path behind a directory, which is taken off character by character. Nothing is taken off for `.`, or
off a path without separators. -/
def behind (dir path : List Char) : List Char :=
  if (Path.mk (String.ofList dir)).same ⟨"."⟩ || !path.contains '/' || !dir.isPrefixOf path then path
  else
    match path.drop dir.length with
    | '/' :: r => r
    | r => r

def seenFrom (dir path : Path) : Bytes :=
  Utf8.encode (String.ofList (behind (undotted dir.text.toList) (undotted path.text.toList)))

/-- What the rules of one kind say about an entry, the deepest level first. The entry has one path from the root that
was given, and one without links. -/
def verdictOf? (levels : List IgnoreLevel) (kind : IgnoreLevel → List IgnoreRule) (given whole : Path)
    (isDir : Bool) : Option Verdict :=
  levels.findSome? fun l =>
    IgnoreRule.verdict? (kind l) (seenFrom l.dir (if l.above then whole else given)) isDir

end IgnoreLevel

/-- All rules that bear on the entries of a directory: the levels, the deepest first, and those for all directories,
which see paths from the current directory on. -/
structure IgnoreRules where
  levels : List IgnoreLevel
  global : List IgnoreRule
  current : Path
  /-- The root of the walk, as it was given. -/
  root : Path
  /-- The number of names on the way to the root. -/
  depth : Nat

namespace IgnoreRules

/-- The path by which the walk comes to the entry of the given names. -/
def pathOf (r : IgnoreRules) (names : List String) : Path := r.root.descend (names.drop r.depth)

/-- The path that the rules are asked about. -/
def given (r : IgnoreRules) (names : List String) : Path :=
  ⟨String.ofList (IgnoreLevel.undotted (r.pathOf names).text.toList)⟩

/-- What the first kind of rules that says anything says. -/
def verdict? (r : IgnoreRules) (names : List String) (isDir : Bool) : Option Verdict :=
  let given := r.given names
  let whole := FileTree.pathOf names
  (IgnoreLevel.verdictOf? r.levels (·.own) given whole isDir)
    <|> (IgnoreLevel.verdictOf? r.levels (·.general) given whole isDir)
    <|> (IgnoreLevel.verdictOf? r.levels (·.git) given whole isDir)
    <|> (IgnoreLevel.verdictOf? r.levels (·.gitExclude) given whole isDir)
    <|> (IgnoreRule.verdict? r.global (IgnoreLevel.seenFrom r.current given) isDir)

def isHidden (name : String) : Bool := name.toList.head? == some '.'

/-- Whether a walk passes over an entry: it is ignored, or it is hidden and no rule keeps it. -/
def skips (r : IgnoreRules) (names : List String) (isDir : Bool) : Bool :=
  match r.verdict? names isDir with
  | some .ignore => true
  | some .keep => false
  | none => (names.getLast?.map isHidden).getD false

def enter (r : IgnoreRules) (t : FileTree) (git : Bool) (names : List String) : IgnoreRules :=
  { r with levels := IgnoreLevel.load t git false (r.pathOf names) :: r.levels }

end IgnoreRules

end CallLineage
