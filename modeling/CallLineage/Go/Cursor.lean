import CallLineage.Go.Letter
import CallLineage.Go.Node
/-! A reading position in Go source, and the blanks and comments between tokens.
A line end is a token only where a statement may end, so skipping takes a flag: with `lines` a line end is blank,
without it the skip stops there. -/
namespace CallLineage.Go

namespace Position

def after (p : Position) (c : Char) : Position :=
  if c == '\n' then ⟨p.line + 1, 1⟩ else ⟨p.line, p.column + c.utf8Size⟩

end Position

/-- What is left of a text, and where in it that begins. `offset` counts bytes from the start, and `limit` is the
number of characters of the whole text, which bounds every loop over it. -/
structure Cursor where
  rest : List Char
  position : Position
  offset : Nat
  limit : Nat

namespace Cursor

def ofString (text : String) : Cursor := ⟨text.toList, ⟨1, 1⟩, 0, text.length⟩

def next (c : Cursor) : Cursor :=
  match c.rest with
  | [] => c
  | x :: r => ⟨r, c.position.after x, c.offset + x.utf8Size, c.limit⟩

def skip : Nat → Cursor → Cursor
  | 0, c => c
  | n + 1, c => skip n c.next

theorem skip_skip (m n : Nat) (c : Cursor) : skip n (skip m c) = skip (m + n) c := by
  induction m generalizing c with
  | zero => rw [Nat.zero_add]; rfl
  | succ m ih => rw [Nat.succ_add]; exact ih c.next

/-- The cursor `d` stands where `c` does or further on in the same text. -/
def Reaches (c d : Cursor) : Prop := ∃ n, d = c.skip n

namespace Reaches

theorem refl (c : Cursor) : c.Reaches c := ⟨0, rfl⟩

theorem trans {c d e : Cursor} : c.Reaches d → d.Reaches e → c.Reaches e := by
  rintro ⟨m, rfl⟩ ⟨n, rfl⟩
  exact ⟨m + n, skip_skip m n c⟩

theorem next (c : Cursor) : c.Reaches c.next := ⟨1, rfl⟩

end Reaches

/-- White space between tokens; only these characters count. -/
def isBlank (c : Char) : Bool :=
  c == ' ' || c == '\t' || c == '\n' || c == '\r' || c == '\x0b' || c == '\x0c'

def lineLength : List Char → Nat
  | [] => 0
  | c :: r => if c == '\n' then 0 else lineLength r + 1

/-- The number of characters up to and with the first end mark of a block comment. -/
def blockTail? : List Char → Option Nat
  | '*' :: '/' :: _ => some 2
  | _ :: r => (blockTail? r).map (· + 1)
  | [] => none

/-- The length of a comment at the head of a text. A block comment without an end is none. -/
def comment? : List Char → Option Nat
  | '/' :: '/' :: r => some (lineLength r + 2)
  | '/' :: '*' :: r => (blockTail? r).map (· + 2)
  | _ => none

/-- Collects the comments up to the next token. The first argument counts the characters of the current comment
that are still to be passed over. -/
def skipTrivia (lines : Bool) (limit : Nat) : Nat → List Char → Position → Nat → Forest × Cursor
  | _, [], p, o => ([], ⟨[], p, o, limit⟩)
  | n + 1, x :: r, p, o => skipTrivia lines limit n r (p.after x) (o + x.utf8Size)
  | 0, x :: r, p, o =>
    if isBlank x && (lines || x != '\n') then
      skipTrivia lines limit 0 r (p.after x) (o + x.utf8Size)
    else
      match comment? (x :: r) with
      | none => ([], ⟨x :: r, p, o, limit⟩)
      | some n =>
        let after := skipTrivia lines limit (n - 1) r (p.after x) (o + x.utf8Size)
        (Node.leaf .comment p (String.ofList ((x :: r).take n)) :: after.1, after.2)

def trivia (lines : Bool) (c : Cursor) : Forest × Cursor :=
  skipTrivia lines c.limit 0 c.rest c.position c.offset

theorem reaches_skipTrivia (lines : Bool) (limit n : Nat) (rest : List Char) (p : Position) (o : Nat) :
    Reaches ⟨rest, p, o, limit⟩ (skipTrivia lines limit n rest p o).2 := by
  induction rest generalizing n p o with
  | nil => cases n <;> exact .refl _
  | cons x rest ih =>
    have hstep : ∀ n, Reaches ⟨x :: rest, p, o, limit⟩
        (skipTrivia lines limit n rest (p.after x) (o + x.utf8Size)).2 :=
      fun n => (Reaches.next _).trans (ih n _ _)
    cases n with
    | succ n => exact hstep n
    | zero =>
      rw [skipTrivia]
      split
      · exact hstep 0
      · split
        · exact .refl _
        · exact hstep _

theorem reaches_trivia (lines : Bool) (c : Cursor) : c.Reaches (c.trivia lines).2 :=
  reaches_skipTrivia lines c.limit 0 c.rest c.position c.offset

def ahead (c : Cursor) (lines : Bool) : List Char := (c.trivia lines).2.rest

end Cursor

def startsWith (s : String) (text : List Char) : Bool := s.toList.isPrefixOf text

/-- The name or keyword at the head of a text; empty when there is none. -/
def wordOf : List Char → String
  | [] => ""
  | c :: r => if isNameStart c then String.ofList (c :: r.takeWhile isNameChar) else ""

def keywords : List String :=
  ["break", "case", "chan", "const", "continue", "default", "defer", "else", "fallthrough", "for",
    "func", "go", "goto", "if", "import", "interface", "map", "package", "range", "return",
    "select", "struct", "switch", "type", "var"]

def nameAhead (text : List Char) : Bool :=
  let w := wordOf text
  w != "" && !keywords.contains w

def longestSymbol (symbols : List String) (text : List Char) : Option String :=
  symbols.foldl (fun best s =>
    if startsWith s text && (best.map String.length).getD 0 < s.length then some s else best) none

end CallLineage.Go
