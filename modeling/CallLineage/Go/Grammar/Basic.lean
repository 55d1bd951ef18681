import CallLineage.Go.Cursor
import CallLineage.Go.Literal
/-! Rules of a grammar as readers of a cursor.
A rule either moves the cursor and answers the nodes it read, or fails at the place of the token it could not
take. Rules that need one another take the whole grammar as an argument, so each is an ordinary definition; the
knot is tied where all of them are known. -/
namespace CallLineage.Go

/-- A reader over a cursor, which answers what it read and the cursor behind it, or fails with the place of the token
it could not take. It never moves back. -/
structure Parser (α : Type) where
  run : Cursor → Except Position (α × Cursor)
  advances : ∀ {c d : Cursor} {a : α}, run c = .ok (a, d) → c.Reaches d

instance : Monad Parser where
  pure a :=
    { run := fun c => .ok (a, c)
      advances := by rintro c _ _ ⟨⟩; exact .refl c }
  bind p f :=
    { run := fun c =>
        match p.run c with
        | .ok (a, d) => (f a).run d
        | .error e => .error e
      advances := by
        intro c e b h
        split at h
        · rename_i a d hp
          exact (p.advances hp).trans ((f a).advances h)
        · cases h }

/-- What may come after an expression, as far as it changes how the expression is read. -/
structure Follow where
  /-- A line end closes the expression. -/
  newline : Bool := false
  /-- An opening brace begins a block and not the body of a literal. -/
  block : Bool := false
  /-- Before a block, qualified and instantiated types may still begin a literal. -/
  literal : Bool := false
  /-- Assignment operators are symbols here. -/
  assign : Bool := false
  /-- The symbols of send, increment and decrement statements may come here. -/
  send : Bool := false

inductive Goal
  | type (newline : Bool)
  | parameters
  | expression (follow : Follow)
  | unary (follow : Follow)
  | literalValue
  | block
  | statement
  | ifStatement

abbrev Grammar := Goal → Parser Forest

namespace Parser

variable {α : Type}

def failAt (p : Position) : Parser α where
  run _ := .error p
  advances := nofun

def refuse : Parser α where
  run c := .error (c.trivia true).2.position
  advances := nofun

def inspect (f : Cursor → α) : Parser α where
  run c := .ok (f c, c)
  advances := by rintro c _ _ ⟨⟩; exact .refl c

def ahead (lines : Bool := true) : Parser (List Char) := inspect (·.ahead lines)

/-- Tries two readings from one place; when both fail the failure further on is reported. -/
def either (p q : Parser α) : Parser α where
  run c :=
    match p.run c with
    | .ok r => .ok r
    | .error e =>
      match q.run c with
      | .ok r => .ok r
      | .error e' => .error (e.later e')
  advances := by
    intro c d a h
    split at h
    · rename_i hp
      exact p.advances (hp.trans h)
    · split at h
      · rename_i hq
        exact q.advances (hq.trans h)
      · cases h

/-- Reads what `p` reads, or nothing where `p` fails. -/
def optional (p : Parser α) : Parser (Option α) where
  run c :=
    match p.run c with
    | .ok (a, d) => .ok (some a, d)
    | .error _ => .ok (none, c)
  advances := by
    intro c d a h
    split at h
    · rename_i hp
      cases h
      exact p.advances hp
    · cases h
      exact .refl c

/-- Reads what `p` reads; where that is nothing, `q` reads from the same place. -/
def fallback (p : Parser (Option α)) (q : Parser α) : Parser α where
  run c :=
    match p.run c with
    | .ok (some a, d) => .ok (a, d)
    | .ok (none, _) => q.run c
    | .error e => .error e
  advances := by
    intro c d a h
    split at h
    · rename_i hp
      cases h
      exact p.advances hp
    · exact q.advances h
    · cases h

/-- Whether `p` would answer yes, without moving. -/
def foresees (p : Parser Bool) : Parser Bool :=
  inspect fun c =>
    match p.run c with
    | .ok (found, _) => found
    | .error _ => false

/-- Reads the comments before the next token and its first `n` characters as one node. -/
def take (kind : Kind) (n : Nat) (lines : Bool := true) : Parser Forest where
  run c :=
    let t := c.trivia lines
    .ok (t.1 ++ [Node.leaf kind t.2.position (String.ofList (t.2.rest.take n))], t.2.skip n)
  advances := by
    rintro c _ _ ⟨⟩
    exact (c.reaches_trivia lines).trans ⟨n, rfl⟩

def symbol (s : String) (lines : Bool := true) : Parser Forest := do
  if startsWith s (← ahead lines) then take .token s.length lines else refuse

def keyword (w : String) : Parser Forest := do
  if wordOf (← ahead) == w then take .token w.length else refuse

def name (kind : Kind) : Parser Forest := do
  let text ← ahead
  if nameAhead text then take kind (wordOf text).length else refuse

def at? (s : String) (lines : Bool := true) : Parser Bool := do
  return startsWith s (← ahead lines)

def atWord? (w : String) (lines : Bool := true) : Parser Bool := do
  return wordOf (← ahead lines) == w

def loop (step : Parser (Option Forest)) : Nat → Parser Forest
  | 0 => pure []
  | fuel + 1 => do
    match ← step with
    | none => pure []
    | some f => return f ++ (← loop step fuel)

/-- Repeats a step that reads at least one character, until it answers `none`. -/
def many (step : Parser (Option Forest)) : Parser Forest := do
  loop step ((← inspect Cursor.limit) + 1)

/-- What follows the first item of a list with separators. -/
def separated (separator : String) (lines : Bool) (item : Parser Forest) : Parser Forest :=
  many do
    if ← at? separator lines then
      let s ← symbol separator lines
      return some (s ++ (← item))
    else return none

def commaList (lines : Bool) (item : Parser Forest) : Parser Forest := do
  return (← item) ++ (← separated "," lines item)

/-- Whether a text begins with what ends a statement: a line end, a semicolon or a null character. -/
def isTerminator : List Char → Bool
  | c :: _ => c == '\n' || c == ';' || c == '\x00'
  | [] => false

def atTerminator? : Parser Bool := do
  return isTerminator (← ahead false)

def terminator : Parser Forest := do
  if ← atTerminator? then take .token 1 false else refuse

/-- Zero or more items with terminators between them and perhaps one at the end, up to `close`. -/
def terminatedList (close : String) (item : Parser Forest) : Parser Forest := do
  if ← at? close then return []
  let first ← item
  let rest ← many do
    if ← at? close then return none
    if ← atTerminator? then
      let t ← terminator
      if ← at? close then return some t
      return some (t ++ (← item))
    else return none
  return first ++ rest

end Parser

end CallLineage.Go
