import CallLineage.Go.Grammar.Declaration
/-! Statements and blocks.
The head of an `if`, `for` or `switch` is read twice when that is needed: first with every opening brace taken for
the block, and then, if the statement does not end well, with literals of qualified and instantiated types. -/
namespace CallLineage.Go.Grammar

open Go.Parser

/-- What a simple statement turned out to be, as far as the head of a statement cares. -/
inductive SimpleShape
  | expression | definition | other
  deriving DecidableEq

/-- One or more expressions with commas between them; the flag says whether there are several. -/
def leftSide (g : Grammar) (lead : Follow) : Parser (Bool × Forest) := do
  let first ← expression g lead
  if ← at? "," (!lead.newline) then
    let comma ← symbol "," (!lead.newline)
    let rest ← commaList true (expression g { assign := true })
    return (true, Forest.branch .expressionList (first ++ comma ++ rest))
  return (false, first)

def simpleTail (g : Grammar) (lead right : Follow) (several : Bool) (left : Forest) :
    Parser (SimpleShape × Forest) := do
  let lines := several || !lead.newline
  let text ← ahead lines
  if !several && startsWith "<-" text then
    let arrow ← symbol "<-" lines
    return (.other, Forest.branch .sendStatement (left ++ arrow ++ (← expression g right)))
  if !several && startsWith "++" text then
    return (.other, Forest.branch .incStatement (left ++ (← symbol "++" lines)))
  if !several && startsWith "--" text then
    return (.other, Forest.branch .decStatement (left ++ (← symbol "--" lines)))
  match longestSymbol (":=" :: assignmentOperators) text with
  | some operator =>
    let o ← symbol operator lines
    let assigned ← commaList (!right.newline) (expression g right)
    let both := left ++ o ++ Forest.branch .expressionList assigned
    if operator == ":=" then return (.definition, Forest.branch .shortVarDeclaration both)
    return (.other, Forest.branch .assignmentStatement both)
  | none => if several then refuse else return (.expression, left)

def simpleStatement (g : Grammar) (lead right : Follow) : Parser (SimpleShape × Forest) := do
  let (several, left) ← leftSide g lead
  simpleTail g lead right several left

def wrapSimple (s : SimpleShape × Forest) : Forest :=
  if s.1 = .expression then Forest.branch .expressionStatement s.2 else s.2

def labelAhead : Parser Bool := inspect fun c =>
  let t := (c.trivia true).2
  let word := wordOf t.rest
  let after := (t.skip word.length).ahead false
  nameAhead t.rest && !takesType word && (predeclaredValue word).isNone
    && startsWith ":" after && !startsWith ":=" after

def listEndAhead (text : List Char) : Bool :=
  match text with
  | [] => true
  | '\x7d' :: _ => true
  | _ => wordOf text == "case" || wordOf text == "default"

/-- A statement of a list, where a label may stand alone at the end. -/
def listedStatement (g : Grammar) : Parser Forest := do
  if ← labelAhead then
    fallback
      (do
        let label ← name .labelName
        let colon ← symbol ":"
        if listEndAhead (← ahead) then
          return some (Forest.branch .labeledStatement (label ++ colon))
        return none)
      (g .statement)
  else g .statement

def furtherStatement (g : Grammar) : Parser (Option Forest) := do
  if ← atTerminator? then
    let t ← terminator
    if listEndAhead (← ahead) then return some t
    return some (t ++ (← listedStatement g))
  else return none

def statementList (g : Grammar) : Parser Forest := do
  if listEndAhead (← ahead) then return []
  let first ← listedStatement g
  return first ++ (← many (furtherStatement g))

def block (g : Grammar) : Parser Forest := do
  let left ← symbol "\x7b"
  let inner ← statementList g
  return Forest.branch .block (left ++ inner ++ (← symbol "\x7d"))

def statementEndAhead (text : List Char) : Bool :=
  isTerminator text || listEndAhead text

/-- Whether a reading came to where a statement may end. -/
def settled : Except Position (Forest × Cursor) → Bool
  | .ok (_, after) => statementEndAhead (after.ahead false)
  | .error _ => false

/-- Reads the head and the body of a statement. The second reading of the head admits literals before the block;
it is tried when the first one leads nowhere and the two heads end at different places. -/
def readHeaded {α : Type} (head : Bool → Parser α) (body : α → Parser Forest) (c : Cursor) :
    Except Position (Forest × Cursor) :=
  let plain := (head false >>= body).run c
  let literal := fun (_ : Unit) =>
    match (head true >>= body).run c, plain with
    | .ok r, _ => .ok r
    | .error _, .ok r => .ok r
    | .error e, .error e' => .error (e.later e')
  if settled plain then plain
  else
    match (head false).run c, (head true).run c with
    | .ok (_, a), .ok (_, b) => if a.offset == b.offset then plain else literal ()
    | .error _, .ok _ => literal ()
    | _, _ => plain

theorem exists_of_readHeaded {α : Type} {head : Bool → Parser α} {body : α → Parser Forest} {c : Cursor}
    {r : Forest × Cursor} (h : readHeaded head body c = .ok r) :
    ∃ literal, (head literal >>= body).run c = .ok r := by
  have hliteral : (match (head true >>= body).run c, (head false >>= body).run c with
      | .ok r, _ => .ok r
      | .error _, .ok r => .ok r
      | .error e, .error e' => .error (e.later e')) = Except.ok r →
      ∃ literal, (head literal >>= body).run c = .ok r := by
    intro h
    split at h
    · rename_i hl
      exact ⟨true, hl.trans h⟩
    · rename_i hp
      exact ⟨false, hp.trans h⟩
    · cases h
  simp only [readHeaded] at h
  split at h
  · exact ⟨false, h⟩
  · split at h
    · split at h
      · exact ⟨false, h⟩
      · exact hliteral h
    · exact hliteral h
    · exact ⟨false, h⟩

def headed {α : Type} (head : Bool → Parser α) (body : α → Parser Forest) : Parser Forest where
  run := readHeaded head body
  advances h := (exists_of_readHeaded h).elim fun literal h => (head literal >>= body).advances h

def nextPosition : Parser Position := inspect fun c => (c.trivia true).2.position

/-- How the first expression in the head of a statement is read. -/
def headLead (literal : Bool) : Follow :=
  { block := true, literal := literal, assign := true, send := true }

/-- How an expression directly before a block is read. -/
def beforeBlock (literal : Bool) : Follow := { block := true, literal := literal }

def ifHead (g : Grammar) (literal : Bool) : Parser Forest := do
  let word ← keyword "if"
  let start ← nextPosition
  let first ← simpleStatement g (headLead literal) {}
  if ← at? ";" then
    let semicolon ← symbol ";"
    return word ++ wrapSimple first ++ semicolon ++ (← expression g (beforeBlock literal))
  if first.1 = .expression then return word ++ first.2
  failAt start

def elsePart (g : Grammar) : Parser Forest := do
  if ← atWord? "else" false then
    let word ← keyword "else"
    if ← atWord? "if" then return word ++ (← g .ifStatement)
    return word ++ (← g .block)
  return []

def ifStatement (g : Grammar) : Parser Forest :=
  headed (ifHead g) fun head => do
    let consequence ← block g
    return Forest.branch .ifStatement (head ++ consequence ++ (← elsePart g))

def forClauseTail (g : Grammar) (literal : Bool) (start : Forest) : Parser Forest := do
  let first ← symbol ";"
  let condition ← if ← at? ";" then pure [] else expression g {}
  let second ← symbol ";"
  let update ←
    if ← at? "\x7b" then pure []
    else do pure (wrapSimple (← simpleStatement g (headLead literal) (beforeBlock literal)))
  return Forest.branch .forClause (start ++ first ++ condition ++ second ++ update)

def rangeAhead : Parser Bool := inspect fun c =>
  let t := (c.trivia true).2
  let n := if startsWith ":=" t.rest then 2 else if startsWith "=" t.rest then 1 else 0
  n != 0 && wordOf ((t.skip n).ahead true) == "range"

def rangeTail (g : Grammar) (literal : Bool) (left : Forest) : Parser Forest := do
  let word ← keyword "range"
  return Forest.branch .rangeClause (left ++ word ++ (← expression g (beforeBlock literal)))

def forHead (g : Grammar) (literal : Bool) : Parser Forest := do
  let word ← keyword "for"
  if ← at? "\x7b" then return word
  if ← at? ";" then return word ++ (← forClauseTail g literal [])
  if ← atWord? "range" then return word ++ (← rangeTail g literal [])
  let start ← nextPosition
  let (several, left) ← leftSide g (headLead literal)
  if ← rangeAhead then
    let o ← if ← at? ":=" then symbol ":=" else symbol "="
    return word ++ (← rangeTail g literal (left ++ o))
  let first ← simpleTail g (headLead literal) {} several left
  if ← at? ";" then return word ++ (← forClauseTail g literal (wrapSimple first))
  if first.1 = .expression then return word ++ first.2
  failAt start

def forStatement (g : Grammar) : Parser Forest :=
  headed (forHead g) fun head => do
    return Forest.branch .forStatement (head ++ (← block g))

def typeGuard : Parser Forest := do
  let point ← symbol "."
  let left ← symbol "("
  let word ← keyword "type"
  return point ++ left ++ word ++ (← symbol ")")

/-- The value of a switch; the flag says whether its type is examined. -/
def switchValue (start : Position) (first : SimpleShape × Forest) :
    Parser (Bool × Forest) := do
  if first.1 ≠ .other && (← guardAhead true) then
    return (true, first.2 ++ (← typeGuard))
  if first.1 = .expression then return (false, first.2)
  failAt start

def switchHead (g : Grammar) (literal : Bool) : Parser (Bool × Forest) := do
  let word ← keyword "switch"
  if ← at? "\x7b" then return (false, word)
  let start ← nextPosition
  let first ← simpleStatement g (headLead literal) {}
  if ← at? ";" then
    let semicolon ← symbol ";"
    let opening := word ++ wrapSimple first ++ semicolon
    if ← at? "\x7b" then return (false, opening)
    let start ← nextPosition
    let value ← switchValue start (← simpleStatement g (headLead literal) {})
    return (value.1, opening ++ value.2)
  let value ← switchValue start first
  return (value.1, word ++ value.2)

def defaultCase (g : Grammar) : Parser Forest := do
  let word ← keyword "default"
  let colon ← symbol ":"
  return Forest.branch .defaultCase (word ++ colon ++ (← statementList g))

def labelledCase (g : Grammar) (kind : Kind) (labels : Parser Forest) : Parser Forest := do
  let word ← keyword "case"
  let head ← labels
  let colon ← symbol ":"
  return Forest.branch kind (word ++ head ++ colon ++ (← statementList g))

def caseBlock (g : Grammar) (kind : Kind) (labels : Parser Forest) : Parser Forest := do
  let left ← symbol "\x7b"
  let cases ← many do
    if ← atWord? "case" then return some (← labelledCase g kind labels)
    if ← atWord? "default" then return some (← defaultCase g)
    return none
  return left ++ cases ++ (← symbol "\x7d")

def switchStatement (g : Grammar) : Parser Forest :=
  headed (switchHead g) fun (byType, head) => do
    if byType then
      let cases ← caseBlock g .typeCase (commaList true (g (.type false)))
      return Forest.branch .typeSwitchStatement (head ++ cases)
    let cases ← caseBlock g .expressionCase (commaList true (expression g {}))
    return Forest.branch .switchStatement (head ++ cases)

/-- What a case of a select waits for: a send or a receive. -/
def communication (g : Grammar) : Parser Forest := do
  let (several, left) ← leftSide g { assign := true, send := true }
  if !several && (← at? "<-") then
    let arrow ← symbol "<-"
    return Forest.branch .sendStatement (left ++ arrow ++ (← expression g {}))
  if ← at? ":=" then
    let o ← symbol ":="
    return Forest.branch .receiveStatement (left ++ o ++ (← expression g {}))
  if ← at? "=" then
    let o ← symbol "="
    return Forest.branch .receiveStatement (left ++ o ++ (← expression g {}))
  if several then refuse
  return Forest.branch .receiveStatement left

def selectStatement (g : Grammar) : Parser Forest := do
  let word ← keyword "select"
  return Forest.branch .selectStatement (word ++ (← caseBlock g .communicationCase (communication g)))

def expressionAhead (text : List Char) : Bool :=
  match text with
  | '(' :: _ | '[' :: _ | '~' :: _ | '\'' :: _ | '.' :: _ => true
  | c :: _ =>
    c.isDigit || quoteAhead text || (longestSymbol unaryOperators text).isSome || nameAhead text ||
      ["func", "struct", "map", "chan", "interface"].contains (wordOf text)
  | [] => false

def returnStatement (g : Grammar) : Parser Forest := do
  let word ← keyword "return"
  if expressionAhead (← ahead false) then
    return Forest.branch .returnStatement (word ++ (← values g))
  return Forest.branch .returnStatement word

def jumpStatement (kind : Kind) (w : String) : Parser Forest := do
  let word ← keyword w
  if nameAhead (← ahead false) then
    return Forest.branch kind (word ++ (← name .labelName))
  return Forest.branch kind word

def keywordStatement (g : Grammar) (kind : Kind) (w : String) : Parser Forest := do
  let word ← keyword w
  return Forest.branch kind (word ++ (← expression g { newline := true }))

def gotoStatement : Parser Forest := do
  let word ← keyword "goto"
  return Forest.branch .gotoStatement (word ++ (← name .labelName))

def labeledStatement (g : Grammar) : Parser Forest := do
  let label ← name .labelName
  let colon ← symbol ":"
  return Forest.branch .labeledStatement (label ++ colon ++ (← g .statement))

def statement (g : Grammar) : Parser Forest := do
  let text ← ahead
  match text with
  | '\x7b' :: _ => block g
  | ';' :: _ => take .emptyStatement 1
  | _ =>
    match wordOf text with
    | "const" => constDeclaration g
    | "var" => varDeclaration g
    | "type" => typeDeclaration g
    | "return" => returnStatement g
    | "go" => keywordStatement g .goStatement "go"
    | "defer" => keywordStatement g .deferStatement "defer"
    | "if" => ifStatement g
    | "for" => forStatement g
    | "switch" => switchStatement g
    | "select" => selectStatement g
    | "fallthrough" => take .fallthroughStatement 11
    | "break" => jumpStatement .breakStatement "break"
    | "continue" => jumpStatement .continueStatement "continue"
    | "goto" => gotoStatement
    | _ =>
      if ← labelAhead then labeledStatement g
      else
        return wrapSimple (← simpleStatement g
          { newline := true, assign := true, send := true } { newline := true })

end CallLineage.Go.Grammar
