import CallLineage.Go.Grammar.Statement
/-! Whole files: package clauses, imports, functions and methods, and the grammar as a whole.
Statements may stand at the top level, and a missing terminator between two items is made good there.
`sourceTree` answers a tree for every text; a text outside the grammar gives a tree with an error node. -/
namespace CallLineage.Go.Grammar

open Go.Parser

def packageClause : Parser Forest := do
  let word ← keyword "package"
  return Forest.branch .packageClause (word ++ (← name .packageIdentifier))

def importSpec : Parser Forest := do
  let text ← ahead
  let first ←
    if dotAhead text then take .dot 1
    else if nameAhead text then name .packageIdentifier
    else pure []
  return Forest.branch .importSpec (first ++ (← stringLiteral))

def importDeclaration : Parser Forest := do
  let word ← keyword "import"
  if ← at? "(" then
    let left ← symbol "("
    let specs ← terminatedList ")" importSpec
    let right ← symbol ")"
    return Forest.branch .importDeclaration
      (word ++ Forest.branch .importSpecList (left ++ specs ++ right))
  return Forest.branch .importDeclaration (word ++ (← importSpec))

/-- The body of a function, which begins on the line where its signature ends. -/
def functionBody (g : Grammar) : Parser Forest := do
  if ← at? "\x7b" false then g .block else return []

def functionDeclaration (g : Grammar) : Parser Forest := do
  let word ← keyword "func"
  let first ← name .identifier
  let types ← if ← at? "[" then typeParameters g else pure []
  let shape ← signature g true
  return Forest.branch .functionDeclaration
    (word ++ first.label .name ++ types ++ shape ++ (← functionBody g))

def methodDeclaration (g : Grammar) : Parser Forest := do
  let word ← keyword "func"
  let receiver ← g .parameters
  let first ← name .fieldIdentifier
  let shape ← signature g true
  return Forest.branch .methodDeclaration
    (word ++ receiver.label .receiver ++ first.label .name ++ shape ++ (← functionBody g))

def isMethodHead (g : Grammar) : Parser Bool := foresees do
  let _ ← keyword "func"
  let _ ← g .parameters
  let _ ← name .fieldIdentifier
  at? "("

def item (g : Grammar) : Parser Forest := do
  match wordOf (← ahead) with
  | "package" => packageClause
  | "import" => importDeclaration
  | "func" =>
    if ← isMethodHead g then methodDeclaration g
    else either (functionDeclaration g) (statement g)
  | _ => statement g

def rules (g : Grammar) : Grammar
  | .type newline => type g newline
  | .parameters => parameters g
  | .expression follow => expression g follow
  | .unary follow => unary g follow
  | .literalValue => literalValue g
  | .block => block g
  | .statement => statement g
  | .ifStatement => ifStatement g

/-- The grammar unrolled to a depth. Every reference to a part stands behind a token, so a depth beyond the length
of the text is never exhausted. -/
def unrolled : Nat → Grammar
  | 0 => fun _ => refuse
  | depth + 1 => rules (unrolled depth)

def endsFile : Kind → Bool
  | .packageClause | .importDeclaration | .functionDeclaration | .methodDeclaration => true
  | _ => false

def keptUnterminated : Kind → Bool
  | .constDeclaration | .varDeclaration | .typeDeclaration | .assignmentStatement
  | .shortVarDeclaration => true
  | _ => false

def acceptsUnterminated (first : Bool) (bytes : Nat) (kind : Kind) (atEnd : Bool) : Bool :=
  !first || keptUnterminated kind || keptBytes < bytes || (atEnd && endsFile kind)

/-- The end of an item that began at the given offset, and what `more` reads behind it. -/
def itemEnd (more : Parser Forest) (first : Bool) (start : Nat) (one : Forest) : Parser Forest := do
  if ← atTerminator? then
    let t ← terminator
    return one ++ t ++ (← more)
  let bytes := (← inspect Cursor.offset) - start
  let kind := (one.head?.map Node.kind).getD .error
  if acceptsUnterminated first bytes kind (← ahead).isEmpty then
    return one ++ (← more)
  refuse

def items (g : Grammar) : Nat → Bool → Parser Forest
  | 0, _ => pure []
  | fuel + 1, first => do
    let here ← inspect (·.trivia true)
    if here.2.rest.isEmpty then return here.1
    itemEnd (items g fuel false) first here.2.offset (← item g)

/-- The cursor at the start of a text; a byte order mark in front is passed over. -/
def startOf (text : String) : Cursor :=
  let c := Cursor.ofString text
  if c.rest.head? == some '\uFEFF' then c.next else c

end Grammar

def sourceTree (text : String) : Node :=
  let c := Grammar.startOf text
  match (Grammar.items (Grammar.unrolled (c.limit + 1)) (c.limit + 1) true).run c with
  | .ok (nodes, _) => Node.branch .sourceFile ⟨1, 1⟩ nodes
  | .error p => Node.branch .sourceFile ⟨1, 1⟩ [Node.leaf .error p ""]

end CallLineage.Go
