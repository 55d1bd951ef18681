import CallLineage.Go.Grammar.Type
/-! Expressions.
Which symbols are operators depends on what may follow: outside statements `a <-b` compares with a negation and
`a++b` adds, because no statement symbol can come there. A name before an opening brace begins a literal unless the
brace has to open a block. -/
namespace CallLineage.Go.Grammar

open Go.Parser

def binaryOperators : List String :=
  ["*", "/", "%", "<<", ">>", "&", "&^", "+", "-", "|", "^", "==", "!=", "<", "<=", ">", ">=", "&&",
    "||"]

def assignmentOperators : List String :=
  ["*=", "/=", "%=", "<<=", ">>=", "&=", "&^=", "+=", "-=", "|=", "^=", "="]

def unaryOperators : List String := ["+", "-", "!", "^", "*", "&", "<-"]

/-- The binary operator that comes next, read as the longest symbol that may come here. -/
def operatorAhead (follow : Follow) (text : List Char) : Option String :=
  let symbols := binaryOperators
    ++ (if follow.assign then ":=" :: assignmentOperators else [])
    ++ (if follow.send then ["<-", "++", "--"] else [])
  (longestSymbol symbols text).filter binaryOperators.contains

def argument (g : Grammar) : Parser Forest := do
  let value ← g (.expression {})
  if ← at? "..." then
    return Forest.branch .variadicArgument (value ++ (← symbol "..."))
  return value

/-- One or more items with commas between them and perhaps one at the end, up to `close`. -/
def closedList (close : String) (item : Parser Forest) : Parser Forest := do
  let first ← item
  let rest ← many do
    if ← at? "," then
      let comma ← symbol ","
      if ← at? close then return some comma
      return some (comma ++ (← item))
    else return none
  return first ++ rest

def arguments (g : Grammar) : Parser Forest := do
  let left ← symbol "("
  let inner ← if ← at? ")" then pure [] else closedList ")" (argument g)
  return Forest.branch .argumentList (left ++ inner ++ (← symbol ")"))

def typeFirstArguments (g : Grammar) : Parser Forest := do
  let left ← symbol "("
  let inner ←
    if ← at? ")" then pure []
    else do
      let first ← g (.type false)
      let rest ← many do
        if ← at? "," then
          let comma ← symbol ","
          if ← at? ")" then return some comma
          return some (comma ++ (← g (.expression {})))
        else return none
      pure (first ++ rest)
  return Forest.branch .argumentList (left ++ inner ++ (← symbol ")"))

def literalElement (g : Grammar) : Parser Forest := do
  let inner ← if ← at? "\x7b" then g .literalValue else g (.expression {})
  return Forest.branch .literalElement inner

def keyedElement (g : Grammar) : Parser Forest := do
  let first ← literalElement g
  if ← at? ":" then
    let colon ← symbol ":"
    return Forest.branch .keyedElement (first ++ colon ++ (← literalElement g))
  return first

/-- The body of a composite literal; a comma may stand after the last element, or alone. -/
def literalValue (g : Grammar) : Parser Forest := do
  let left ← symbol "\x7b"
  let inner ←
    if ← at? "\x7d" then pure []
    else if ← at? "," then symbol ","
    else closedList "\x7d" (keyedElement g)
  return Forest.branch .literalValue (left ++ inner ++ (← symbol "\x7d"))

def compositeLiteral (g : Grammar) (type : Forest) : Parser Forest := do
  return Forest.branch .compositeLiteral (type.label .type ++ (← g .literalValue))

def conversion (g : Grammar) (type : Forest) : Parser Forest := do
  let left ← symbol "("
  let value ← g (.expression {})
  let comma ← if ← at? "," then symbol "," else pure []
  let right ← symbol ")"
  return Forest.branch .typeConversion
    (type.label .type ++ left ++ value.label .operand ++ comma ++ right)

def instantiation (g : Grammar) (type : Forest) : Parser Forest := do
  let left ← symbol "["
  let inner ← closedList "]" (g (.type false))
  return Forest.branch .typeInstantiation (type.label .type ++ left ++ inner ++ (← symbol "]"))

def takesLiteral : Kind → Bool
  | .mapType | .sliceType | .arrayType | .implicitLengthArrayType | .structType => true
  | _ => false

/-- What has to follow a type that stands where an operand is expected. -/
def typeOperandTail (g : Grammar) (type : Forest) : Parser Forest := do
  let text ← ahead
  match text with
  | '\x7b' :: _ =>
    if (type.head?.map fun n => takesLiteral n.kind).getD false then compositeLiteral g type
    else refuse
  | '(' :: _ => conversion g type
  | '[' :: _ => instantiation g type
  | _ => refuse

def functionOperand (g : Grammar) : Parser Forest := do
  let word ← keyword "func"
  let shape ← signature g false
  if ← at? "\x7b" then
    return Forest.branch .functionLiteral (word ++ shape ++ (← g .block))
  typeOperandTail g (Forest.branch .functionType (word ++ shape))

/-- Names that take a type as their first argument; they are functions and never types. -/
def takesType (word : String) : Bool := word == "new" || word == "make"

def isPlainName (n : Node) : Bool := n.kind == .identifier && !takesType n.text

def namesType (operand : Forest) : Bool :=
  match operand.head? with
  | none => false
  | some n =>
    isPlainName n ||
      (n.kind == .selectorExpression && ((n.child? .operand).map isPlainName).getD false)

def asTypeName (operand : Forest) : Forest :=
  operand.map fun n =>
    if n.kind == .identifier then n.withKind .typeIdentifier
    else if n.kind == .selectorExpression then n.withKind .qualifiedType
    else n

/-- Whether an operand can take type arguments without being called. -/
def instantiable (operand : Forest) : Bool :=
  namesType operand || (operand.head?.map Node.kind) == some .parenthesizedExpression

def predeclaredValue : String → Option Kind
  | "nil" => some .nilLiteral
  | "true" => some .trueLiteral
  | "false" => some .falseLiteral
  | "iota" => some .iotaLiteral
  | _ => none

/-- An expression in parentheses, or a type in parentheses that is used as an operand. -/
def parenthesized (g : Grammar) : Parser Forest :=
  either
    (do
      let left ← symbol "("
      let inner ← g (.expression {})
      return Forest.branch .parenthesizedExpression (left ++ inner ++ (← symbol ")")))
    (do typeOperandTail g (← type g false))

def operand (g : Grammar) (follow : Follow) : Parser Forest := do
  let text ← ahead
  match text with
  | '(' :: _ => parenthesized g
  | '[' :: _ => typeOperandTail g (← arrayType g false true)
  | '~' :: _ => typeOperandTail g (← type g false)
  | '\'' :: _ =>
    match Literal.rune? text with
    | some n => take .runeLiteral n
    | none => refuse
  | _ =>
    if quoteAhead text then stringLiteral
    else
      match Literal.number? text with
      | some (kind, n) => take kind n
      | none =>
        match wordOf text with
        | "func" => functionOperand g
        | "struct" | "map" | "chan" | "interface" => typeOperandTail g (← type g false)
        | word =>
          match predeclaredValue word with
          | some kind => take kind word.length
          | none =>
            let first ← name .identifier
            if takesType word && (← at? "(" (!follow.newline)) then
              return Forest.branch .callExpression
                (first.label .function ++ (← typeFirstArguments g))
            return first

def sliceBounds (g : Grammar) : Parser Forest := do
  let stop ← g (.expression {})
  if ← at? ":" then
    let colon ← symbol ":"
    return stop ++ colon ++ (← g (.expression {}))
  return stop

def indexOrSlice (g : Grammar) (target : Forest) (lines : Bool) : Parser Forest := do
  let left ← symbol "[" lines
  let start ← if ← at? ":" then pure [] else g (.expression {})
  if ← at? ":" then
    let colon ← symbol ":"
    let stop ← if ← at? "]" then pure [] else sliceBounds g
    let right ← symbol "]"
    return Forest.branch .sliceExpression
      (target.label .operand ++ left ++ start ++ colon ++ stop ++ right)
  return Forest.branch .indexExpression (target.label .operand ++ left ++ start ++ (← symbol "]"))

/-- Whether a token may come after a literal in the head of a statement. -/
def headContinues (text : List Char) : Bool :=
  match text with
  | '\x7b' :: _ | ';' :: _ | '.' :: _ | '(' :: _ | '[' :: _ | ',' :: _ | ':' :: _ | '=' :: _ => true
  | _ => (operatorAhead {} text).isSome

/-- A literal whose type is qualified or has arguments, where a block may follow as well. -/
def literalBeforeBlock (g : Grammar) (type : Forest) : Parser Forest := do
  let value ← compositeLiteral g type
  if headContinues (← ahead) then return value else refuse

def literalAfter (g : Grammar) (follow : Follow) (type : Forest) : Parser Forest :=
  if !follow.block then compositeLiteral g type
  else if follow.literal then literalBeforeBlock g type
  else refuse

/-- Brackets after an operand: type arguments of a literal, an index, a slice, or type arguments of a call. -/
def bracketed (g : Grammar) (follow : Follow) (target : Forest) : Parser Forest :=
  let lines := !follow.newline
  either
    (do
      if !namesType target then refuse
      let arguments ← typeArguments g
      if !(← at? "\x7b" lines) then refuse
      literalAfter g follow (Forest.branch .genericType
        ((asTypeName target).label .type ++ arguments.label .typeArguments)))
    (either (indexOrSlice g target lines)
      (do
        let types ← typeArguments g
        if ← at? "(" lines then
          return Forest.branch .callExpression
            (target.label .function ++ types.label .typeArguments ++ (← arguments g))
        if instantiable target then
          return Forest.branch .typeInstantiation ((asTypeName target).label .type ++ types)
        refuse))

def guardAhead (lines : Bool) : Parser Bool := inspect fun c =>
  let t := (c.trivia lines).2
  if dotAhead t.rest then
    let paren := ((t.skip 1).trivia true).2
    startsWith "(" paren.rest && wordOf ((paren.skip 1).ahead true) == "type"
  else false

def selection (g : Grammar) (target : Forest) (lines : Bool) : Parser Forest := do
  let point ← symbol "." lines
  if ← at? "(" then
    let left ← symbol "("
    let asserted ← g (.type false)
    let right ← symbol ")"
    return Forest.branch .typeAssertion
      (target.label .operand ++ point ++ left ++ asserted.label .type ++ right)
  let selected ← name .fieldIdentifier
  return Forest.branch .selectorExpression
    (target.label .operand ++ point ++ selected.label .selected)

def suffixes (g : Grammar) (follow : Follow) : Nat → Forest → Parser Forest
  | 0, target => pure target
  | fuel + 1, target => do
    let lines := !follow.newline
    let text ← ahead lines
    match text with
    | '(' :: _ =>
      let inner ← arguments g
      suffixes g follow fuel (Forest.branch .callExpression (target.label .function ++ inner))
    | '[' :: _ => suffixes g follow fuel (← bracketed g follow target)
    | '.' :: _ =>
      if !dotAhead text || (← guardAhead lines) then return target
      suffixes g follow fuel (← selection g target lines)
    | '\x7b' :: _ =>
      if !namesType target then return target
      if !follow.block then
        suffixes g follow fuel (← compositeLiteral g (asTypeName target))
      else if follow.literal && (target.head?.map Node.kind) == some .selectorExpression then
        match ← optional (literalBeforeBlock g (asTypeName target)) with
        | some value => suffixes g follow fuel value
        | none => return target
      else return target
    | _ => return target

def unary (g : Grammar) (follow : Follow) : Parser Forest := do
  match longestSymbol unaryOperators (← ahead) with
  | some operator =>
    let first ← symbol operator
    return Forest.branch .unaryExpression (first ++ (← g (.unary follow)))
  | none =>
    let first ← operand g follow
    suffixes g follow ((← inspect Cursor.limit) + 1) first

def expression (g : Grammar) (follow : Follow) : Parser Forest := do
  let first ← unary g follow
  let rest ← many do
    match operatorAhead follow (← ahead (!follow.newline)) with
    | none => return none
    | some operator =>
      let o ← symbol operator (!follow.newline)
      return some (o ++ (← unary g follow))
  if rest.isEmpty then return first
  return Forest.branch .binaryExpression (first ++ rest)

end CallLineage.Go.Grammar
