import CallLineage.Go.Grammar.Basic
/-! Types, parameter lists and struct fields.
In parameter lists and struct fields a name may be a field or parameter of a type that follows, or a type of its
own; which of the two it is shows only after it. -/
namespace CallLineage.Go.Grammar

open Go.Parser

/-- Whether a type other than a parenthesised one begins here. -/
def simpleTypeAhead (text : List Char) : Bool :=
  match text with
  | '*' :: _ | '[' :: _ | '~' :: _ => true
  | '<' :: '-' :: _ => true
  | _ => ["func", "struct", "map", "chan", "interface"].contains (wordOf text) || nameAhead text

def typeAhead (text : List Char) : Bool :=
  text.head? == some '(' || simpleTypeAhead text

/-- Whether a selecting dot comes next; three dots are another token. -/
def dotAhead (text : List Char) : Bool :=
  startsWith "." text && !startsWith "..." text

def typeElement (g : Grammar) (newline : Bool) : Parser Forest := do
  let first ← g (.type newline)
  let rest ← separated "|" (!newline) (g (.type newline))
  return Forest.branch .typeElement (first ++ rest)

def typeArguments (g : Grammar) : Parser Forest := do
  let left ← symbol "["
  let first ← typeElement g false
  let rest ← many do
    if ← at? "," then
      let comma ← symbol ","
      if ← at? "]" then return some comma
      return some (comma ++ (← typeElement g false))
    else return none
  return Forest.branch .typeArguments (left ++ first ++ rest ++ (← symbol "]"))

/-- What may follow a name that has been read as the beginning of a type: a selected name and type arguments. -/
def namedTypeTail (g : Grammar) (newline : Bool) (first : Forest) : Parser Forest := do
  let base ←
    if dotAhead (← ahead (!newline)) then do
      let point ← symbol "." (!newline)
      let selected ← name .typeIdentifier
      pure (Forest.branch .qualifiedType (first.relabel .packageIdentifier ++ point ++ selected))
    else pure (first.relabel .typeIdentifier)
  if ← at? "[" (!newline) then
    let arguments ← typeArguments g
    return Forest.branch .genericType (base.label .type ++ arguments.label .typeArguments)
  return base

def namedType (g : Grammar) (newline : Bool) : Parser Forest := do
  namedTypeTail g newline (← name .typeIdentifier)

/-- An array or slice type; `implicit` admits three dots for the length. -/
def arrayType (g : Grammar) (newline implicit : Bool) : Parser Forest := do
  let left ← symbol "["
  if ← at? "]" then
    let right ← symbol "]"
    return Forest.branch .sliceType (left ++ right ++ (← g (.type newline)))
  if implicit && (← at? "...") then
    let dots ← symbol "..."
    let right ← symbol "]"
    return Forest.branch .implicitLengthArrayType (left ++ dots ++ right ++ (← g (.type newline)))
  let length ← g (.expression {})
  let right ← symbol "]"
  return Forest.branch .arrayType (left ++ length ++ right ++ (← g (.type newline)))

/-- The result of a function: parameters in parentheses, one type, or nothing. -/
def result (g : Grammar) (newline : Bool) : Parser Forest := do
  let text ← ahead (!newline)
  if text.head? == some '(' then g .parameters
  else if simpleTypeAhead text then g (.type newline)
  else return []

def signature (g : Grammar) (newline : Bool) : Parser Forest := do
  let parameters ← g .parameters
  return parameters ++ (← result g newline)

def stringLiteral (lines : Bool := true) : Parser Forest := do
  match Literal.string? (← ahead lines) with
  | some (kind, n) => take kind n lines
  | none => refuse

def quoteAhead (text : List Char) : Bool :=
  match text with
  | c :: _ => c == '"' || c.toNat == 0x60
  | [] => false

def fieldTag : Parser Forest := do
  if quoteAhead (← ahead false) then stringLiteral false else return []

def fieldEndAhead (text : List Char) : Bool :=
  isTerminator text || text.head? == some '\x7d' || quoteAhead text

def structField (g : Grammar) : Parser Forest := do
  let body ←
    if ← at? "*" then do
      let star ← symbol "*"
      let type ← namedType g true
      pure (star ++ type.label .type)
    else do
      let first ← name .fieldIdentifier
      let text ← ahead false
      if text.head? == some ',' then do
        let more ← separated "," true (name .fieldIdentifier)
        let type ← g (.type true)
        pure (first.label .name ++ more ++ type.label .type)
      else if text.head? == some '[' then
        either
          (do
            let type ← g (.type true)
            if fieldEndAhead (← ahead false) then
              pure (first.label .name ++ type.label .type)
            else refuse)
          (do pure ((← namedTypeTail g true first).label .type))
      else if fieldEndAhead text || dotAhead text then do
        pure ((← namedTypeTail g true first).label .type)
      else do
        let type ← g (.type true)
        pure (first.label .name ++ type.label .type)
  return Forest.branch .fieldDeclaration (body ++ (← fieldTag))

def structType (g : Grammar) : Parser Forest := do
  let word ← keyword "struct"
  let left ← symbol "\x7b"
  let fields ← terminatedList "\x7d" (structField g)
  let right ← symbol "\x7d"
  return Forest.branch .structType
    (word ++ Forest.branch .fieldDeclarationList (left ++ fields ++ right))

/-- Whether a name follows with an opening parenthesis on the same line. -/
def methodAhead : Parser Bool := inspect fun c =>
  let t := (c.trivia true).2
  nameAhead t.rest && startsWith "(" ((t.skip (wordOf t.rest).length).ahead false)

def interfaceElement (g : Grammar) : Parser Forest := do
  if ← methodAhead then
    let first ← name .fieldIdentifier
    return Forest.branch .methodElement (first.label .name ++ (← signature g true))
  typeElement g true

def interfaceType (g : Grammar) : Parser Forest := do
  let word ← keyword "interface"
  let left ← symbol "\x7b"
  let elements ← terminatedList "\x7d" (interfaceElement g)
  return Forest.branch .interfaceType (word ++ left ++ elements ++ (← symbol "\x7d"))

def mapType (g : Grammar) (newline : Bool) : Parser Forest := do
  let word ← keyword "map"
  let left ← symbol "["
  let key ← g (.type false)
  let right ← symbol "]"
  return Forest.branch .mapType (word ++ left ++ key ++ right ++ (← g (.type newline)))

def channelType (g : Grammar) (newline : Bool) : Parser Forest := do
  if ← at? "<-" then
    let arrow ← symbol "<-"
    let word ← keyword "chan"
    return Forest.branch .channelType (arrow ++ word ++ (← g (.type newline)))
  let word ← keyword "chan"
  let arrow ← if ← at? "<-" then symbol "<-" else pure []
  return Forest.branch .channelType (word ++ arrow ++ (← g (.type newline)))

def functionType (g : Grammar) (newline : Bool) : Parser Forest := do
  let word ← keyword "func"
  return Forest.branch .functionType (word ++ (← signature g newline))

/-- A type; with `newline` a line end may close it. -/
def type (g : Grammar) (newline : Bool) : Parser Forest := do
  let text ← ahead
  match text with
  | '(' :: _ =>
    let left ← symbol "("
    let inner ← g (.type false)
    return Forest.branch .parenthesizedType (left ++ inner ++ (← symbol ")"))
  | '*' :: _ =>
    let star ← symbol "*"
    return Forest.branch .pointerType (star ++ (← g (.type newline)))
  | '~' :: _ =>
    let tilde ← symbol "~"
    return Forest.branch .negatedType (tilde ++ (← g (.type newline)))
  | '[' :: _ => arrayType g newline false
  | '<' :: _ => channelType g newline
  | _ =>
    match wordOf text with
    | "struct" => structType g
    | "interface" => interfaceType g
    | "map" => mapType g newline
    | "chan" => channelType g newline
    | "func" => functionType g newline
    | _ => namedType g newline

/-- One entry of a parameter list, before it is known whether a lone name is a parameter or a type. -/
inductive ParameterEntry
  | lone (name : Forest)
  | named (name type : Forest)
  | complete (declaration : Forest)

def unnamedParameter (type : Forest) : Forest :=
  Forest.branch .parameterDeclaration (type.label .type)

def parameterEntry (g : Grammar) : Parser ParameterEntry := do
  let text ← ahead
  if startsWith "..." text then
    let dots ← symbol "..."
    return .complete (Forest.branch .variadicParameterDeclaration (dots ++ (← g (.type false))))
  if !nameAhead text then
    return .complete (unnamedParameter (← g (.type false)))
  let first ← name .identifier
  let text ← ahead
  if text.head? == some ',' || text.head? == some ')' then
    return .lone first
  if startsWith "..." text then
    let dots ← symbol "..."
    let type ← g (.type false)
    return .complete (Forest.branch .variadicParameterDeclaration (first.label .name ++ dots ++ type))
  if dotAhead text then
    return .complete (unnamedParameter (← namedTypeTail g false first))
  if text.head? == some '[' then
    return ← either
      (do
        let type ← g (.type false)
        let text ← ahead
        if text.head? == some ',' || text.head? == some ')' then return .named first type
        refuse)
      (do return .complete (unnamedParameter (← namedTypeTail g false first)))
  return .named first (← g (.type false))

/-- Groups the entries of a list, each with the comma after it, into declarations.
Lone names directly before a named entry share its type; all other lone names are types. -/
def groupParameters (pending : Forest) (types : Forest) :
    List (ParameterEntry × Forest) → Forest
  | [] => types
  | (.lone first, comma) :: rest =>
    groupParameters (pending ++ first.label .name ++ comma)
      (types ++ unnamedParameter (first.relabel .typeIdentifier) ++ comma) rest
  | (.named first type, comma) :: rest =>
    Forest.branch .parameterDeclaration (pending ++ first.label .name ++ type.label .type) ++ comma ++
      groupParameters [] [] rest
  | (.complete declaration, comma) :: rest =>
    types ++ declaration ++ comma ++ groupParameters [] [] rest

def parameterEntries (g : Grammar) : Nat → Parser (List (ParameterEntry × Forest))
  | 0 => pure []
  | fuel + 1 => do
    let entry ← parameterEntry g
    if ← at? "," then
      let comma ← symbol ","
      if ← at? ")" then return [(entry, comma)]
      return (entry, comma) :: (← parameterEntries g fuel)
    return [(entry, [])]

/-- A parameter list; a comma may stand after the last entry, or alone. -/
def parameters (g : Grammar) : Parser Forest := do
  let left ← symbol "("
  let inner ←
    if ← at? ")" then pure []
    else if ← at? "," then symbol ","
    else do
      let entries ← parameterEntries g ((← inspect Cursor.limit) + 1)
      pure (groupParameters [] [] entries)
  return Forest.branch .parameterList (left ++ inner ++ (← symbol ")"))

end CallLineage.Go.Grammar
