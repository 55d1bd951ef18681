import CallLineage.Go.Grammar.Expression
/-! Constant, variable and type declarations. -/
namespace CallLineage.Go.Grammar

open Go.Parser

/-- Values with commas between them, which a line end may close. -/
def values (g : Grammar) : Parser Forest := do
  return Forest.branch .expressionList (← commaList false (expression g { newline := true }))

def constSpec (g : Grammar) : Parser Forest := do
  let names ← commaList false (name .identifier)
  let text ← ahead false
  if startsWith "=" text then
    let equals ← symbol "="
    return Forest.branch .constSpec (names ++ equals ++ (← values g))
  if typeAhead text then
    let type ← g (.type false)
    let equals ← symbol "="
    return Forest.branch .constSpec (names ++ type.label .type ++ equals ++ (← values g))
  return Forest.branch .constSpec names

def varSpec (g : Grammar) : Parser Forest := do
  let names ← commaList true (name .identifier)
  if ← at? "=" then
    let equals ← symbol "="
    return Forest.branch .varSpec (names ++ equals ++ (← values g))
  let type ← g (.type true)
  if ← at? "=" false then
    let equals ← symbol "="
    return Forest.branch .varSpec (names ++ type.label .type ++ equals ++ (← values g))
  return Forest.branch .varSpec (names ++ type.label .type)

/-- How many bytes a part of the text has to take before it is kept although its terminator is missing. -/
def keptBytes : Nat := 10

/-- The specifications of a group, each with its terminator.
A terminator may be missing between two of them, and after the last one of several; a group that holds a single
short specification needs it. -/
def groupedSpecs (spec : Parser Forest) : Nat → Bool → Parser Forest
  | 0, _ => pure []
  | fuel + 1, alone => do
    if ← at? ")" then return []
    let start ← inspect fun c => (c.trivia true).2.offset
    let first ← spec
    if ← atTerminator? then
      let t ← terminator
      return first ++ t ++ (← groupedSpecs spec fuel false)
    if ← at? ")" then
      if alone && (← inspect Cursor.offset) - start ≤ keptBytes then refuse
      return first
    return first ++ (← groupedSpecs spec fuel false)

def specOrGroup (spec : Parser Forest) : Parser Forest := do
  if ← at? "(" then
    let left ← symbol "("
    let inner ← groupedSpecs spec ((← inspect Cursor.limit) + 1) true
    return left ++ inner ++ (← symbol ")")
  spec

def constDeclaration (g : Grammar) : Parser Forest := do
  let word ← keyword "const"
  return Forest.branch .constDeclaration (word ++ (← specOrGroup (constSpec g)))

def varDeclaration (g : Grammar) : Parser Forest := do
  let word ← keyword "var"
  return Forest.branch .varDeclaration (word ++ (← specOrGroup (varSpec g)))

def typeParameter (g : Grammar) : Parser Forest := do
  let names ← commaList true (name .identifier)
  return Forest.branch .typeParameterDeclaration (names ++ (← typeElement g false))

def typeParameters (g : Grammar) : Parser Forest := do
  let left ← symbol "["
  let inner ← closedList "]" (typeParameter g)
  return Forest.branch .typeParameterList (left ++ inner ++ (← symbol "]"))

def typeBody (g : Grammar) (head : Forest) : Parser Forest := do
  if ← at? "=" then
    let equals ← symbol "="
    return Forest.branch .typeAlias (head ++ equals ++ (← g (.type true)))
  return Forest.branch .typeSpec (head ++ (← g (.type true)))

/-- A defined type or an alias; brackets after its name are an array length or type parameters. -/
def typeSpec (g : Grammar) : Parser Forest := do
  let first ← name .typeIdentifier
  if ← at? "[" then
    either
      (do return Forest.branch .typeSpec (first ++ (← g (.type true))))
      (do
        let parameters ← typeParameters g
        typeBody g (first ++ parameters))
  else typeBody g first

def typeDeclaration (g : Grammar) : Parser Forest := do
  let word ← keyword "type"
  if ← at? "(" then
    let left ← symbol "("
    let inner ← terminatedList ")" (typeSpec g)
    return Forest.branch .typeDeclaration (word ++ left ++ inner ++ (← symbol ")"))
  return Forest.branch .typeDeclaration (word ++ (← typeSpec g))

end CallLineage.Go.Grammar
