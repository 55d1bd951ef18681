/-! Concrete syntax trees of Go source.
A tree keeps every token, comments included, because a comment may stand where a reader looks for the first
child of a node. `Node.firstFault?` finds the place of a syntax error without entering sound subtrees. -/
namespace CallLineage.Go

/-- A place in a source text: line and byte column, both counted from one. -/
structure Position where
  line : Nat
  column : Nat
  deriving DecidableEq, Inhabited

namespace Position

def later (p q : Position) : Position :=
  if p.line < q.line || (p.line == q.line && p.column < q.column) then q else p

end Position

inductive Kind
  | token | comment | error | missing
  | sourceFile | packageClause | importDeclaration | importSpec | importSpecList
  | functionDeclaration | methodDeclaration
  | constDeclaration | constSpec | varDeclaration | varSpec | varSpecList
  | typeDeclaration | typeSpec | typeAlias
  | typeParameterList | typeParameterDeclaration | typeConstraint
  | parameterList | parameterDeclaration | variadicParameterDeclaration
  | typeIdentifier | packageIdentifier | qualifiedType | genericType | typeArguments | typeElement
  | pointerType | parenthesizedType | arrayType | implicitLengthArrayType | sliceType | structType
  | fieldDeclarationList | fieldDeclaration | interfaceType | methodElement | mapType | channelType
  | functionType | negatedType
  | identifier | fieldIdentifier | labelName | blankIdentifier | dot
  | intLiteral | floatLiteral | imaginaryLiteral | runeLiteral | rawStringLiteral
  | interpretedStringLiteral | nilLiteral | trueLiteral | falseLiteral | iotaLiteral
  | unaryExpression | binaryExpression | selectorExpression | indexExpression | sliceExpression
  | callExpression | typeAssertion | typeConversion | typeInstantiation | compositeLiteral
  | literalValue | literalElement | keyedElement | functionLiteral | parenthesizedExpression
  | argumentList | variadicArgument | expressionList
  | block | emptyStatement | expressionStatement | sendStatement | receiveStatement | incStatement
  | decStatement | assignmentStatement | shortVarDeclaration | labeledStatement
  | fallthroughStatement | breakStatement | continueStatement | gotoStatement | returnStatement
  | goStatement | deferStatement | ifStatement | forStatement | forClause | rangeClause
  | switchStatement | typeSwitchStatement | selectStatement | expressionCase | typeCase
  | communicationCase | defaultCase
  deriving DecidableEq, Inhabited

namespace Kind

/-- Error and missing nodes mark the places where a text leaves the grammar. -/
def isFault : Kind → Bool
  | error | missing => true
  | _ => false

end Kind

inductive Field
  | name | receiver | type | function | typeArguments | operand | selected
  deriving DecidableEq, Inhabited

/-- A node of a syntax tree. `faulty` is set when the node or one below it is a fault. -/
inductive Node where
  | mk (kind : Kind) (field : Option Field) (start : Position) (text : String) (faulty : Bool)
      (children : List Node)
  deriving Inhabited

/-- The nodes read by one rule: at most one of its own kind, and the comments around it. -/
abbrev Forest := List Node

namespace Node

def kind : Node → Kind
  | mk k _ _ _ _ _ => k

def field : Node → Option Field
  | mk _ f _ _ _ _ => f

def start : Node → Position
  | mk _ _ p _ _ _ => p

def text : Node → String
  | mk _ _ _ t _ _ => t

def faulty : Node → Bool
  | mk _ _ _ _ b _ => b

def children : Node → List Node
  | mk _ _ _ _ _ cs => cs

def leaf (kind : Kind) (start : Position) (text : String) : Node :=
  mk kind none start text kind.isFault []

/-- A node over its children, faulty when it is a fault itself or has a faulty child. -/
def branch (kind : Kind) (start : Position) (children : List Node) : Node :=
  mk kind none start "" (kind.isFault || children.any faulty) children

def withField (f : Field) : Node → Node
  | mk k _ p t b cs => mk k (some f) p t b cs

def withKind (k : Kind) : Node → Node
  | mk _ f p t b cs => mk k f p t b cs

def isComment (n : Node) : Bool := n.kind == .comment

/-- Names, types, statements and comments are named; keywords and punctuation are not. -/
def isNamed (n : Node) : Bool := n.kind != .token

def namedChildren (n : Node) : List Node := n.children.filter isNamed

def child? (n : Node) (f : Field) : Option Node :=
  n.children.find? fun c => c.field == some f

mutual

/-- The node and all below it, each before its children and in source order. -/
def preorder : Node → List Node
  | mk k f p t b cs => mk k f p t b cs :: preorderAll cs

def preorderAll : List Node → List Node
  | [] => []
  | n :: ns => preorder n ++ preorderAll ns

end

theorem mem_preorder_self (n : Node) : n ∈ n.preorder := by
  cases n
  exact List.mem_cons_self

theorem mem_preorderAll {m : Node} {ns : List Node} : m ∈ preorderAll ns ↔ ∃ n ∈ ns, m ∈ n.preorder := by
  induction ns with
  | nil => simp [preorderAll]
  | cons n ns ih => simp [preorderAll, ih]

mutual

/-- The first fault in pre-order, entering only nodes that are marked faulty. -/
def firstFault? : Node → Option Node
  | mk k f p t b cs =>
    if k.isFault then some (mk k f p t b cs)
    else if b then firstFaultIn? cs
    else none

def firstFaultIn? : List Node → Option Node
  | [] => none
  | n :: ns =>
    match firstFault? n with
    | some m => some m
    | none => firstFaultIn? ns

end

end Node

namespace Forest

/-- Wraps a forest into one node; comments in front of its first token stay outside. -/
def branch (kind : Kind) (forest : Forest) : Forest :=
  let comments := forest.takeWhile Node.isComment
  match forest.dropWhile Node.isComment with
  | [] => comments
  | n :: ns => comments ++ [Node.branch kind n.start (n :: ns)]

/-- Gives the nodes of a forest, comments apart, their part in the parent. -/
def label (f : Field) (forest : Forest) : Forest :=
  forest.map fun n => if n.isComment then n else n.withField f

def relabel (k : Kind) (forest : Forest) : Forest :=
  forest.map fun n => if n.isComment then n else n.withKind k

def head? (forest : Forest) : Option Node :=
  forest.find? fun n => !n.isComment

end Forest

end CallLineage.Go
