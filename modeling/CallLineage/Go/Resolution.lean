import CallLineage.Declaration
import CallLineage.Distinct
import CallLineage.Go.Source
/-! The names that declarations and calls of a file stand for.
Receivers and call targets are resolved by their spelling alone: `Node.receiver?` gives the type a method belongs
to, and `Node.target?` the name that a call of a plain or selected name refers to. -/
namespace CallLineage.Go

namespace Node

mutual

/-- The name of a receiver type, through pointers and parentheses, whose first named child decides. -/
def typeName? : Node → Option String
  | mk kind field start text faulty children =>
    match kind with
    | .typeIdentifier => some text
    | .pointerType | .parenthesizedType => typeNameIn? children
    | .genericType =>
      match (mk kind field start text faulty children).child? .type with
      | some base => if base.kind == .typeIdentifier then some base.text else none
      | none => none
    | _ => none

def typeNameIn? : List Node → Option String
  | [] => none
  | n :: ns => if n.isNamed then typeName? n else typeNameIn? ns

end

def receiver? (method : Node) : Option String := do
  let parameters ← method.child? .receiver
  let parameter ← parameters.namedChildren.find? fun n => n.kind == .parameterDeclaration
  let type ← parameter.child? .type
  type.typeName?

/-- The name a call refers to, when a plain or selected name is called without type arguments. -/
def target? (call : Node) : Option String := do
  if (call.child? .typeArguments).isSome then none
  let function ← call.child? .function
  match function.kind with
  | .identifier => some function.text
  | .selectorExpression =>
    let operand ← function.child? .operand
    let selected ← function.child? .selected
    if operand.kind == .identifier then some (qualifiedName (some operand.text) selected.text) else none
  | _ => none

def targets (n : Node) : List String :=
  (n.preorder.filter fun m => m.kind == .callExpression).filterMap target?

mutual

/-- Appends the declared names that the calls in a tree refer to, unless they are there; a call comes before the
calls in its callee and its arguments. -/
def collectCalls (declared : String → Bool) : Node → List String → List String
  | mk kind field start text faulty children, callees =>
    let here :=
      if kind == .callExpression then
        match (mk kind field start text faulty children).target? with
        | some name => if declared name then appendNew callees name else callees
        | none => callees
      else callees
    collectCallsIn declared children here

def collectCallsIn (declared : String → Bool) : List Node → List String → List String
  | [], callees => callees
  | n :: ns, callees => collectCallsIn declared ns (collectCalls declared n callees)

end

/-- The receiver of a declaration; `none` when the node declares nothing or its receiver is not a type name. -/
def declaredReceiver? (n : Node) : Option (Option String) :=
  match n.kind with
  | .functionDeclaration => some none
  | .methodDeclaration => n.receiver?.map some
  | _ => none

end Node

structure DeclaredNode where
  declaration : Declaration
  node : Node

structure CallerEdges where
  caller : String
  callees : List String
  deriving DecidableEq

namespace Source

def declaredNode? (path : Path) (n : Node) : Option DeclaredNode := do
  let receiver ← n.declaredReceiver?
  let name ← n.child? .name
  return ⟨.of receiver name.text path n.start.line, n⟩

/-- The functions and methods of the top level; methods of unnamed receivers are passed over. -/
def declaredNodes (s : Source) : List DeclaredNode :=
  s.tree.namedChildren.filterMap (declaredNode? s.path)

def declarations (s : Source) : List Declaration :=
  s.declaredNodes.map (·.declaration)

/-- The declared names among the calls of each declaration, without repetition. -/
def edges (s : Source) (declared : String → Bool) : List CallerEdges :=
  s.declaredNodes.map fun d => ⟨d.declaration.name, d.node.collectCalls declared []⟩

def receivers (s : Source) : List (Option String) :=
  (s.tree.namedChildren.filter fun n => n.kind == .methodDeclaration).map Node.receiver?

end Source

end CallLineage.Go
