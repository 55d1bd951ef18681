import CallLineage.Lineage
import CallLineage.Utf8
/-! The answer to a request for lineages: for each function the callers that reach it. -/
namespace CallLineage

/-- What the characters of a path are: those of a text, or one for each of its bytes. -/
inductive PathForm
  | text | bytes
  deriving DecidableEq

namespace PathForm

def ofText : PathForm → String → Path
  | text, s => ⟨s⟩
  | bytes, s => ⟨String.ofList ((Utf8.encode s).map fun b => Char.ofNat b.toNat)⟩

/-- The text that a path is told by; bytes that are no text are told by replacement characters. -/
def shown : PathForm → Path → String
  | text, p => p.text
  | bytes, p => Utf8.lossy (p.text.toList.map fun c => UInt8.ofNat c.toNat)

end PathForm

/-- A place in a file. Its line is an unsigned number of 64 bits, as readers of an answer take it. -/
structure Link where
  fileName : String
  line : Fin UInt64.size
  deriving DecidableEq, Inhabited

def Link.lineOf (n : Nat) : Fin UInt64.size := ⟨n % UInt64.size, Nat.mod_lt n (by decide)⟩

structure CallerLink where
  lineage : String
  link : Link
  deriving DecidableEq, Inhabited

structure FunctionAnalysis where
  funcName : String
  /-- The receiver type of a method; empty for a function. -/
  structName : String
  lineages : List CallerLink
  deriving DecidableEq, Inhabited

structure CodeAnalysis where
  functions : List FunctionAnalysis
  deriving DecidableEq, Inhabited

namespace CodeAnalysis

def empty : CodeAnalysis := ⟨[]⟩

end CodeAnalysis

namespace Analysis

def orderedDeclarations (a : Analysis) : List Declaration :=
  a.declarations.records.mergeSort fun d e =>
    ((d.file.compare e.file).then (compare d.line e.line)).isLE

def lineagesFor (a : Analysis) (file : Option Path) (form : PathForm := .text) : CodeAnalysis :=
  let declarations := match file with
    | some f => a.functionsIn f
    | none => a.orderedDeclarations
  let index := CallerIndex.ofGraph a.graph
  ⟨declarations.map fun d =>
    let callers := ((index.lineage? a.declarations d.name none).map (·.callers)).getD []
    ⟨d.function, d.receiver.getD "", callers.map fun e => ⟨e.caller, ⟨form.shown e.file, Link.lineOf e.line⟩⟩⟩⟩

end Analysis

end CallLineage
