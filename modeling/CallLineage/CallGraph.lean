import CallLineage.Distinct
import CallLineage.SortedMap
/-! Call graphs: every caller with its distinct callees in the order in which they were first seen.
Callers are kept in order, so a graph does not depend on the order in which they were added. -/
namespace CallLineage

structure CallGraph where
  callers : SortedMap (List String)
  deriving DecidableEq, Inhabited

namespace CallGraph

def empty : CallGraph := ⟨.empty⟩

def withCallers (names : List String) : CallGraph :=
  ⟨names.foldl (fun m n => m.insert n []) .empty⟩

def callees? (g : CallGraph) (caller : String) : Option (List String) := g.callers.get? caller

def contains (g : CallGraph) (caller : String) : Bool := g.callers.contains caller

/-- Makes `caller` a caller and keeps the callees it has. -/
def ensureCaller (g : CallGraph) (caller : String) : CallGraph :=
  ⟨g.callers.alter caller fun old => old.getD []⟩

def hasEdge (g : CallGraph) (caller callee : String) : Bool :=
  ((g.callees? caller).getD []).contains callee

/-- Adds a call unless the graph has it; the flag says whether it was new. -/
def insertEdge (g : CallGraph) (caller callee : String) : CallGraph × Bool :=
  if g.hasEdge caller callee then (g, false)
  else (⟨g.callers.alter caller fun old => old.getD [] ++ [callee]⟩, true)

def addEdge (g : CallGraph) (caller callee : String) : CallGraph := (g.insertEdge caller callee).1

def merge (g : CallGraph) (caller : String) (callees : List String) : CallGraph :=
  callees.foldl (fun g callee => g.addEdge caller callee) (g.ensureCaller caller)

def size (g : CallGraph) : Nat := g.callers.size

def edgeCount (g : CallGraph) : Nat := g.callers.entries.foldr (fun e n => e.2.length + n) 0

def toList (g : CallGraph) : List (String × List String) := g.callers.entries

def ofList (edges : List (String × List String)) : CallGraph :=
  edges.foldl (fun g e => g.merge e.1 e.2) empty

end CallGraph

end CallLineage
