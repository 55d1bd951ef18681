import CallLineage.Analysis
/-! The callers of a function, direct and indirect.
`lineage?` walks the graph from callee to caller, nearest callers first; each caller is reported once, with the
least number of calls from it to the origin. -/
namespace CallLineage

/-- A caller of the origin, and how many calls lead from it there. -/
structure LineageEntry where
  caller : String
  depth : Nat
  file : Path
  line : Nat
  deriving DecidableEq, Inhabited

structure Lineage where
  origin : String
  callers : List LineageEntry
  /-- The greatest depth of a caller; zero if there is none. -/
  maxDepth : Nat
  deriving DecidableEq, Inhabited

/-- For each callee its direct callers, in order; a callee named twice by one caller gives that caller twice. -/
structure CallerIndex where
  callers : SortedMap (List String)

namespace CallerIndex

def ofGraph (g : CallGraph) : CallerIndex :=
  ⟨g.toList.foldl
    (fun m e => e.2.foldl (fun m callee => m.alter callee fun old => old.getD [] ++ [e.1]) m) .empty⟩

def direct (x : CallerIndex) (callee : String) : List String := (x.callers.get? callee).getD []

end CallerIndex

/-- The state of the walk: names whose callers are still to be visited, names that have been met, and the callers
found, the last one first. -/
structure Search where
  queue : List (String × Nat)
  met : List String
  found : List LineageEntry

namespace Search

def start (origin : String) : Search := ⟨[(origin, 0)], [origin], []⟩

/-- Meets one caller; names that have been met or are not declared add nothing. -/
def meet (declarations : DeclarationIndex) (depth : Nat) (s : Search) (caller : String) : Search :=
  if s.met.contains caller then s
  else
    let met := caller :: s.met
    match declarations.get? caller with
    | none => { s with met := met }
    | some d =>
      ⟨s.queue ++ [(caller, depth)], met, ⟨caller, depth, d.file, d.line⟩ :: s.found⟩

/-- Visits the callers of the name at the head of the queue, unless it lies at the limit. -/
def step (x : CallerIndex) (declarations : DeclarationIndex) (limit : Option Nat) (s : Search) :
    Search :=
  match s.queue with
  | [] => s
  | (name, depth) :: rest =>
    let s := { s with queue := rest }
    if limit.any (· ≤ depth) then s
    else (x.direct name).foldl (meet declarations (depth + 1)) s

/-- Takes at most `fuel` steps. A name enters the queue once and only when it is declared, so one step more than
there are declared names empties it. -/
def run (x : CallerIndex) (declarations : DeclarationIndex) (limit : Option Nat) :
    Nat → Search → Search
  | 0, s => s
  | fuel + 1, s => if s.queue.isEmpty then s else run x declarations limit fuel (step x declarations limit s)

end Search

namespace CallerIndex

/-- The callers of `origin` over at most `limit` calls; `none` if it is not declared. -/
def lineage? (x : CallerIndex) (declarations : DeclarationIndex) (origin : String)
    (limit : Option Nat) : Option Lineage :=
  if declarations.contains origin then
    let s := Search.run x declarations limit (declarations.names.length + 1) (.start origin)
    some ⟨origin, s.found.reverse, s.found.foldr (fun e d => max e.depth d) 0⟩
  else none

end CallerIndex

namespace Analysis

def lineage? (a : Analysis) (origin : String) (limit : Option Nat) : Option Lineage :=
  (CallerIndex.ofGraph a.graph).lineage? a.declarations origin limit

/-- The declarations of a file in the order of their lines. The file may be given relative to the root or below
it. -/
def functionsIn (a : Analysis) (file : Path) : List Declaration :=
  let wanted := (a.root.below? file).getD file.components
  (a.declarations.records.filter fun d => d.file.components == wanted).mergeSort
    fun d e => d.line ≤ e.line

end Analysis

end CallLineage
