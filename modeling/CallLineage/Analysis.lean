import CallLineage.CallGraph
import CallLineage.Go.Resolution
/-! The analysis of a set of files.
All declarations are collected before any call is resolved, so a call into a file that comes later still counts. -/
namespace CallLineage

structure Analysis where
  /-- The directory that the paths of the files are relative to. -/
  root : Path
  files : List Path
  declarations : DeclarationIndex
  graph : CallGraph
  deriving Inhabited

namespace Analysis

def collect (sources : List Go.Source) : DeclarationIndex :=
  sources.foldl (fun index s => index.extend s.declarations) .empty

/-- The calls of all files among the declared names; every declared name is a caller. -/
def assemble (sources : List Go.Source) (declarations : DeclarationIndex) : CallGraph :=
  sources.foldl
    (fun g s => (s.edges declarations.contains).foldl (fun g e => g.merge e.caller e.callees) g)
    (.withCallers declarations.names)

def ofSources (root : Path) (sources : List Go.Source) : Analysis :=
  let declarations := collect sources
  ⟨root, sources.map (·.path), declarations, assemble sources declarations⟩

/-- The analysis of texts given with their paths; the first text that is not well formed is the failure. -/
def ofTexts (texts : List (Path × String)) : Except Failure Analysis := do
  let sources ← texts.mapM fun t => Go.Source.parse t.1 t.2
  return ofSources ⟨""⟩ sources

end Analysis

end CallLineage
