import CallLineage.Analysis
import CallLineage.Discovery
/-! The analysis of files in a tree. -/
namespace CallLineage

inductive Language
  | go
  deriving DecidableEq

namespace Language

def name : Language → String
  | go => "go"

/-- The language of a file extension, in any case. -/
def ofExtension? (extension : String) : Option Language :=
  if extension.toLower == "go" then some .go else none

def ofPath? (p : Path) : Option Language := p.extension?.bind ofExtension?

end Language

namespace Go.Source

/-- Reads and parses a file of the tree; its path is kept relative to `base`. -/
def load (t : FileTree) (base relative : Path) : Except Failure Source :=
  match t.readText (base.join relative) with
  | .error e => .error (.read (base.join relative) e.message)
  | .ok text => parse relative text

end Go.Source

namespace Analysis

/-- The analysis of the given files; the first one that cannot be read or parsed is the failure. -/
def ofFiles (t : FileTree) (base : Path) (files : List Path) : Except Failure Analysis := do
  return ofSources base (← files.mapM (Go.Source.load t base))

def ofDirectory (t : FileTree) (root : Path) (c : DiscoveryConfig) (global : Option Path) :
    Except Failure Analysis := do
  let walk ← SourceWalk.prepare t root c
  ofFiles t walk.base (← walk.files t global)

end Analysis

end CallLineage
