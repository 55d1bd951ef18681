import CallLineage.Go.Node
import CallLineage.Path
/-! What can go wrong in an analysis, and how it is told. -/
namespace CallLineage

inductive Failure
  /-- The files under `root` could not be listed. -/
  | enumeration (root : Path) (reason : String)
  /-- A file could not be read. -/
  | read (path : Path) (reason : String)
  /-- No grammar for a language. -/
  | grammar (reason : String)
  /-- A file is not well formed. -/
  | parse (path : Path) (position : Go.Position)
  deriving DecidableEq, Inhabited

namespace Failure

def message : Failure → String
  | enumeration root reason => "failed to enumerate source files under " ++ root.text ++ ": " ++ reason
  | read path reason => "failed to read " ++ path.text ++ ": " ++ reason
  | grammar reason => "failed to load grammar: " ++ reason
  | parse path position =>
    "syntax error in " ++ path.text ++ " at line " ++ toString position.line ++ ", column " ++
      toString position.column

def path? : Failure → Option Path
  | read path _ | parse path _ => some path
  | enumeration _ _ | grammar _ => none

end Failure

end CallLineage
