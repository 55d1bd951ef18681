import CallLineage.Failure
import CallLineage.Ignore
/-! Which files of a tree are analysed, and in which order.
A walk goes through the directories under a root, the entries of each in the order of their names, and passes over
what ignore rules and hidden names take out; of the files it meets, the filter admits those whose names and paths
fit the configuration. -/
namespace CallLineage

structure DiscoveryConfig where
  /-- Names of sources end with this. -/
  sourceSuffix : String
  /-- Names that end with this are tests and left out; empty for none. -/
  testSuffix : String
  respectGitignore : Bool
  /-- Patterns of which a path has to match one, if there are any. -/
  includes : List String
  /-- Patterns of which a path must match none. -/
  excludes : List String
  deriving DecidableEq

namespace DiscoveryConfig

def standard : DiscoveryConfig := ⟨".go", "_test.go", true, [], []⟩

instance : Inhabited DiscoveryConfig := ⟨standard⟩

end DiscoveryConfig

structure SourceFilter where
  sourceSuffix : String
  testSuffix : String
  includes : List Glob
  excludes : List Glob

namespace SourceFilter

/-- Reads the patterns of a configuration; the first one that cannot be read is the fault. -/
def ofConfig (c : DiscoveryConfig) : Except String SourceFilter := do
  return ⟨c.sourceSuffix, c.testSuffix, ← c.includes.mapM Glob.ofPattern,
    ← c.excludes.mapM Glob.ofPattern⟩

def accepts (f : SourceFilter) (p : Path) : Bool :=
  match p.fileName? with
  | none => false
  | some name =>
    let text := Utf8.encode p.text
    f.sourceSuffix.toList.isSuffixOf name.toList
      && !(!f.testSuffix.isEmpty && f.testSuffix.toList.isSuffixOf name.toList)
      && (f.includes.isEmpty || f.includes.any (·.accepts text))
      && !f.excludes.any (·.accepts text)

end SourceFilter

mutual

/-- The files in an entry that a walk meets, as names from the top. -/
def walkEntry (t : FileTree) (git : Bool) (rules : IgnoreRules) (names : List String) :
    Entry → List (List String)
  | .file _ => [names]
  | .link _ => []
  | .dir entries =>
    let rules := rules.enter t git names
    let found := walkEntries t git rules names entries
    (found.mergeSort fun a b => a.1 ≤ b.1).flatMap (·.2)

def walkEntries (t : FileTree) (git : Bool) (rules : IgnoreRules) (names : List String) :
    List (String × Entry) → List (String × List (List String))
  | [] => []
  | (name, e) :: rest =>
    let here := names ++ [name]
    (name, if rules.skips here e.isDir then [] else walkEntry t git rules here e)
      :: walkEntries t git rules names rest

end

/-- A walk that has been prepared: where it begins, the directory its paths are relative to, and the filter. -/
structure SourceWalk where
  root : Path
  base : Path
  filter : SourceFilter
  git : Bool

namespace SourceWalk

/-- Prepares a walk. A root that is a file is walked alone, relative to its directory. -/
def prepare (t : FileTree) (root : Path) (c : DiscoveryConfig) : Except Failure SourceWalk :=
  if !t.exists? root then .error (.enumeration root "path does not exist")
  else
    match SourceFilter.ofConfig c with
    | .error e => .error (.enumeration root ("invalid glob pattern: " ++ e))
    | .ok filter =>
      let base := if t.isFile root then (root.parent?).getD ⟨""⟩ else root
      .ok ⟨root, base, filter, c.respectGitignore⟩

/-- The rules that hold at a root before its own: those of the directories above it, and those for all directories. -/
def rulesAbove (t : FileTree) (git : Bool) (global : Option Path) (root : Path) (names : List String) : IgnoreRules :=
  let above := (List.range names.length).map fun n => IgnoreLevel.load t git true (FileTree.pathOf (names.take n))
  let rules := match global with
    | some p => if git then IgnoreLevel.rulesAt t p else []
    | none => []
  ⟨above.reverse, rules, t.current, root, names.length⟩

/-- The files of the walk, as paths relative to its base, in order. -/
def files (w : SourceWalk) (t : FileTree) (global : Option Path) : Except Failure (List Path) :=
  match t.find w.root with
  | .error e =>
    .error (.enumeration w.base
      (w.root.text ++ ": IO error for operation on " ++ w.root.text ++ ": " ++ e.message))
  | .ok place =>
    let found := match place.entry with
      | .dir entries =>
        (walkEntry t w.git (rulesAbove t w.git global w.root place.names) place.names (.dir entries)).map
          fun (names : List String) => (⟨String.intercalate "/" (names.drop place.names.length)⟩ : Path)
      | .file _ => (w.root.fileName?.toList).map Path.mk
      | .link _ => []
    .ok (found.filter w.filter.accepts)

end SourceWalk

end CallLineage
