import CallLineage.Arguments
import CallLineage.Export
import CallLineage.Server
/-! The two programs: one writes and queries call graphs, the other serves requests.
Each is a function from the tree of files, the environment and the arguments to what it prints and leaves behind. -/
namespace CallLineage

structure Outcome where
  code : Nat
  /-- The reason why the run failed. -/
  error : Option String
  output : Bytes
  /-- The notice that a file was written. -/
  notice : Option String
  tree : FileTree

structure World where
  tree : FileTree
  env : Config.Environment
  input : Bytes

namespace Outcome

def printed (w : World) (text : String) : Outcome := ⟨0, none, Utf8.encode text, none, w.tree⟩

def failed (w : World) (reason : String) : Outcome := ⟨1, some reason, [], none, w.tree⟩

/-- The end of a run whose arguments ask for nothing to be done. The texts of help and usage are not part of an
outcome, only its code and the version are. -/
def stopped (w : World) (version : String) : Arguments.Stop → Outcome
  | .help => ⟨0, none, [], none, w.tree⟩
  | .version => printed w (version ++ "\n")
  | .usage => ⟨2, none, [], none, w.tree⟩

def ofExcept (w : World) : Except String Outcome → Outcome
  | .ok o => o
  | .error reason => failed w reason

end Outcome

namespace CommandLine

open Arguments

def configOption : OptionRule := ⟨"config", none, .single, nonEmpty⟩

def dirPositional : PositionalRule := ⟨"dir", false, nonEmpty⟩

def topRule : CommandRule := ⟨[configOption], [], true⟩

def analyzeRule : CommandRule :=
  ⟨[configOption, ⟨"format", some 'f', .single, anything⟩, ⟨"output", some 'o', .single, nonEmpty⟩,
    ⟨"include", none, .many, anything⟩, ⟨"exclude", none, .many, anything⟩,
    ⟨"no-gitignore", none, .flag, anything⟩], [dirPositional], false⟩

def callersRule : CommandRule :=
  ⟨[configOption, ⟨"depth", none, .single, fun v => (number? v).isSome⟩],
    [⟨"name", true, anything⟩, dirPositional], false⟩

def infoRule : CommandRule := ⟨[configOption], [dirPositional], false⟩

inductive Command
  | analyze (values : Values)
  | callers (values : Values)
  | info (values : Values)

/-- Reads the whole command line. A file of settings may be named before and after the subcommand; the later one
counts. -/
def parse (args : List String) : Except Stop Command := do
  let (top, name, rest) ← readLeading topRule (args.length + 1) [] args
  match name with
  | "analyze" => return .analyze ((← read analyzeRule rest) ++ top)
  | "callers" => return .callers ((← read callersRule rest) ++ top)
  | "info" => return .info ((← read infoRule rest) ++ top)
  | "help" =>
    match rest with
    | [] => .error .help
    | [sub] => if ["analyze", "callers", "info", "help"].contains sub then .error .help else .error .usage
    | _ => .error .usage
  | _ => .error .usage

/-- The directory a command works on: the one that is named, or the current one. -/
def dirOf (w : World) (vs : Values) : Path :=
  match vs.get? "dir" with
  | some d => ⟨d⟩
  | none => w.tree.current

/-- The settings of a command: from the file that is named, or those of the directory. -/
def configOf (w : World) (vs : Values) (dir : Path) : Except String Config :=
  let loaded := match vs.get? "config" with
    | some file => Config.loadFile w.tree w.env ⟨file⟩
    | none => Config.load w.tree w.env (if w.tree.isFile dir then (dir.parent?).getD dir else dir)
  loaded.mapError Config.Failure.message

/-- Whether a root stands for the input of the program, which no walk goes through. -/
def isInput (dir : Path) : Bool := dir.same ⟨"-"⟩

/-- The analysis of a directory; a file that cannot be read or parsed is told by the name of the directory. -/
def analysisOf (w : World) (dir : Path) (c : Config) : Except String Analysis := do
  let walk ← (SourceWalk.prepare w.tree dir c.discovery).mapError Failure.message
  let files ← if isInput dir then pure []
    else (walk.files w.tree (globalIgnore? w.tree w.env)).mapError Failure.message
  match Analysis.ofFiles w.tree walk.base files with
  | .ok a => return a
  | .error _ => .error ("failed to analyze " ++ dir.text)

def withOptions (c : Config) (vs : Values) : Config where
  discovery :=
    { c.discovery with
      includes := c.discovery.includes ++ vs.getAll "include"
      excludes := c.discovery.excludes ++ vs.getAll "exclude"
      respectGitignore := c.discovery.respectGitignore && !vs.has "no-gitignore" }
  format := (vs.get? "format").getD c.format

def analyze (w : World) (vs : Values) : Except String Outcome := do
  let dir := dirOf w vs
  let c := withOptions (← configOf w vs dir) vs
  let format ← ExportFormat.ofName c.format
  let a ← analysisOf w dir c
  let text := a.graph.render format
  match vs.get? "output" with
  | none => return Outcome.printed w text
  | some file =>
    match w.tree.write ⟨file⟩ (Utf8.encode text) with
    | .error _ => .error ("failed to write " ++ file)
    | .ok tree =>
      return ⟨0, none, [], some ("Wrote " ++ toString a.graph.size ++ " functions, " ++
        toString a.graph.edgeCount ++ " edges to " ++ file), tree⟩

def callerLine (e : LineageEntry) : String :=
  "  [" ++ toString e.depth ++ "] " ++ e.caller ++ " (" ++ e.file.text ++ ":" ++ toString e.line ++ ")\n"

def callersText (l : Lineage) : String :=
  if l.callers.isEmpty then l.origin ++ " has no callers\n"
  else
    l.origin ++ " is reached by " ++ toString l.callers.length ++ " callers (max depth " ++
      toString l.maxDepth ++ "):\n" ++ String.join (l.callers.map callerLine)

def callers (w : World) (vs : Values) : Except String Outcome := do
  let dir := dirOf w vs
  let c ← configOf w vs dir
  let a ← analysisOf w dir c
  let name := (vs.get? "name").getD ""
  match a.lineage? name ((vs.get? "depth").bind number?) with
  | none => .error ("'" ++ name ++ "' is not declared in " ++ dir.text)
  | some l => return Outcome.printed w (callersText l)

def infoText (a : Analysis) : String :=
  let methods := (a.declarations.records.filter fun d => d.receiver.isSome).length
  let leaves := (a.graph.toList.filter fun e => e.2.isEmpty).length
  "Root: " ++ a.root.text ++ "\n" ++
  "Files: " ++ toString a.files.length ++ "\n" ++
  "Declarations: " ++ toString a.declarations.size ++ "\n" ++
  "  Functions: " ++ toString (a.declarations.size - methods) ++ "\n" ++
  "  Methods: " ++ toString methods ++ "\n" ++
  "Qualified names: " ++ toString a.declarations.names.length ++ "\n" ++
  "Call edges: " ++ toString a.graph.edgeCount ++ "\n" ++
  "Leaf functions: " ++ toString leaves ++ "\n"

def info (w : World) (vs : Values) : Except String Outcome := do
  let dir := dirOf w vs
  let c ← configOf w vs dir
  return Outcome.printed w (infoText (← analysisOf w dir c))

def run (w : World) (args : List String) : Outcome :=
  match parse args with
  | .error stop => Outcome.stopped w "codelineage 0.3.0" stop
  | .ok (.analyze vs) => Outcome.ofExcept w (analyze w vs)
  | .ok (.callers vs) => Outcome.ofExcept w (callers w vs)
  | .ok (.info vs) => Outcome.ofExcept w (info w vs)

/-! ## The server -/

def serverName : String := "codelineage-server"

def serverRule : CommandRule := ⟨[configOption], [⟨"root", false, nonEmpty⟩], true⟩

/-- The server that arguments describe. Its root is the path without links. -/
def serverOf (w : World) (vs : Values) : Except String Server := do
  let given : Path := match vs.get? "root" with
    | some r => ⟨r⟩
    | none => w.tree.current
  match w.tree.canonical given with
  | .error _ => .error ("project root not found: " ++ given.text)
  | .ok root =>
    let loaded := match vs.get? "config" with
      | some file => Config.loadFile w.tree w.env ⟨file⟩
      | none => Config.load w.tree w.env root
    let c ← loaded.mapError Config.Failure.message
    return ⟨root, c.discovery, w.env⟩

def runServer (w : World) (args : List String) : Outcome :=
  match read serverRule args with
  | .error stop => Outcome.stopped w (serverName ++ " 0.3.0") stop
  | .ok vs =>
    match serverOf w vs with
    | .error reason => Outcome.failed w reason
    | .ok s =>
      let served := s.serve w.tree w.input none
      match served.failure with
      | none => ⟨0, none, served.output, none, w.tree⟩
      | some f => ⟨1, some f.message, served.output, none, w.tree⟩

end CommandLine

end CallLineage
