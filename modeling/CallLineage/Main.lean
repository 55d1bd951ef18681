import CallLineage.CommandLine
/-! The programs on a real system: the files they need are read into a tree, the run is computed from it, and what it
prints and writes is passed on. -/
namespace CallLineage.Main

def array (bs : Bytes) : ByteArray := ⟨bs.toArray⟩

/-- The bytes of a file. One that cannot be read is given a byte that no text holds, so that it is no text either. -/
def bytesOf (e : IO.FS.DirEntry) : IO Bytes := do
  try return (← IO.FS.readBinFile e.path).toList
  catch _ => return [0xff]

/-- Whether an entry of a directory is needed: of a repository's own files, only the ignore rules are. -/
def isNeeded (directory name : String) : Bool := directory != ".git" || name == "info"

/-- The entry of a directory, with everything below it. What is no file, directory or link is left out. -/
partial def entryOf? (e : IO.FS.DirEntry) : IO (Option Entry) := do
  match (← e.path.symlinkMetadata).type with
  | .dir =>
    let inner ← (← e.path.readDir).toList.filterMapM fun c => do
      if isNeeded e.fileName c.fileName then return (← entryOf? c).map fun d => (c.fileName, d)
      else return none
    return some (.dir inner)
  | .symlink =>
    try return some (.link ⟨(← IO.FS.realPath e.path).toString⟩)
    catch _ => return some (.link ⟨""⟩)
  | .file => return some (.file (← bytesOf e))
  | .other => return none

def ignoreFiles : List String := [".lineageignore", ".ignore", ".gitignore", ".git/info/exclude"]

def gatherFile (t : FileTree) (file : String) : IO FileTree := do
  try return t.put ⟨file⟩ (.file (← IO.FS.readBinFile file).toList)
  catch _ => return t

def ancestors (p : Path) : List Path :=
  let names := FileTree.namesOf p.components
  (List.range names.length).map fun n => FileTree.pathOf (names.take n)

def realPath? (text : String) : IO (Option Path) := do
  try return some ⟨(← IO.FS.realPath text).toString⟩
  catch _ => return none

/-- Reads a directory with everything below it, or a file, into the tree, with the ignore files above it. -/
def gather (t : FileTree) (text : String) : IO FileTree := do
  let some place ← realPath? text | return t
  let real ← IO.FS.realPath text
  let mut t := t
  if ← real.isDir then
    let inner ← (← real.readDir).toList.filterMapM fun c => do
      return (← entryOf? c).map fun d => (c.fileName, d)
    t := t.put place (.dir inner)
  else
    t ← gatherFile t place.text
  for dir in ancestors place do
    for file in ignoreFiles do
      t ← gatherFile t (dir.join ⟨file⟩).text
  let given := t.current.join ⟨text⟩
  return if t.exists? given then t else t.put given (.link place)

/-- Notes what stands where a file is to be written, and that its directory exists. -/
def gatherTarget (t : FileTree) (file : String) : IO FileTree := do
  let parent := ((Path.mk file).parent?).getD ⟨""⟩
  let mut t := t
  if let some dir ← realPath? (if parent.text.isEmpty then "." else parent.text) then
    t := t.makeDir dir
  if let some place ← realPath? file then
    t := if ← (← IO.FS.realPath file).isDir then t.makeDir place else t.put place (.file [])
  return t

def environment : IO Config.Environment := do
  let names := ["LINEAGE_SOURCE_SUFFIX", "LINEAGE_TEST_SUFFIX", "LINEAGE_RESPECT_GITIGNORE",
    "LINEAGE_OUTPUT_FORMAT", "HOME", "XDG_CONFIG_HOME"]
  let found ← names.mapM fun n => do return (← IO.getEnv n).map fun v => (n, v)
  return found.filterMap id

def gatherAll (env : Config.Environment) (root : Option String) (vs : Arguments.Values) :
    IO FileTree := do
  let here := (← IO.currentDir).toString
  let mut t : FileTree := ⟨.dir [], ⟨here⟩⟩
  t := t.makeDir ⟨here⟩
  let dir := root.getD here
  t ← gather t dir
  if let some parent := (Path.mk dir).parent? then
    t ← gatherFile t (t.current.join (Config.fileOf parent)).text
  if let some file := vs.get? "config" then
    t ← gather t file
  if let some file := vs.get? "output" then
    t ← gatherTarget t file
  for file in GitSettings.files env do
    t ← gatherFile t file.text
  if let some file := globalIgnore? t env then
    t ← gatherFile t file.text
  return t

def finish (o : Outcome) (target : Option String) : IO UInt32 := do
  (← IO.getStdout).write (array o.output)
  if let some notice := o.notice then
    if let some file := target then
      match o.tree.read ⟨file⟩ with
      | .ok bytes => IO.FS.writeBinFile file (array bytes)
      | .error _ => pure ()
    (← IO.getStderr).putStrLn notice
  if let some reason := o.error then
    (← IO.getStderr).putStrLn ("Error: " ++ reason)
  return UInt32.ofNat o.code

def runTool (args : List String) : IO UInt32 := do
  let env ← environment
  let vs := match CommandLine.parse args with
    | .ok (.analyze vs) | .ok (.callers vs) | .ok (.info vs) => vs
    | .error _ => []
  let t ← gatherAll env (vs.get? "dir") vs
  finish (CommandLine.run ⟨t, env, []⟩ args) (vs.get? "output")

/-- Reads on up to the end of an object or a line; the flag says whether the input has ended. -/
partial def readOn (pending : ByteArray) : IO (ByteArray × Bool) := do
  match (← (← IO.getStdin).read 1).toList with
  | [] => return (pending, true)
  | b :: _ => if b == 0x7d || b == 0x0a then return (pending.push b, false) else readOn (pending.push b)

mutual

/-- Answers requests as they come in. A request that is not complete waits for more input. -/
partial def serveLoop (s : Server) (env : Config.Environment) (vs : Arguments.Values)
    (pending : ByteArray) (ended : Bool) : IO UInt32 := do
  match Server.nextRequest (Utf8.symbols pending.toList) with
  | .ok (some (request, rest)) =>
    let t ← gatherAll env (some s.root.text) vs
    let out ← IO.getStdout
    out.write (array (s.answer t request ++ [0x0a]))
    out.flush
    serveLoop s env vs (array (Utf8.bytes rest)) ended
  | .ok none => if ended then return 0 else serveOn s env vs pending
  | .error e =>
    if e = .ended && !ended then serveOn s env vs pending
    else
      (← IO.getStderr).putStrLn ("Error: " ++ (ServeFailure.decode e).message)
      return 1

partial def serveOn (s : Server) (env : Config.Environment) (vs : Arguments.Values)
    (pending : ByteArray) : IO UInt32 := do
  let (more, ended) ← readOn pending
  serveLoop s env vs more ended

end

def runServer (args : List String) : IO UInt32 := do
  let env ← environment
  let vs := (Arguments.read CommandLine.serverRule args).toOption.getD []
  let t ← gatherAll env (vs.get? "root") vs
  let w : World := ⟨t, env, []⟩
  match Arguments.read CommandLine.serverRule args, CommandLine.serverOf w vs with
  | .ok _, .ok s => serveLoop s env vs .empty false
  | _, _ => finish (CommandLine.runServer w args) none

end CallLineage.Main

/-- Runs as the server when the executable has the name of one, and as the tool otherwise. -/
def main (args : List String) : IO UInt32 := do
  let name := (← IO.appPath).fileName.getD ""
  if name == CallLineage.CommandLine.serverName then CallLineage.Main.runServer args
  else CallLineage.Main.runTool args
