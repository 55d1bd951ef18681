import CallLineage.Json.Quoted
import CallLineage.Json.Reader
import CallLineage.Response
/-! The JSON forms of requests, answers, declarations and call graphs. -/
namespace CallLineage

structure Request where
  kind : String
  /-- The file that is asked about; all files when absent. -/
  fileName : Option String
  deriving DecidableEq, Inhabited

namespace Json

open Reader

/-- An object of members that are written already. -/
def object (members : List (String × String)) : String :=
  "\x7b" ++ String.intercalate "," (members.map fun m => quote m.1 ++ ":" ++ m.2) ++ "\x7d"

def list (items : List String) : String := "[" ++ String.intercalate "," items ++ "]"

/-- A member that is left out when it has no value. -/
def optional (name : String) (value : Option String) : List (String × String) :=
  match value with
  | some v => [(name, quote v)]
  | none => []

end Json

open Json Json.Reader

namespace Request

def toJson (r : Request) : String :=
  object (("type", quote r.kind) :: optional "fileName" r.fileName)

/-- What has been read of a request. -/
structure Draft where
  kind : Option String
  fileName : Option (Option String)

def reader : Reader Request :=
  record (⟨none, none⟩ : Draft)
    (fun p key => match key with
      | "type" => once p.kind string fun v => { p with kind := some v }
      | "fileName" => once p.fileName optionalString fun v => { p with fileName := some v }
      | _ => .ok none)
    (fun p => p.kind.map fun k => ⟨k, p.fileName.getD none⟩)
    (do
      let kind ← fieldOf true string
      let fileName ← itemOf false optionalString
      return ⟨kind, fileName.getD none⟩)

end Request

namespace Link

def toJson (l : Link) : String := object [("fileName", quote l.fileName), ("line", toString l.line.val)]

structure Draft where
  fileName : Option String
  line : Option Nat

def reader : Reader Link :=
  record (⟨none, none⟩ : Draft)
    (fun p key => match key with
      | "fileName" => once p.fileName string fun v => { p with fileName := some v }
      | "line" => once p.line natural fun v => { p with line := some v }
      | _ => .ok none)
    (fun p => do return ⟨← p.fileName, lineOf (← p.line)⟩)
    (do
      let fileName ← fieldOf true string
      let line ← fieldOf false natural
      return ⟨fileName, lineOf line⟩)

end Link

namespace CallerLink

def toJson (c : CallerLink) : String := object [("lineage", quote c.lineage), ("link", c.link.toJson)]

structure Draft where
  lineage : Option String
  link : Option Link

def reader : Reader CallerLink :=
  record (⟨none, none⟩ : Draft)
    (fun p key => match key with
      | "lineage" => once p.lineage string fun v => { p with lineage := some v }
      | "link" => once p.link Link.reader fun v => { p with link := some v }
      | _ => .ok none)
    (fun p => do return ⟨← p.lineage, ← p.link⟩)
    (do
      let lineage ← fieldOf true string
      let link ← fieldOf false Link.reader
      return ⟨lineage, link⟩)

end CallerLink

namespace FunctionAnalysis

def toJson (f : FunctionAnalysis) : String :=
  object [("funcName", quote f.funcName), ("struct", quote f.structName),
    ("lineages", Json.list (f.lineages.map CallerLink.toJson))]

structure Draft where
  funcName : Option String
  structName : Option String
  lineages : Option (List CallerLink)

def reader : Reader FunctionAnalysis :=
  record (⟨none, none, none⟩ : Draft)
    (fun p key => match key with
      | "funcName" => once p.funcName string fun v => { p with funcName := some v }
      | "struct" => once p.structName string fun v => { p with structName := some v }
      | "lineages" =>
        once p.lineages (Reader.list CallerLink.reader) fun v => { p with lineages := some v }
      | _ => .ok none)
    (fun p => do return ⟨← p.funcName, ← p.structName, ← p.lineages⟩)
    (do
      let funcName ← fieldOf true string
      let structName ← fieldOf false string
      let lineages ← fieldOf false (Reader.list CallerLink.reader)
      return ⟨funcName, structName, lineages⟩)

end FunctionAnalysis

namespace CodeAnalysis

def toJson (c : CodeAnalysis) : String :=
  object [("functions", Json.list (c.functions.map FunctionAnalysis.toJson))]

def reader : Reader CodeAnalysis :=
  record (none : Option (List FunctionAnalysis))
    (fun p key => match key with
      | "functions" => once p (Reader.list FunctionAnalysis.reader) some
      | _ => .ok none)
    (fun p => p.map CodeAnalysis.mk)
    (do return ⟨← fieldOf true (Reader.list FunctionAnalysis.reader)⟩)

end CodeAnalysis

namespace Declaration

def toJson (d : Declaration) : String :=
  object ([("name", quote d.name), ("function", quote d.function)] ++ optional "receiver" d.receiver ++
    [("file", quote d.file.text), ("line", toString d.line)])

structure Draft where
  name : Option String
  function : Option String
  receiver : Option (Option String)
  file : Option String
  line : Option Nat

def reader : Reader Declaration :=
  record (⟨none, none, none, none, none⟩ : Draft)
    (fun p key => match key with
      | "name" => once p.name string fun v => { p with name := some v }
      | "function" => once p.function string fun v => { p with function := some v }
      | "receiver" => once p.receiver optionalString fun v => { p with receiver := some v }
      | "file" => once p.file string fun v => { p with file := some v }
      | "line" => once p.line natural fun v => { p with line := some v }
      | _ => .ok none)
    (fun p => do return ⟨← p.name, ← p.function, p.receiver.getD none, ⟨← p.file⟩, ← p.line⟩)
    (do
      let name ← fieldOf true string
      let function ← fieldOf false string
      let receiver ← itemOf false optionalString
      let file ← fieldOf false string
      let line ← fieldOf false natural
      return ⟨name, function, receiver.getD none, ⟨file⟩, line⟩)

end Declaration

namespace CallGraph

def toCompactJson (g : CallGraph) : String :=
  object (g.toList.map fun e => (e.1, Json.list (e.2.map quote)))

/-- Reads an object of callers; of a caller that comes twice the last list counts. -/
def reader : Reader CallGraph := do
  if isChar ['\x7b'] (← peek) then
    drop
    let m ← members
      (fun (m : SortedMap (List String)) key =>
        .ok (some (do return m.insert key (← Reader.list string))))
      (← fuel) true .empty
    return ⟨m⟩
  else mismatch

end CallGraph

end CallLineage
