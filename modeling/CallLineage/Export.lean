import CallLineage.CallGraph
import CallLineage.Json.Quoted
/-! The three texts a call graph is written as: plain lines, a JSON object, and a drawing in DOT. -/
namespace CallLineage

inductive ExportFormat
  | text | json | dot
  deriving DecidableEq, Inhabited

namespace ExportFormat

/-- The format of a name in any case; an unknown name is told back in lower case. -/
def ofName (name : String) : Except String ExportFormat :=
  match name.toLower with
  | "text" | "txt" => .ok .text
  | "json" => .ok .json
  | "dot" | "graphviz" => .ok .dot
  | other => .error ("unknown format '" ++ other ++ "' (expected text, json, or dot)")

end ExportFormat

namespace CallGraph

/-- One block for each caller: a heading, then a line for each callee. -/
def toText (g : CallGraph) : String :=
  String.join (g.toList.map fun e =>
    e.1 ++ " calls:\n" ++ String.join (e.2.map fun callee => "  - " ++ callee ++ "\n"))

/-- Items in brackets, each on a line of its own; nothing stands between the brackets of none. -/
def bracketed (opening closing indent : String) (items : List String) : String :=
  if items.isEmpty then opening ++ closing
  else
    opening ++ "\n" ++ String.intercalate ",\n" (items.map fun i => indent ++ "  " ++ i) ++ "\n" ++
      indent ++ closing

/-- An object with callers as keys and lists of callees as values, and a line end. -/
def toJson (g : CallGraph) : String :=
  bracketed "\x7b" "\x7d" "" (g.toList.map fun e =>
    Json.quote e.1 ++ ": " ++ bracketed "[" "]" "  " (e.2.map Json.quote)) ++ "\n"

def replaceChar (s : String) (c : Char) (text : String) : String :=
  String.join (s.toList.map fun d => if d == c then text else d.toString)

/-- A name between the quotes of a drawing. Backslashes are doubled before quotes are given theirs. -/
def escapeDot (s : String) : String :=
  replaceChar (replaceChar s '\\' "\\\\") '"' "\\\""

def dotHeader : String :=
  "digraph CallGraph \x7b\n" ++
  "  rankdir=TB;\n" ++
  "  node [shape=box, style=\"rounded,filled\", fillcolor=\"#ffffff\", fontname=\"Courier\", fontsize=10];\n" ++
  "  edge [arrowhead=vee, arrowsize=0.8];\n" ++
  "\n"

/-- The node of a caller; methods are boxes and functions are ellipses. -/
def dotNode (caller : String) : String :=
  "  \"" ++ escapeDot caller ++ "\" [shape=" ++ (if caller.contains '.' then "box" else "ellipse") ++ "];\n"

def dotEdge (caller callee : String) : String :=
  "  \"" ++ escapeDot caller ++ "\" -> \"" ++ escapeDot callee ++ "\";\n"

def toDot (g : CallGraph) : String :=
  dotHeader ++ String.join (g.toList.map fun e => dotNode e.1) ++ "\n" ++
    String.join (g.toList.map fun e => String.join (e.2.map (dotEdge e.1))) ++ "\x7d\n"

def render (g : CallGraph) : ExportFormat → String
  | .text => g.toText
  | .json => g.toJson
  | .dot => g.toDot

end CallGraph

end CallLineage
