import CallLineage.Go.Grammar.File
import CallLineage.Failure
/-! Well-formed source files: texts together with trees that hold no fault. -/
namespace CallLineage.Go

structure Source where
  path : Path
  text : String
  tree : Node

namespace Source

/-- Parses a text; the first fault of its tree, if any, is the failure. -/
def parse (path : Path) (text : String) : Except Failure Source :=
  let tree := sourceTree text
  match tree.firstFault? with
  | some fault => .error (.parse path fault.start)
  | none => .ok ⟨path, text, tree⟩

def escapeCode (c : Char) : String :=
  "\\u\x7b" ++ String.ofList (Nat.toDigits 16 c.toNat) ++ "\x7d"

def showChar (c : Char) : String :=
  if c == '\t' then "\\t"
  else if c == '\n' then "\\n"
  else if c == '\r' then "\\r"
  else if c == '"' then "\\\""
  else if c == '\'' then "\\'"
  else if c == '\\' then "\\\\"
  else if c.toNat == 0 then "\\0"
  else if c.toNat < 0x20 || (0x7f ≤ c.toNat && c.toNat < 0xa0) then escapeCode c
  else c.toString

/-- A line that identifies the file: its path in quotes and the number of its bytes. -/
def summary (s : Source) : String :=
  "ParsedFile \x7b path: \"" ++ String.join (s.path.text.toList.map showChar) ++ "\", bytes: " ++
    toString s.text.utf8ByteSize ++ ", .. \x7d"

end Source

end CallLineage.Go
