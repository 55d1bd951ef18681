/-! Values of TOML documents, and the rules by which keys and headers build tables.
A table remembers how it came about, because that decides whether later keys and headers may still add to it. -/
namespace CallLineage.Toml

inductive Shape
  /-- By a header of its own, or as the document itself. -/
  | defined
  /-- On the way to the table of a header. -/
  | implied
  /-- By a key with dots. -/
  | dotted
  /-- Between braces. -/
  | inline
  deriving DecidableEq

/-- A value of a document. Numbers and times are kept only as kinds. -/
inductive Value
  | string (s : String)
  | integer
  | float
  | boolean (b : Bool)
  | datetime
  /-- A list; `tables` marks one that headers in double brackets build. -/
  | array (tables : Bool) (items : List Value)
  | table (shape : Shape) (entries : List (String × Value))
  deriving Inhabited

abbrev Entries := List (String × Value)

namespace Entries

def get? (es : Entries) (key : String) : Option Value := es.lookup key

def set (es : Entries) (key : String) (v : Value) : Entries :=
  if es.any (·.1 == key) then es.map fun e => if e.1 == key then (key, v) else e
  else es ++ [(key, v)]

end Entries

/-- Changes the last item of a list that headers build. -/
def changeLast (f : Value → Option Value) : List Value → Option (List Value)
  | [] => none
  | [v] => (f v).map fun w => [w]
  | v :: vs => (changeLast f vs).map (v :: ·)

/-- Changes the entries of a table that a header or a key with dots may pass through. -/
def intoTable (dots : Bool) (f : Shape → Entries → Option Entries) : Value → Option Value
  | .table shape es =>
    if shape = .inline || (dots && shape = .defined) then none
    else (f shape es).map (.table shape)
  | _ => none

/-- Changes the table that a path leads to; tables that are missing on the way are made. -/
def changeAt (dots : Bool) (f : Shape → Entries → Option Entries) :
    List String → Shape → Entries → Option Entries
  | [], shape, es => f shape es
  | key :: path, _, es =>
    let step := changeAt dots f path
    match es.get? key with
    | none =>
      let shape := if dots then Shape.dotted else .implied
      (step shape []).map fun inner => es.set key (.table shape inner)
    | some (.array true items) =>
      (changeLast (intoTable dots step) items).map fun inner => es.set key (.array true inner)
    | some v => (intoTable dots step v).map fun w => es.set key w

/-- Adds a key and its value to a table; `path` holds the parts of the key before its last dot. -/
def addKey (path : List String) (key : String) (v : Value) (shape : Shape) (es : Entries) :
    Option Entries :=
  changeAt true
    (fun inner entries =>
      if (!path.isEmpty && inner ≠ .dotted) || (entries.get? key).isSome then none
      else some (entries.set key v))
    path shape es

def openTable (path : List String) (key : String) (es : Entries) : Option Entries :=
  changeAt false
    (fun _ entries =>
      match entries.get? key with
      | none => some (entries.set key (.table .defined []))
      | some (.table .implied inner) => some (entries.set key (.table .defined inner))
      | some _ => none)
    path .defined es

def openItem (path : List String) (key : String) (es : Entries) : Option Entries :=
  changeAt false
    (fun _ entries =>
      match entries.get? key with
      | none => some (entries.set key (.array true [.table .defined []]))
      | some (.array true items) => some (entries.set key (.array true (items ++ [.table .defined []])))
      | some _ => none)
    path .defined es

end CallLineage.Toml
