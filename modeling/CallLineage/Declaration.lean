import CallLineage.Path
import CallLineage.SortedMap
/-! Declared functions and methods, and the index of all of them over a set of files.
Names merge over files while every record is kept: `DeclarationIndex.get?` answers the first record of a name, and
`DeclarationIndex.records` holds all of them in the order in which they were found. -/
namespace CallLineage

/-- The name of a function, or `Type.method` for a method of a type. -/
def qualifiedName (receiver : Option String) (function : String) : String :=
  match receiver with
  | some r => r ++ "." ++ function
  | none => function

/-- A function or method of the top level, and where it is declared. -/
structure Declaration where
  name : String
  /-- The name without its receiver. -/
  function : String
  receiver : Option String
  file : Path
  /-- The line of the keyword that opens the declaration, counted from one. -/
  line : Nat
  deriving DecidableEq, Inhabited

namespace Declaration

def of (receiver : Option String) (function : String) (file : Path) (line : Nat) : Declaration :=
  ⟨qualifiedName receiver function, function, receiver, file, line⟩

end Declaration

/-- All records in the order in which they were found, the set of their names, and the position of the first one of each
name. -/
structure DeclarationIndex where
  records : List Declaration
  declared : SortedMap Unit
  first : SortedMap Nat

namespace DeclarationIndex

def empty : DeclarationIndex := ⟨[], .empty, .empty⟩

instance : Inhabited DeclarationIndex := ⟨empty⟩

/-- The declared names, sorted and without repetition. -/
def names (x : DeclarationIndex) : List String := x.declared.keys

def contains (x : DeclarationIndex) (name : String) : Bool := x.declared.contains name

/-- Adds a record, also when its name is known; the flag says whether the name is new. -/
def insertNew (x : DeclarationIndex) (d : Declaration) : DeclarationIndex × Bool :=
  let fresh := !x.contains d.name
  ({ records := x.records ++ [d]
     declared := x.declared.insert d.name ()
     first := if fresh then x.first.insert d.name x.records.length else x.first }, fresh)

def insert (x : DeclarationIndex) (d : Declaration) : DeclarationIndex := (x.insertNew d).1

def extend (x : DeclarationIndex) (ds : List Declaration) : DeclarationIndex :=
  ds.foldl insert x

/-- The first record of a name. -/
def get? (x : DeclarationIndex) (name : String) : Option Declaration :=
  (x.first.get? name).bind fun i => x.records[i]?

def size (x : DeclarationIndex) : Nat := x.records.length

def ofList (ds : List Declaration) : DeclarationIndex := empty.extend ds

end DeclarationIndex

end CallLineage
