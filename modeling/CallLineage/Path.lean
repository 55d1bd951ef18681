/-! Paths as texts with `/` between their parts.
A path keeps the text it was made from; comparison, matching and parents go by its components, in which repeated
and trailing separators and inner `.` parts do not count. -/
namespace CallLineage

/-- A path, kept as it was written. -/
structure Path where
  text : String
  deriving DecidableEq, Inhabited

/-- A part of a path. The order of the constructors is the order of the parts. -/
inductive Component
  | root | here | parent
  | name (text : String)
  deriving DecidableEq, Inhabited

namespace Component

def rank : Component → Nat
  | root => 0
  | here => 1
  | parent => 2
  | name _ => 3

def compare : Component → Component → Ordering
  | name a, name b => Ord.compare a b
  | a, b => Ord.compare a.rank b.rank

end Component

namespace Path

def segments : List Char → List (List Char)
  | [] => [[]]
  | c :: r =>
    if c == '/' then [] :: segments r
    else
      match segments r with
      | [] => [[c]]
      | s :: rest => (c :: s) :: rest

def isAbsolute (p : Path) : Bool := p.text.toList.head? == some '/'

/-- The component a segment stands for; `first` marks the head of a relative path. -/
def componentOf (first : Bool) (segment : List Char) : Option Component :=
  if segment == [] then none
  else if segment == ['.'] then (if first then some .here else none)
  else if segment == ['.', '.'] then some .parent
  else some (.name (String.ofList segment))

def components (p : Path) : List Component :=
  let segs := segments p.text.toList
  if p.isAbsolute then .root :: segs.filterMap (componentOf false)
  else (segs.take 1).filterMap (componentOf true) ++ (segs.drop 1).filterMap (componentOf false)

def same (p q : Path) : Bool := p.components == q.components

def compareComponents : List Component → List Component → Ordering
  | [], [] => .eq
  | [], _ :: _ => .lt
  | _ :: _, [] => .gt
  | a :: as, b :: bs => (a.compare b).then (compareComponents as bs)

def compare (p q : Path) : Ordering := compareComponents p.components q.components

/-- The last component, if it is a name. -/
def fileName? (p : Path) : Option String :=
  match p.components.getLast? with
  | some (.name s) => some s
  | _ => none

/-- What follows the last dot of the file name, unless the name begins with that dot. -/
def extension? (p : Path) : Option String :=
  p.fileName?.bind fun s =>
    let back := s.toList.reverse
    let tail := back.takeWhile (· != '.')
    if tail.length + 1 < back.length then some (String.ofList tail.reverse) else none

def below? (base p : Path) : Option (List Component) :=
  if base.components.isPrefixOf p.components then some (p.components.drop base.components.length)
  else none

/-- `p` seen from `base`; an absolute `p` stands for itself. -/
def join (base p : Path) : Path :=
  if p.isAbsolute then p
  else
    match base.text.toList.getLast? with
    | none => p
    | some c => if c == '/' then ⟨base.text ++ p.text⟩ else ⟨base.text ++ "/" ++ p.text⟩

def descend (p : Path) : List String → Path
  | [] => p
  | names => p.join ⟨String.intercalate "/" names⟩

def counts (segment : List Char) : Bool := (componentOf false segment).isSome

/-- The path without its last component; a root and the empty path have none. -/
def parent? (p : Path) : Option Path :=
  let render (segs : List (List Char)) : String :=
    String.ofList (List.intercalate ['/'] segs)
  let keep := fun (segs : List (List Char)) => (segs.reverse.dropWhile fun s => !counts s)
  if p.isAbsolute then
    match keep (segments p.text.toList).tail with
    | [] => none
    | _ :: up => some ⟨"/" ++ render (up.dropWhile fun s => !counts s).reverse⟩
  else
    match segments p.text.toList with
    | [] => none
    | first :: rest =>
      match keep rest with
      | _ :: up => some ⟨render (first :: (up.dropWhile fun s => !counts s).reverse)⟩
      | [] => if first == [] then none else some ⟨""⟩

end Path

end CallLineage
