import CallLineage.Path
import CallLineage.Utf8
/-! A tree of directories, files and symbolic links, and the current directory in it.
Paths are looked up the way a system does: part by part, following links, and with its reasons for failing. -/
namespace CallLineage

inductive FileError
  | notFound | notDirectory | isDirectory | tooManyLinks | notText
  deriving DecidableEq, Inhabited

namespace FileError

def message : FileError → String
  | notFound => "No such file or directory (os error 2)"
  | notDirectory => "Not a directory (os error 20)"
  | isDirectory => "Is a directory (os error 21)"
  | tooManyLinks => "Too many levels of symbolic links (os error 40)"
  | notText => "stream did not contain valid UTF-8"

end FileError

inductive Entry
  | dir (entries : List (String × Entry))
  | file (bytes : Bytes)
  | link (target : Path)
  deriving Inhabited

namespace Entry

def isDir : Entry → Bool
  | dir _ => true
  | _ => false

def isFile : Entry → Bool
  | file _ => true
  | _ => false

/-- The entries of a directory; anything else has none. -/
def entries : Entry → List (String × Entry)
  | dir es => es
  | _ => []

def child? (e : Entry) (name : String) : Option Entry := e.entries.lookup name

/-- Puts an entry in place of the one of its name, or adds it. -/
def setChild (es : List (String × Entry)) (name : String) (e : Entry) : List (String × Entry) :=
  if es.any (·.1 == name) then es.map fun x => if x.1 == name then (name, e) else x
  else es ++ [(name, e)]

/-- Puts an entry at a place below; directories on the way are made, also where something else stood. -/
def set (new : Entry) : List String → Entry → Entry
  | [], _ => new
  | name :: rest, e => dir (setChild e.entries name (set new rest ((e.child? name).getD (dir []))))

def erase : List String → Entry → Entry
  | [], e => e
  | [name], e => dir (e.entries.filter (·.1 != name))
  | name :: rest, e =>
    match e.child? name with
    | some c => dir (setChild e.entries name (erase rest c))
    | none => e

end Entry

/-- A place in the tree: the entries on the way to it, the innermost first, and the top. -/
structure Place where
  top : Entry
  inner : List (String × Entry)

namespace Place

def entry (p : Place) : Entry :=
  match p.inner with
  | (_, e) :: _ => e
  | [] => p.top

def names (p : Place) : List String := (p.inner.map (·.1)).reverse

/-- Where a walk over components came to: its end, or a link that has to be followed first. -/
inductive Reached
  | place (p : Place)
  | link (directory : Place) (target : Path) (rest : List Component)

/-- Walks over components up to the first link. -/
def advance (p : Place) : List Component → Except FileError Reached
  | [] => .ok (.place p)
  | .root :: rest => advance ⟨p.top, []⟩ rest
  | .here :: rest => if p.entry.isDir then advance p rest else .error .notDirectory
  | .parent :: rest =>
    if p.entry.isDir then advance ⟨p.top, p.inner.tail⟩ rest else .error .notDirectory
  | .name n :: rest =>
    if !p.entry.isDir then .error .notDirectory
    else
      match p.entry.child? n with
      | none => .error .notFound
      | some (.link target) => .ok (.link p target rest)
      | some e => advance ⟨p.top, (n, e) :: p.inner⟩ rest

/-- Walks over components and follows at most `links` links. -/
def follow : Nat → Place → List Component → Except FileError Place
  | 0, _, _ => .error .tooManyLinks
  | links + 1, p, cs => do
    match ← p.advance cs with
    | .place q => return q
    | .link q target rest =>
      if target.text.isEmpty then .error .notFound
      else follow links q (target.components ++ rest)

end Place

structure FileTree where
  top : Entry
  current : Path

namespace FileTree

/-- How many links one look-up follows. -/
def maxLinks : Nat := 41

/-- Whether a path can only mean a directory. -/
def wantsDir (p : Path) : Bool :=
  match (Path.segments p.text.toList).reverse with
  | last :: _ :: _ => last == [] || last == ['.']
  | _ => false

def absolute (t : FileTree) (p : Path) : List Component := (t.current.join p).components

def find (t : FileTree) (p : Path) : Except FileError Place := do
  if p.text.isEmpty then .error .notFound
  let place ← Place.follow maxLinks ⟨t.top, []⟩ (t.absolute p)
  if wantsDir p && !place.entry.isDir then .error .notDirectory
  return place

def find? (t : FileTree) (p : Path) : Option Place := (t.find p).toOption

def exists? (t : FileTree) (p : Path) : Bool := (t.find? p).isSome

def isFile (t : FileTree) (p : Path) : Bool := (t.find? p).any fun q => q.entry.isFile

def isDir (t : FileTree) (p : Path) : Bool := (t.find? p).any fun q => q.entry.isDir

/-- The path from the top that leads to a place without links. -/
def pathOf (names : List String) : Path := ⟨"/" ++ String.intercalate "/" names⟩

def canonical (t : FileTree) (p : Path) : Except FileError Path := do
  return pathOf (← t.find p).names

def read (t : FileTree) (p : Path) : Except FileError Bytes := do
  match (← t.find p).entry with
  | .file bytes => return bytes
  | _ => .error .isDirectory

def readText (t : FileTree) (p : Path) : Except FileError String := do
  match Utf8.decode? (← t.read p) with
  | some s => return s
  | none => .error .notText

/-- The places of the names in a list of components. -/
def namesOf (cs : List Component) : List String :=
  cs.filterMap fun c => match c with
    | .name n => some n
    | _ => none

/-- The directory in which the last name of a path stands, with links on the way followed, and that name. -/
def lastName (t : FileTree) (p : Path) : Except FileError (Place × String) := do
  match p.fileName?, p.parent? with
  | some name, some parent =>
    let directory ← Place.follow maxLinks ⟨t.top, []⟩ (t.absolute parent)
    if directory.entry.isDir then return (directory, name) else .error .notDirectory
  | _, _ => .error .notFound

/-- Where a missing file is made: under the last name of its path, or where a link of that name leads. -/
def newPlace (t : FileTree) : Nat → Path → Except FileError (List String)
  | 0, _ => .error .tooManyLinks
  | links + 1, p => do
    if wantsDir p then .error .isDirectory
    let (directory, name) ← t.lastName p
    match directory.entry.child? name with
    | some (.link target) => newPlace t links ((pathOf directory.names).join target)
    | _ => return directory.names ++ [name]

/-- Writes a file, over an old one or as a new one in an existing directory. -/
def write (t : FileTree) (p : Path) (bytes : Bytes) : Except FileError FileTree := do
  match t.find p with
  | .ok place =>
    match place.entry with
    | .file _ => return { t with top := Entry.set (.file bytes) place.names t.top }
    | _ => .error .isDirectory
  | .error .notFound => return { t with top := Entry.set (.file bytes) (← t.newPlace maxLinks p) t.top }
  | .error e => .error e

/-- The names of a path, with links on the way to its last part followed as far as they lead somewhere. -/
def settle (t : FileTree) (p : Path) : List String :=
  match t.lastName p with
  | .ok (directory, name) => directory.names ++ [name]
  | .error _ => namesOf (t.absolute p)

/-- Puts an entry at a path and makes the directories it needs. -/
def put (t : FileTree) (p : Path) (e : Entry) : FileTree :=
  { t with top := Entry.set e (t.settle p) t.top }

/-- Puts a directory at a path unless one is there. -/
def makeDir (t : FileTree) (p : Path) : FileTree :=
  if t.isDir p then t else t.put p (.dir [])

def remove (t : FileTree) (p : Path) : FileTree :=
  { t with top := Entry.erase (t.settle p) t.top }

end FileTree

end CallLineage
