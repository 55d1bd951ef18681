import CallLineage.Config
/-! The file of ignore rules for all directories.
Git's settings may name it. They stand in the home directory and in the directory for settings, and the first file of
them that names one counts; where none does, the file has a fixed place. A value is looked for line by line, whatever
section the line is in. -/
namespace CallLineage

namespace GitSettings

def isSpace (b : UInt8) : Bool := b == 0x20 || (0x09 ≤ b && b ≤ 0x0d)

def skipSpaces (bs : Bytes) : Bytes := bs.dropWhile isSpace

def endsLine (bs : Bytes) : Bool :=
  (skipSpaces bs).isEmpty || (bs.takeWhile isSpace).contains 0x0a

/-- Whether a value can end here; a quote may stand before the end of the line. -/
def endsValue (bs : Bytes) : Bool :=
  endsLine bs ||
    match skipSpaces bs with
    | b :: r => b == 0x22 && endsLine r
    | [] => false

/-- The shortest value at the head of a text: bytes that are no white space, up to where a value can end. -/
def value? (bs : Bytes) : Option Bytes :=
  let lengths := (List.range (bs.takeWhile (!isSpace ·)).length).map (· + 1)
  (lengths.find? fun n => endsValue (bs.drop n)).map bs.take

/-- The value behind an equals sign. A quote in front belongs to the value only if there is no other. -/
def quotedValue? (bs : Bytes) : Option Bytes :=
  match skipSpaces bs with
  | [] => none
  | b :: r => if b == 0x22 then value? (skipSpaces r) <|> value? (b :: r) else value? (b :: r)

def lower (b : UInt8) : UInt8 := if 0x41 ≤ b && b ≤ 0x5a then b + 0x20 else b

/-- The value of a line that sets the file of ignore rules. -/
def lineValue? (line : Bytes) : Option Bytes :=
  let key := Utf8.encode "excludesfile"
  let text := skipSpaces line
  if (text.take key.length).map lower == key then
    match skipSpaces (text.drop key.length) with
    | b :: r => if b == 0x3d then quotedValue? r else none
    | [] => none
  else none

def linesAfter : Bytes → List Bytes
  | [] => []
  | b :: r => if b == 0x0a then r :: linesAfter r else linesAfter r

def excludesFile? (bs : Bytes) : Option Bytes := (bs :: linesAfter bs).findSome? lineValue?

def home? (env : Config.Environment) : Option Path := (env.lookup "HOME").map Path.mk

/-- The directory for settings; an empty variable counts as none. -/
def settingsHome? (env : Config.Environment) : Option Path :=
  (((env.lookup "XDG_CONFIG_HOME").filter fun dir => !dir.isEmpty).map Path.mk)
    <|> (home? env).map (·.join ⟨".config"⟩)

/-- Git's files of settings, the one that counts first in front. -/
def files (env : Config.Environment) : List Path :=
  ((home? env).map (·.join ⟨".gitconfig"⟩)).toList ++ ((settingsHome? env).map (·.join ⟨"git/config"⟩)).toList

/-- A value as a path, with the home directory for every `~`. -/
def expand (env : Config.Environment) (value : String) : Path :=
  match home? env with
  | some home => ⟨String.ofList (value.toList.flatMap fun c => if c == '~' then home.text.toList else [c])⟩
  | none => ⟨value⟩

def namedIn? (t : FileTree) (env : Config.Environment) (file : Path) : Option Path := do
  let bytes ← (t.read file).toOption
  let value ← Utf8.decode? (← excludesFile? bytes)
  return expand env value

end GitSettings

/-- The file of ignore rules for all directories. -/
def globalIgnore? (t : FileTree) (env : Config.Environment) : Option Path :=
  (GitSettings.files env).findSome? (GitSettings.namedIn? t env)
    <|> (GitSettings.settingsHome? env).map (·.join ⟨"git/ignore"⟩)

end CallLineage
