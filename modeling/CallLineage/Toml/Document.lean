import CallLineage.Toml.Scalar
/-! Reading TOML documents.
`Toml.parse?` answers the entries of a document, or nothing when the text is none. -/
namespace CallLineage.Toml

abbrev Reader := StateT (List Char) Option

namespace Reader

def here : Reader (Option Char) := fun text => some (text.head?, text)

def rest : Reader (List Char) := fun text => some (text, text)

def drop (n : Nat) : Reader Unit := fun text => some ((), text.drop n)

def blanks : Reader Unit := fun text =>
  some ((), text.dropWhile fun c => c == ' ' || c == '\t')

def char (c : Char) : Reader Unit := fun text => (char? c text).map fun r => ((), r)

def at? (s : String) : Reader Bool := fun text => some (s.toList.isPrefixOf text, text)

/-- Characters that may stand in comments and strings of one line. -/
def isPlain (c : Char) : Bool := c == '\t' || (0x20 ≤ c.toNat && c.toNat != 0x7f)

def comment : Reader Unit := do
  if ← at? "#" then
    fun text =>
      let line := text.takeWhile (· != '\n')
      let line := if line.getLast? == some '\r' && line.length < text.length then line.dropLast else line
      if line.all isPlain then some ((), text.drop line.length) else none

/-- Reads the end of a line, or stands at the end of the text. -/
def lineEnd : Reader Unit := fun text =>
  match text with
  | [] => some ((), [])
  | '\n' :: r => some ((), r)
  | '\r' :: '\n' :: r => some ((), r)
  | _ => none

def space : Nat → Reader Unit
  | 0 => pure ()
  | fuel + 1 => do
    blanks
    comment
    match ← rest with
    | '\n' :: _ => do drop 1; space fuel
    | '\r' :: '\n' :: _ => do drop 2; space fuel
    | _ => pure ()

/-! ## Strings -/

def unicode (n : Nat) : Reader Char := fun text =>
  let ds := text.take n
  let code := numeral 16 ds
  if ds.length == n && ds.all isHexDigit && code.isValidChar then some (Char.ofNat code, text.drop n)
  else none

def escape : Reader Char := do
  match ← here with
  | some c =>
    drop 1
    match c with
    | 'b' => return '\x08'
    | 't' => return '\t'
    | 'n' => return '\n'
    | 'f' => return '\x0c'
    | 'r' => return '\r'
    | '"' => return '"'
    | '\\' => return '\\'
    | 'u' => unicode 4
    | 'U' => unicode 8
    | _ => failure
  | none => failure

def basicTail (acc : List Char) : Nat → Reader String
  | 0 => failure
  | fuel + 1 => do
    match ← here with
    | none => failure
    | some '"' => do drop 1; return String.ofList acc.reverse
    | some '\\' => do
      drop 1
      let c ← escape
      basicTail (c :: acc) fuel
    | some c => do
      if isPlain c then drop 1; basicTail (c :: acc) fuel else failure

def literalTail (acc : List Char) : Nat → Reader String
  | 0 => failure
  | fuel + 1 => do
    match ← here with
    | none => failure
    | some '\'' => do drop 1; return String.ofList acc.reverse
    | some c => do
      if isPlain c then drop 1; literalTail (c :: acc) fuel else failure

def optionalLineEnd : Reader Unit := fun text =>
  match text with
  | '\n' :: r => some ((), r)
  | '\r' :: '\n' :: r => some ((), r)
  | _ => some ((), text)

/-- The text behind a backslash at the end of a line: all blanks and line ends are dropped. -/
def continuation? (text : List Char) : Option (List Char) :=
  let r := text.dropWhile fun c => c == ' ' || c == '\t'
  let isLineEnd := match r with
    | '\n' :: _ => true
    | '\r' :: '\n' :: _ => true
    | _ => false
  if isLineEnd then some (r.dropWhile fun c => c == ' ' || c == '\t' || c == '\n' || c == '\r')
  else none

/-- The number of quotes at the front of a text, five at most. -/
def quotes (q : Char) (text : List Char) : Nat := ((text.take 5).takeWhile (· == q)).length

/-- The rest of a string of several lines; `q` is its quote, and only with escapes is a backslash special. -/
def longTail (q : Char) (escapes : Bool) (acc : List Char) : Nat → Reader String
  | 0 => failure
  | fuel + 1 => do
    let text ← rest
    match text with
    | [] => failure
    | '\n' :: _ => do drop 1; longTail q escapes ('\n' :: acc) fuel
    | '\r' :: '\n' :: _ => do drop 2; longTail q escapes ('\n' :: acc) fuel
    | c :: r =>
      if c == q then
        let n := quotes q text
        drop n
        if 3 ≤ n then return String.ofList (List.replicate (n - 3) q ++ acc).reverse
        else longTail q escapes (List.replicate n q ++ acc) fuel
      else if c == '\\' && escapes then
        match continuation? r with
        | some behind => do set behind; longTail q escapes acc fuel
        | none => do
          drop 1
          let d ← escape
          longTail q escapes (d :: acc) fuel
      else if isPlain c then do drop 1; longTail q escapes (c :: acc) fuel
      else failure

def fuel : Reader Nat := fun text => some (text.length + 1, text)

def shortString : Reader String := do
  match ← here with
  | some '"' => do drop 1; basicTail [] (← fuel)
  | some '\'' => do drop 1; literalTail [] (← fuel)
  | _ => failure

def string : Reader String := do
  if ← at? "\"\"\"" then
    drop 3
    optionalLineEnd
    longTail '"' true [] (← fuel)
  else if ← at? "'''" then
    drop 3
    optionalLineEnd
    longTail '\'' false [] (← fuel)
  else shortString

/-! ## Keys -/

def isBareKeyChar (c : Char) : Bool := c.isAlphanum || c == '_' || c == '-'

def simpleKey : Reader String := fun text =>
  match text.takeWhile isBareKeyChar with
  | [] => shortString text
  | bare => some (String.ofList bare, text.drop bare.length)

/-- A key with its dots: the parts before the last, and the last. -/
def key : Nat → Reader (List String × String)
  | 0 => failure
  | fuel + 1 => do
    blanks
    let first ← simpleKey
    blanks
    if ← at? "." then
      drop 1
      let (path, last) ← key fuel
      return (first :: path, last)
    return ([], first)

/-! ## Values -/

def isScalarChar (c : Char) : Bool :=
  c.isAlphanum || c == '+' || c == '-' || c == '_' || c == '.' || c == ':'

/-- A value without quotes and brackets; one blank may stand between a date and a time. -/
def scalar : Reader Value := fun text =>
  let first := text.takeWhile isScalarChar
  let behind := text.drop first.length
  let whole := match behind with
    | ' ' :: d :: r =>
      if d.isDigit && date? first == some [] then first ++ ' ' :: (d :: r).takeWhile isScalarChar
      else first
    | _ => first
  (scalar? whole).map fun v => (v, text.drop whole.length)

def arrayItems (item : Reader Value) : Nat → Reader (List Value)
  | 0 => failure
  | n + 1 => do
    space (← fuel)
    if ← at? "]" then
      drop 1
      return []
    let v ← item
    space (← fuel)
    if ← at? "," then
      drop 1
      return v :: (← arrayItems item n)
    char ']'
    return [v]

/-- The entries of an inline table after its brace; `more` says whether an entry has to follow. -/
def inlineEntries (item : Reader Value) (es : Entries) (more : Bool) : Nat → Reader Entries
  | 0 => failure
  | n + 1 => do
    blanks
    if (← at? "\x7d") && !more then
      drop 1
      return es
    let (path, last) ← key (← fuel)
    char '='
    blanks
    let v ← item
    blanks
    match addKey path last v .inline es with
    | none => failure
    | some es =>
      if ← at? "," then
        drop 1
        inlineEntries item es true n
      else
        char '\x7d'
        return es

def value : Nat → Reader Value
  | 0 => failure
  | n + 1 => do
    match ← here with
    | some '"' | some '\'' => return .string (← string)
    | some '[' => do
      drop 1
      return .array false (← arrayItems (value n) (← fuel))
    | some '\x7b' => do
      drop 1
      return .table .inline (← inlineEntries (value n) [] false (← fuel))
    | _ => scalar

/-! ## Lines -/

/-- What has been read of a document: its entries, and the table that keys are added to. -/
structure State where
  entries : Entries
  path : List String

def State.add (s : State) (path : List String) (last : String) (v : Value) : Option State :=
  (changeAt false (addKey path last v) s.path .defined s.entries).map fun es => { s with entries := es }

def expression (s : State) : Reader State := do
  if ← at? "[[" then
    drop 2
    let (path, last) ← key (← fuel)
    char ']'
    char ']'
    match openItem path last s.entries with
    | some es => return ⟨es, path ++ [last]⟩
    | none => failure
  else if ← at? "[" then
    drop 1
    let (path, last) ← key (← fuel)
    char ']'
    match openTable path last s.entries with
    | some es => return ⟨es, path ++ [last]⟩
    | none => failure
  else
    let (path, last) ← key (← fuel)
    char '='
    blanks
    let v ← value (← fuel)
    match s.add path last v with
    | some s => return s
    | none => failure

def document (s : State) : Nat → Reader State
  | 0 => failure
  | n + 1 => do
    blanks
    match ← here with
    | none => return s
    | some c =>
      let s ← if c == '#' || c == '\n' || c == '\r' then pure s else expression s
      blanks
      comment
      lineEnd
      document s n

end Reader

def parse? (text : String) : Option Entries :=
  let cs := match text.toList with
    | c :: r => if c.toNat == 0xfeff then r else c :: r
    | [] => []
  (Reader.document ⟨[], []⟩ (cs.length + 1) cs).map fun r => r.1.entries

end CallLineage.Toml
