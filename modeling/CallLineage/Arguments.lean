/-! Command line arguments: options with one or two dashes, positional values, and subcommands.
Arguments are read from left to right, and the first one that asks for help or breaks a rule ends the reading. -/
namespace CallLineage

namespace Arguments

inductive Arity
  /-- Nothing; the option may be given once. -/
  | flag
  /-- A value; the option may be given once. -/
  | single
  /-- A value; the option may be given again. -/
  | many
  deriving DecidableEq

structure OptionRule where
  name : String
  short : Option Char
  arity : Arity
  /-- Which values are allowed. -/
  allows : String → Bool

structure PositionalRule where
  name : String
  required : Bool
  /-- Which values are allowed. -/
  allows : String → Bool

structure CommandRule where
  options : List OptionRule
  positionals : List PositionalRule
  /-- Whether the command tells its version. -/
  version : Bool

inductive Stop
  | help | version | usage
  deriving DecidableEq

/-- Names of options and positionals with their values, in the order in which they were given. -/
abbrev Values := List (String × String)

/-- The value of a name that is given at most once. -/
def Values.get? (vs : Values) (name : String) : Option String := vs.lookup name

def Values.getAll (vs : Values) (name : String) : List String :=
  (vs.filter (·.1 == name)).map (·.2)

def Values.has (vs : Values) (name : String) : Bool := vs.any (·.1 == name)

def addOption (vs : Values) (o : OptionRule) (value : String) : Except Stop Values :=
  if !o.allows value || (o.arity ≠ .many && vs.has o.name) then .error .usage
  else .ok (vs ++ [(o.name, value)])

def addPositional (rule : CommandRule) (vs : Values) (value : String) : Except Stop Values :=
  match rule.positionals.find? fun p => !vs.has p.name with
  | none => .error .usage
  | some p => if p.allows value then .ok (vs ++ [(p.name, value)]) else .error .usage

/-- Whether an argument can be the value of the option before it. -/
def isValue (argument : String) : Bool :=
  argument == "-" || argument.toList.head? != some '-'

/-- An option that waits for its value is given the next argument. -/
def takeNext (vs : Values) (o : OptionRule) : List String → Except Stop (Values × List String)
  | [] => .error .usage
  | a :: rest => do
    if isValue a then return (← addOption vs o a, rest) else .error .usage

/-- Reads an option with two dashes; `body` is what follows them. -/
def readLong (rule : CommandRule) (vs : Values) (body : List Char) (rest : List String) :
    Except Stop (Values × List String) := do
  let name := String.ofList (body.takeWhile (· != '='))
  let attached := match body.dropWhile (· != '=') with
    | _ :: v => some (String.ofList v)
    | [] => none
  match rule.options.find? fun o => o.name == name with
  | some o =>
    match o.arity, attached with
    | .flag, some _ => .error .usage
    | .flag, none => return (← addOption vs o "", rest)
    | _, some v => return (← addOption vs o v, rest)
    | _, none => takeNext vs o rest
  | none =>
    if attached.isSome then .error .usage
    else if name == "help" then .error .help
    else if name == "version" && rule.version then .error .version
    else .error .usage

/-- Reads options with one dash, of which the last may take the rest of the argument as its value. -/
def readShort (rule : CommandRule) (rest : List String) :
    List Char → Values → Except Stop (Values × List String)
  | [], vs => .ok (vs, rest)
  | c :: cs, vs =>
    match rule.options.find? fun o => o.short == some c with
    | some o =>
      if o.arity = .flag then do readShort rule rest cs (← addOption vs o "")
      else
        match cs with
        | [] => takeNext vs o rest
        | '=' :: v => do return (← addOption vs o (String.ofList v), rest)
        | v => do return (← addOption vs o (String.ofList v), rest)
    | none =>
      if c == 'h' then .error .help
      else if c == 'V' && rule.version then .error .version
      else .error .usage

def readOption (rule : CommandRule) (vs : Values) (argument : String) (rest : List String) :
    Except Stop (Values × List String) :=
  match argument.toList with
  | '-' :: '-' :: body => readLong rule vs body rest
  | _ :: body => readShort rule rest body vs
  | [] => .error .usage

def readAll (rule : CommandRule) : Nat → Values → List String → Except Stop Values
  | 0, vs, _ => .ok vs
  | _ + 1, vs, [] => .ok vs
  | fuel + 1, vs, a :: rest =>
    if a == "--" then rest.foldlM (addPositional rule) vs
    else if isValue a then do readAll rule fuel (← addPositional rule vs a) rest
    else do
      let (vs, rest) ← readOption rule vs a rest
      readAll rule fuel vs rest

/-- The values of a command, with every required one. -/
def read (rule : CommandRule) (args : List String) : Except Stop Values := do
  let vs ← readAll rule (args.length + 1) [] args
  if rule.positionals.all fun p => !p.required || vs.has p.name then return vs
  .error .usage

/-- Reads the options in front of a subcommand; answers them, the subcommand and its arguments. -/
def readLeading (rule : CommandRule) :
    Nat → Values → List String → Except Stop (Values × String × List String)
  | 0, _, _ => .error .usage
  | _ + 1, _, [] => .error .usage
  | fuel + 1, vs, a :: rest =>
    if a == "--" then .error .usage
    else if isValue a then .ok (vs, a, rest)
    else do
      let (vs, rest) ← readOption rule vs a rest
      readLeading rule fuel vs rest

def anything (_ : String) : Bool := true

def nonEmpty (value : String) : Bool := !value.isEmpty

/-- A number below 2^64, which a plus may lead. -/
def number? (value : String) : Option Nat :=
  let ds := match value.toList with
    | '+' :: r => r
    | r => r
  let n := ds.foldl (fun n d => n * 10 + (d.toNat - '0'.toNat)) 0
  if !ds.isEmpty && ds.all Char.isDigit && n < UInt64.size then some n else none

end Arguments

end CallLineage
