import CallLineage.Discovery
import CallLineage.Toml.Document
/-! Settings: a file in TOML, overridden by variables of the environment, with defaults for what neither gives. -/
namespace CallLineage

structure Config where
  discovery : DiscoveryConfig
  /-- The name of the format a graph is written in. -/
  format : String
  deriving DecidableEq

namespace Config

def standard : Config := ⟨.standard, "text"⟩

instance : Inhabited Config := ⟨standard⟩

inductive Failure
  | unreadable (file : Path)
  | invalid (file : Path)
  | emptySourceSuffix
  deriving DecidableEq

namespace Failure

def message : Failure → String
  | unreadable file => "failed to read config " ++ file.text
  | invalid file => "invalid config " ++ file.text
  | emptySourceSuffix => "discovery.source_suffix must not be empty"

end Failure

open Toml (Value Entries)

/-! ## Settings in a document -/

def stringOf? : Value → Option String
  | .string s => some s
  | _ => none

def boolOf? : Value → Option Bool
  | .boolean b => some b
  | _ => none

def stringsOf? : Value → Option (List String)
  | .array _ items => items.mapM stringOf?
  | _ => none

/-- The fields of a group of settings: a table gives them by name and an array in order. A time holds none of
them. -/
def fields? (names : List String) : Value → Option Entries
  | .table _ es => some es
  | .array _ items => some (names.zip items)
  | .datetime => some []
  | _ => none

/-- A setting that keeps its default when the document does not give it. -/
def setting {α : Type} (es : Entries) (name : String) (read : Value → Option α) (default : α) :
    Option α :=
  match es.get? name with
  | none => some default
  | some v => read v

def discoveryFields : List String :=
  ["source_suffix", "test_suffix", "respect_gitignore", "include", "exclude"]

def discoveryOf? (v : Value) : Option DiscoveryConfig := do
  let es ← fields? discoveryFields v
  let standard := DiscoveryConfig.standard
  return ⟨← setting es "source_suffix" stringOf? standard.sourceSuffix,
    ← setting es "test_suffix" stringOf? standard.testSuffix,
    ← setting es "respect_gitignore" boolOf? standard.respectGitignore,
    ← setting es "include" stringsOf? standard.includes,
    ← setting es "exclude" stringsOf? standard.excludes⟩

def formatOf? (v : Value) : Option String := do
  let es ← fields? ["format"] v
  setting es "format" stringOf? standard.format

def ofText? (text : String) : Option Config := do
  let es ← Toml.parse? text
  return ⟨← setting es "discovery" discoveryOf? .standard, ← setting es "output" formatOf? standard.format⟩

/-! ## Overrides -/

abbrev Environment := List (String × String)

/-- Takes the settings that variables give; a truth value that is not spelled exactly is passed over. -/
def override (env : Environment) (c : Config) : Config where
  discovery :=
    { c.discovery with
      sourceSuffix := (env.lookup "LINEAGE_SOURCE_SUFFIX").getD c.discovery.sourceSuffix
      testSuffix := (env.lookup "LINEAGE_TEST_SUFFIX").getD c.discovery.testSuffix
      respectGitignore :=
        match env.lookup "LINEAGE_RESPECT_GITIGNORE" with
        | some "true" => true
        | some "false" => false
        | _ => c.discovery.respectGitignore }
  format := (env.lookup "LINEAGE_OUTPUT_FORMAT").getD c.format

def finish (env : Environment) (c : Config) : Except Failure Config :=
  let c := c.override env
  if c.discovery.sourceSuffix.isEmpty then .error .emptySourceSuffix else .ok c

def loadFile (t : FileTree) (env : Environment) (file : Path) : Except Failure Config :=
  match t.readText file with
  | .error _ => .error (.unreadable file)
  | .ok text =>
    match ofText? text with
    | none => .error (.invalid file)
    | some c => finish env c

def fileOf (root : Path) : Path := (root.join ⟨".lineage"⟩).join ⟨"config.toml"⟩

/-- Loads the settings of a directory, the defaults when it has no file of them. -/
def load (t : FileTree) (env : Environment) (root : Path) : Except Failure Config :=
  if t.exists? (fileOf root) then loadFile t env (fileOf root) else finish env standard

end Config

end CallLineage
