import CallLineage.Proofs.Output
/-! The layers that settings come from.
A file of settings, the environment and the options of a run give values for some settings each. The value of a setting
is decided by what the three give for it and by nothing else; lists add up, and of other values the uppermost one counts.
The suffix of sources is checked once file and environment have been read, and options do not change it. -/
namespace CallLineage

open Arguments (Values)

inductive Setting
  | sourceSuffix | testSuffix | respectGitignore | includes | excludes | format

namespace Setting

abbrev Value : Setting → Type
  | sourceSuffix | testSuffix | format => String
  | respectGitignore => Bool
  | includes | excludes => List String

def get (c : Config) : (s : Setting) → s.Value
  | sourceSuffix => c.discovery.sourceSuffix
  | testSuffix => c.discovery.testSuffix
  | respectGitignore => c.discovery.respectGitignore
  | includes => c.discovery.includes
  | excludes => c.discovery.excludes
  | format => c.format

theorem ext {c c' : Config} (h : ∀ s : Setting, s.get c = s.get c') : c = c' := by
  obtain ⟨⟨_, _, _, _, _⟩, _⟩ := c
  obtain ⟨⟨_, _, _, _, _⟩, _⟩ := c'
  cases h sourceSuffix
  cases h testSuffix
  cases h respectGitignore
  cases h includes
  cases h excludes
  cases h format
  rfl

def standard : (s : Setting) → s.Value
  | sourceSuffix => ".go"
  | testSuffix => "_test.go"
  | respectGitignore => true
  | includes | excludes => []
  | format => "text"

/-- The value that a document, the environment and options decide on. -/
def settle : (s : Setting) → (document environment options : Option s.Value) → s.Value
  | includes, document, _, options => document.getD [] ++ options.getD []
  | excludes, document, _, options => document.getD [] ++ options.getD []
  | s, document, environment, options => ((options.or environment).or document).getD s.standard

end Setting

abbrev Layer := (s : Setting) → Option s.Value

namespace Layer

def field? (es : Toml.Entries) (group : String) (names : List String) (name : String) : Option Toml.Value :=
  ((es.get? group).bind (Config.fields? names)).bind fun fields => fields.get? name

def ofDocument (es : Toml.Entries) : Layer
  | .sourceSuffix => (field? es "discovery" Config.discoveryFields "source_suffix").bind Config.stringOf?
  | .testSuffix => (field? es "discovery" Config.discoveryFields "test_suffix").bind Config.stringOf?
  | .respectGitignore => (field? es "discovery" Config.discoveryFields "respect_gitignore").bind Config.boolOf?
  | .includes => (field? es "discovery" Config.discoveryFields "include").bind Config.stringsOf?
  | .excludes => (field? es "discovery" Config.discoveryFields "exclude").bind Config.stringsOf?
  | .format => (field? es "output" ["format"] "format").bind Config.stringOf?

def truth? (value : String) : Option Bool :=
  if value = "true" then some true else if value = "false" then some false else none

def ofEnvironment (env : Config.Environment) : Layer
  | .sourceSuffix => env.lookup "LINEAGE_SOURCE_SUFFIX"
  | .testSuffix => env.lookup "LINEAGE_TEST_SUFFIX"
  | .respectGitignore => (env.lookup "LINEAGE_RESPECT_GITIGNORE").bind truth?
  | .includes | .excludes => none
  | .format => env.lookup "LINEAGE_OUTPUT_FORMAT"

def ofOptions (vs : Values) : Layer
  | .sourceSuffix | .testSuffix => none
  | .respectGitignore => if vs.has "no-gitignore" then some false else none
  | .includes => some (vs.getAll "include")
  | .excludes => some (vs.getAll "exclude")
  | .format => vs.get? "format"

end Layer

def Setting.decided (s : Setting) (es : Toml.Entries) (env : Config.Environment) (vs : Values) : s.Value :=
  s.settle (Layer.ofDocument es s) (Layer.ofEnvironment env s) (Layer.ofOptions vs s)

/-! ## One layer after another -/

namespace Config

theorem eq_of_setting {α : Type} {es : Toml.Entries} {name : String} {read : Toml.Value → Option α} {default v : α}
    (h : setting es name read default = some v) : v = ((es.get? name).bind read).getD default := by
  rw [setting] at h
  split at h
  · rename_i hnone
    rw [hnone]
    exact (Option.some.inj h).symm
  · rename_i u hsome
    rw [hsome, Option.bind_some, h, Option.getD_some]

theorem discovery_of_setting {es : Toml.Entries} {d : DiscoveryConfig}
    (h : setting es "discovery" discoveryOf? .standard = some d) :
    d = ⟨(Layer.ofDocument es .sourceSuffix).getD ".go", (Layer.ofDocument es .testSuffix).getD "_test.go",
      (Layer.ofDocument es .respectGitignore).getD true, (Layer.ofDocument es .includes).getD [],
      (Layer.ofDocument es .excludes).getD []⟩ := by
  rw [setting] at h
  split at h
  · rename_i hnone
    simp only [Layer.ofDocument, Layer.field?, hnone]
    exact (Option.some.inj h).symm
  · rename_i v hsome
    obtain ⟨fields, hfields, h⟩ := Option.bind_eq_some_iff.1 h
    obtain ⟨source, hsource, h⟩ := Option.bind_eq_some_iff.1 h
    obtain ⟨test, htest, h⟩ := Option.bind_eq_some_iff.1 h
    obtain ⟨respect, hrespect, h⟩ := Option.bind_eq_some_iff.1 h
    obtain ⟨includes, hincludes, h⟩ := Option.bind_eq_some_iff.1 h
    obtain ⟨excludes, hexcludes, h⟩ := Option.bind_eq_some_iff.1 h
    cases h
    simp only [Layer.ofDocument, Layer.field?, hsome, Option.bind_some, hfields]
    rw [eq_of_setting hsource, eq_of_setting htest, eq_of_setting hrespect, eq_of_setting hincludes,
      eq_of_setting hexcludes]
    rfl

theorem format_of_setting {es : Toml.Entries} {name : String}
    (h : setting es "output" formatOf? standard.format = some name) :
    name = (Layer.ofDocument es .format).getD "text" := by
  rw [setting] at h
  split at h
  · rename_i hnone
    simp only [Layer.ofDocument, Layer.field?, hnone]
    exact (Option.some.inj h).symm
  · rename_i v hsome
    obtain ⟨fields, hfields, h⟩ := Option.bind_eq_some_iff.1 h
    simp only [Layer.ofDocument, Layer.field?, hsome, Option.bind_some, hfields]
    exact eq_of_setting h

/-- A document that can be read gives its values, and leaves the defaults for the rest. -/
theorem get_of_ofText? {text : String} {es : Toml.Entries} {c : Config} (hes : Toml.parse? text = some es)
    (h : ofText? text = some c) (s : Setting) : s.get c = (Layer.ofDocument es s).getD s.standard := by
  rw [ofText?, hes, Option.bind_eq_bind, Option.bind_some] at h
  obtain ⟨discovery, hdiscovery, h⟩ := Option.bind_eq_some_iff.1 h
  obtain ⟨format, hformat, h⟩ := Option.bind_eq_some_iff.1 h
  cases h
  rw [discovery_of_setting hdiscovery, format_of_setting hformat]
  cases s <;> rfl

theorem get_override (env : Environment) (c : Config) (s : Setting) :
    s.get (c.override env) = (Layer.ofEnvironment env s).getD (s.get c) := by
  cases s with
  | respectGitignore =>
    simp only [Setting.get, override, Layer.ofEnvironment]
    cases env.lookup "LINEAGE_RESPECT_GITIGNORE" with
    | none => rfl
    | some value =>
      rw [Option.bind_some, Layer.truth?]
      split <;> simp_all
  | _ => rfl

theorem get_withOptions (c : Config) (vs : Values) (s : Setting) :
    s.get (CommandLine.withOptions c vs) = s.settle (some (s.get c)) none (Layer.ofOptions vs s) := by
  cases s with
  | respectGitignore =>
    simp only [Setting.get, CommandLine.withOptions, Setting.settle, Layer.ofOptions]
    cases vs.has "no-gitignore" <;> simp
  | format =>
    simp only [Setting.get, CommandLine.withOptions, Setting.settle, Layer.ofOptions]
    cases vs.get? "format" <;> rfl
  | _ => rfl

/-- The three layers, one put over the other, decide on each setting by itself. -/
theorem get_withOptions_override {es : Toml.Entries} {c : Config}
    (h : ∀ s : Setting, s.get c = (Layer.ofDocument es s).getD s.standard) (env : Environment) (vs : Values)
    (s : Setting) : s.get (CommandLine.withOptions (c.override env) vs) = s.decided es env vs := by
  rw [get_withOptions, get_override, h, Setting.decided]
  have hvalues : ∀ {α : Type} (standard : α) (document environment options : Option α),
      ((options.or none).or (some (environment.getD (document.getD standard)))).getD standard =
        ((options.or environment).or document).getD standard := by
    intro α standard document environment options
    cases options <;> cases environment <;> cases document <;> rfl
  cases s with
  | includes => rfl
  | excludes => rfl
  | _ =>
    simp only [Setting.settle]
    exact hvalues ..

/-- A truth value that is not spelled exactly acts as a variable that is not set. -/
theorem override_of_truth?_eq_none {value : String} (h : Layer.truth? value = none) (env : Environment) (c : Config) :
    c.override (("LINEAGE_RESPECT_GITIGNORE", value) :: env) =
      c.override (env.filter fun v => v.1 != "LINEAGE_RESPECT_GITIGNORE") := by
  have hself : List.lookup "LINEAGE_RESPECT_GITIGNORE"
      (env.filter fun v => v.1 != "LINEAGE_RESPECT_GITIGNORE") = none := Values.get?_without_self env _
  have hother : ∀ {name : String}, name ≠ "LINEAGE_RESPECT_GITIGNORE" →
      List.lookup name (env.filter fun v => v.1 != "LINEAGE_RESPECT_GITIGNORE") = env.lookup name :=
    fun hne => Values.get?_without hne
  apply Setting.ext
  intro s
  rw [get_override, get_override]
  congr 1
  cases s with
  | respectGitignore => simp [Layer.ofEnvironment, hself, h]
  | includes => rfl
  | excludes => rfl
  | _ => simp [Layer.ofEnvironment, List.lookup_cons, hother]

theorem finish_eq_ok_iff {env : Environment} {c c' : Config} :
    finish env c = .ok c' ↔ c' = c.override env ∧ c'.discovery.sourceSuffix ≠ "" := by
  simp only [finish, String.isEmpty_iff]
  split <;> grind

theorem sourceSuffix_ne_of_loadFile {t : FileTree} {env : Environment} {file : Path} {c : Config}
    (h : loadFile t env file = .ok c) : c.discovery.sourceSuffix ≠ "" := by
  rw [loadFile] at h
  split at h
  · cases h
  · split at h
    · cases h
    · exact (finish_eq_ok_iff.1 h).2

theorem sourceSuffix_ne_of_load {t : FileTree} {env : Environment} {root : Path} {c : Config}
    (h : load t env root = .ok c) : c.discovery.sourceSuffix ≠ "" := by
  rw [load] at h
  split at h
  · exact sourceSuffix_ne_of_loadFile h
  · exact (finish_eq_ok_iff.1 h).2

end Config

namespace CommandLine

/-! ## Runs -/

/-- The file of settings that a command reads: the one that is named, or that of the directory if there is one. -/
def settingsFile? (w : World) (vs : Values) : Option Path :=
  match vs.get? "config" with
  | some file => some ⟨file⟩
  | none =>
    let dir := dirOf w vs
    let file := Config.fileOf (if w.tree.isFile dir then (dir.parent?).getD dir else dir)
    if w.tree.exists? file then some file else none

/-- The entries of the file of settings, which can be read and has values of the right kinds. There are none if there
is no file. -/
inductive Documented (w : World) (vs : Values) : Toml.Entries → Prop
  | missing (none : settingsFile? w vs = none) : Documented w vs []
  | file {path : Path} {text : String} {es : Toml.Entries} {c : Config} (found : settingsFile? w vs = some path)
      (read : w.tree.readText path = .ok text) (parsed : Toml.parse? text = some es)
      (decoded : Config.ofText? text = some c) : Documented w vs es

def settingsOf (w : World) (vs : Values) : Except String Config := do
  return withOptions (← configOf w vs (dirOf w vs)) vs

def drawnWith (w : World) (vs : Values) (c : Config) : Except String (Analysis × String) := do
  let format ← ExportFormat.ofName c.format
  let a ← analysisOf w (dirOf w vs) c
  return (a, a.graph.render format)

theorem configOf_eq (w : World) (vs : Values) :
    configOf w vs (dirOf w vs) = (match settingsFile? w vs with
      | some file => Config.loadFile w.tree w.env file
      | none => Config.finish w.env .standard).mapError Config.Failure.message := by
  rw [configOf, settingsFile?]
  cases vs.get? "config" with
  | some file => rfl
  | none =>
    simp only [Config.load]
    generalize Config.fileOf _ = file
    cases w.tree.exists? file <;> rfl

theorem Documented.exists_configOf {w : World} {vs : Values} {es : Toml.Entries} (h : Documented w vs es) :
    ∃ c, (∀ s : Setting, s.get c = (Layer.ofDocument es s).getD s.standard) ∧
      configOf w vs (dirOf w vs) = (Config.finish w.env c).mapError Config.Failure.message := by
  rw [configOf_eq]
  cases h with
  | missing hnone =>
    refine ⟨.standard, fun s => ?_, by rw [hnone]⟩
    have hempty : Layer.ofDocument [] s = none := by cases s <;> rfl
    rw [hempty, Option.getD_none]
    cases s <;> rfl
  | @file path text es c hfound hread hparsed hdecoded =>
    refine ⟨c, Config.get_of_ofText? hparsed hdecoded, ?_⟩
    rw [hfound]
    simp only [Config.loadFile, hread, hdecoded]

theorem settingsOf_cases {w : World} {vs : Values} {es : Toml.Entries} (h : Documented w vs es) :
    (Setting.sourceSuffix.decided es w.env vs = "" →
      settingsOf w vs = .error "discovery.source_suffix must not be empty") ∧
    (Setting.sourceSuffix.decided es w.env vs ≠ "" →
      ∃ c, settingsOf w vs = .ok c ∧ ∀ s : Setting, s.get c = s.decided es w.env vs) := by
  obtain ⟨c, hdocument, hconfig⟩ := h.exists_configOf
  have hdecided := Config.get_withOptions_override hdocument w.env vs
  -- Options leave the suffix as it was when it was checked.
  have hsuffix : (c.override w.env).discovery.sourceSuffix = Setting.sourceSuffix.decided es w.env vs :=
    hdecided .sourceSuffix
  constructor
  · intro hempty
    rw [settingsOf, hconfig, Config.finish]
    simp only [hsuffix, hempty]
    rfl
  · intro hne
    refine ⟨withOptions (c.override w.env) vs, ?_, hdecided⟩
    rw [settingsOf, hconfig, Config.finish_eq_ok_iff.2 ⟨rfl, hsuffix ▸ hne⟩]
    rfl

theorem get_of_settingsOf {w : World} {vs : Values} {es : Toml.Entries} {c : Config} (h : Documented w vs es)
    (hc : settingsOf w vs = .ok c) (s : Setting) : s.get c = s.decided es w.env vs := by
  obtain ⟨hempty, hdecided⟩ := settingsOf_cases h
  by_cases hsuffix : Setting.sourceSuffix.decided es w.env vs = ""
  · rw [hempty hsuffix] at hc
    cases hc
  · obtain ⟨c', hc', hget⟩ := hdecided hsuffix
    rw [hc] at hc'
    cases hc'
    exact hget s

theorem eq_ok_of_mapError {ε ε' α : Type} {x : Except ε α} {f : ε → ε'} {a : α} (h : x.mapError f = .ok a) :
    x = .ok a := by
  cases x with
  | error e => cases h
  | ok b =>
    cases h
    rfl

theorem sourceSuffix_ne_of_configOf {w : World} {vs : Values} {dir : Path} {c : Config}
    (h : configOf w vs dir = .ok c) : c.discovery.sourceSuffix ≠ "" := by
  have hloaded := eq_ok_of_mapError h
  split at hloaded
  · exact Config.sourceSuffix_ne_of_loadFile hloaded
  · exact Config.sourceSuffix_ne_of_load hloaded

theorem sourceSuffix_ne_of_serverOf {w : World} {vs : Values} {s : Server} (h : serverOf w vs = .ok s) :
    s.discovery.sourceSuffix ≠ "" := by
  simp only [serverOf] at h
  split at h
  · cases h
  · obtain ⟨c, hc, hs⟩ := Arguments.exists_of_bind_eq_ok h
    cases hs
    have hloaded := eq_ok_of_mapError hc
    split at hloaded
    · exact Config.sourceSuffix_ne_of_loadFile hloaded
    · exact Config.sourceSuffix_ne_of_load hloaded

theorem settingsOf_of_truth?_eq_none {value : String} (h : Layer.truth? value = none) (w : World) (vs : Values) :
    settingsOf { w with env := ("LINEAGE_RESPECT_GITIGNORE", value) :: w.env } vs =
      settingsOf { w with env := w.env.filter fun v => v.1 != "LINEAGE_RESPECT_GITIGNORE" } vs := by
  have hfinish : Config.finish (("LINEAGE_RESPECT_GITIGNORE", value) :: w.env) =
      Config.finish (w.env.filter fun v => v.1 != "LINEAGE_RESPECT_GITIGNORE") := by
    funext c
    rw [Config.finish, Config.finish, Config.override_of_truth?_eq_none h]
  have hload : Config.loadFile w.tree (("LINEAGE_RESPECT_GITIGNORE", value) :: w.env) =
      Config.loadFile w.tree (w.env.filter fun v => v.1 != "LINEAGE_RESPECT_GITIGNORE") := by
    funext file
    rw [Config.loadFile, Config.loadFile, hfinish]
  rw [settingsOf, settingsOf, configOf_eq, configOf_eq]
  simp only [hfinish, hload]
  rfl

theorem run_eq {args : List String} {vs : Values} (w : World) (h : parse args = .ok (.analyze vs)) :
    run w args = Outcome.ofExcept w (settingsOf w vs >>= fun c =>
      drawnWith w vs c >>= fun d => delivered w d (vs.get? "output")) := by
  have hdrawn : drawn w vs = settingsOf w vs >>= drawnWith w vs := by
    simp only [drawn, settingsOf, drawnWith, bind_assoc, pure_bind]
  rw [run_of_parse h, hdrawn, bind_assoc]

/-- Each setting is decided by its layers and by nothing else. Loading fails exactly if the suffix of sources that they
decide on is empty, and then the run fails; otherwise the run goes by what they decide on. No program ever starts with
an empty suffix. Runs whose layers give the same for a setting have the same value for it, and a truth value that is not
spelled exactly is no value at all. -/
theorem settings_by_layers {w : World} {args : List String} {vs : Values} {es : Toml.Entries}
    (hargs : parse args = .ok (.analyze vs)) (hfile : Documented w vs es) :
    (Setting.sourceSuffix.decided es w.env vs = "" →
      settingsOf w vs = .error "discovery.source_suffix must not be empty" ∧
      run w args = Outcome.failed w "discovery.source_suffix must not be empty") ∧
    (Setting.sourceSuffix.decided es w.env vs ≠ "" →
      ∃ c, settingsOf w vs = .ok c ∧ (∀ s : Setting, s.get c = s.decided es w.env vs) ∧
        run w args = Outcome.ofExcept w (drawnWith w vs c >>= fun d => delivered w d (vs.get? "output"))) ∧
    ((∀ vs dir c, configOf w vs dir = .ok c → c.discovery.sourceSuffix ≠ "") ∧
      ∀ vs s, serverOf w vs = .ok s → s.discovery.sourceSuffix ≠ "") ∧
    (∀ w' vs' es' c c', Documented w' vs' es' → settingsOf w vs = .ok c → settingsOf w' vs' = .ok c' →
      ∀ s : Setting, Layer.ofDocument es s = Layer.ofDocument es' s →
        Layer.ofEnvironment w.env s = Layer.ofEnvironment w'.env s → Layer.ofOptions vs s = Layer.ofOptions vs' s →
        s.get c = s.get c') ∧
    ∀ value, Layer.truth? value = none →
      settingsOf { w with env := ("LINEAGE_RESPECT_GITIGNORE", value) :: w.env } vs =
        settingsOf { w with env := w.env.filter fun v => v.1 != "LINEAGE_RESPECT_GITIGNORE" } vs := by
  obtain ⟨hempty, hdecided⟩ := settingsOf_cases hfile
  refine ⟨fun h => ⟨hempty h, ?_⟩, fun h => ?_,
    ⟨fun _ _ _ => sourceSuffix_ne_of_configOf, fun _ _ => sourceSuffix_ne_of_serverOf⟩, ?_,
    fun value hvalue => settingsOf_of_truth?_eq_none hvalue w vs⟩
  · rw [run_eq w hargs, hempty h]
    rfl
  · obtain ⟨c, hc, hget⟩ := hdecided h
    refine ⟨c, hc, hget, ?_⟩
    rw [run_eq w hargs, hc]
    rfl
  · intro w' vs' es' c c' hfile' hc hc' s hdocument henvironment hoptions
    rw [get_of_settingsOf hfile hc, get_of_settingsOf hfile' hc', Setting.decided, Setting.decided, hdocument,
      henvironment, hoptions]

def allSettings : String :=
  "[discovery]\nsource_suffix = \"\"\ntest_suffix = \"_spec.go\"\nrespect_gitignore = false\n" ++
    "include = [\"a.go\"]\nexclude = [\"b.go\"]\n[output]\nformat = \"json\"\n"

def configured (env : Config.Environment) : World :=
  ⟨⟨.dir [(".lineage", .dir [("config.toml", .file (Utf8.encode allSettings))])], ⟨"/"⟩⟩, env, []⟩

theorem exists_documented_configured (env : Config.Environment) (vs : Values) (hnamed : vs.get? "config" = none)
    (hdir : vs.get? "dir" = none) : ∃ es, Documented (configured env) vs es ∧
      Layer.ofDocument es .sourceSuffix = some "" ∧ Layer.ofDocument es .testSuffix = some "_spec.go" ∧
      Layer.ofDocument es .respectGitignore = some false ∧ Layer.ofDocument es .includes = some ["a.go"] ∧
      Layer.ofDocument es .excludes = some ["b.go"] ∧ Layer.ofDocument es .format = some "json" := by
  have hfile : settingsFile? (configured env) vs = some ⟨"/.lineage/config.toml"⟩ := by
    have hcurrent : settingsFile? (configured []) [] = some ⟨"/.lineage/config.toml"⟩ := by decide +kernel
    rw [settingsFile?, hnamed, dirOf, hdir]
    exact hcurrent
  have hread : (configured []).tree.readText ⟨"/.lineage/config.toml"⟩ = .ok allSettings := by
    have htext : ((configured []).tree.readText ⟨"/.lineage/config.toml"⟩).toOption = some allSettings := by
      decide +kernel
    cases h : (configured []).tree.readText ⟨"/.lineage/config.toml"⟩ with
    | error e =>
      rw [h] at htext
      cases htext
    | ok text =>
      rw [h] at htext
      exact congrArg Except.ok (Option.some.inj htext)
  have hdecoded : (Config.ofText? allSettings).isSome = true := by decide +kernel
  have hlayer : (Toml.parse? allSettings).any (fun es =>
      Layer.ofDocument es .sourceSuffix = some "" ∧ Layer.ofDocument es .testSuffix = some "_spec.go" ∧
      Layer.ofDocument es .respectGitignore = some false ∧ Layer.ofDocument es .includes = some ["a.go"] ∧
      Layer.ofDocument es .excludes = some ["b.go"] ∧ Layer.ofDocument es .format = some "json") = true := by
    decide +kernel
  obtain ⟨c, hc⟩ := Option.isSome_iff_exists.1 hdecoded
  obtain ⟨es, hes, hvalues⟩ := (Option.any_eq_true _ _).1 hlayer
  exact ⟨es, .file hfile hread hes hc, of_decide_eq_true hvalues⟩

/-- An environment that repairs the suffix and gives a truth value in a wrong spelling. -/
def repairing : Config.Environment :=
  [("LINEAGE_SOURCE_SUFFIX", ".go"), ("LINEAGE_RESPECT_GITIGNORE", "yes"), ("LINEAGE_OUTPUT_FORMAT", "dot")]

def givenOptions : Values := [("exclude", "c.go"), ("format", "text")]

theorem settings_by_layers_configured :
    parse ["analyze", "--exclude", "c.go", "-f", "text"] = .ok (.analyze givenOptions) ∧
    settingsOf (configured repairing) givenOptions =
      .ok ⟨⟨".go", "_spec.go", false, ["a.go"], ["b.go", "c.go"]⟩, "text"⟩ ∧
    run (configured []) ["analyze", "--exclude", "c.go", "-f", "text"] =
      Outcome.failed (configured []) "discovery.source_suffix must not be empty" := by
  have hargs : parse ["analyze", "--exclude", "c.go", "-f", "text"] =
      .ok (.analyze givenOptions) := rfl
  refine ⟨hargs, ?_, ?_⟩
  · obtain ⟨es, hfile, hsource, htest, hrespect, hincludes, hexcludes, hformat⟩ :=
      exists_documented_configured repairing givenOptions rfl rfl
    have hne : Setting.sourceSuffix.decided es repairing givenOptions ≠ "" := by
      rw [Setting.decided, hsource]
      decide
    obtain ⟨c, hc, hget, -⟩ := (settings_by_layers hargs hfile).2.1 hne
    have heq : c = ⟨⟨".go", "_spec.go", false, ["a.go"], ["b.go", "c.go"]⟩, "text"⟩ := by
      refine Setting.ext fun s => (hget s).trans ?_
      cases s <;> simp only [Setting.decided, hsource, htest, hrespect, hincludes, hexcludes, hformat] <;> decide
    rw [hc, heq]
  · obtain ⟨es, hfile, hsource, -⟩ :=
      exists_documented_configured [] givenOptions rfl rfl
    refine ((settings_by_layers hargs hfile).1 ?_).2
    rw [Setting.decided, hsource]
    decide

end CommandLine

end CallLineage
