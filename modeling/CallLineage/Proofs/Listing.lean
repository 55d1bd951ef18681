import CallLineage.Response
import CallLineage.Proofs.Assembly
import CallLineage.Proofs.Go.Lines
import CallLineage.Proofs.Walk
/-! The functions of a directory, listed at once and file by file.
Files are found in the order of their paths and declarations in the order of their lines, so the two sorts of a listing
leave the records as they were found; and the path of a file selects the records of that file and no others. -/
namespace CallLineage

/-! ## Paths below a base -/

namespace Path

theorem components_of_isAbsolute {p : Path} (h : p.isAbsolute = true) :
    ∃ cs, p.components = .root :: cs := by
  simp only [components, h, if_true]
  exact ⟨_, rfl⟩

theorem isAbsolute_parent? {p q : Path} (h : p.isAbsolute = true) (hq : p.parent? = some q) :
    q.isAbsolute = true := by
  simp only [parent?, h, if_true] at hq
  split at hq
  · cases hq
  · cases hq
    simp [isAbsolute]

/-- A relative path is not below a root: it is taken as it stands. -/
theorem below?_relative {base p : Path} (hb : base.isAbsolute = true ∨ base = ⟨""⟩) (hp : p.isAbsolute = false) :
    (base.below? p).getD p.components = p.components := by
  rcases hb with hb | rfl
  · have hnot : ¬base.components <+: p.components := by
      intro hprefix
      obtain ⟨cs, hcs⟩ := components_of_isAbsolute hb
      have hmem : Component.root ∈ p.lead ++ p.parts := by
        rw [← components_eq]
        exact hprefix.subset (hcs ▸ List.mem_cons_self)
      rcases List.mem_append.1 hmem with hlead | hparts
      · by_cases hhere : (segments p.text.toList).head? = some ['.'] <;> simp [lead, hp, hhere] at hlead
      · rcases cases_of_mem_parts hparts with heq | ⟨_, heq⟩ <;> cases heq
    simp [below?, hnot]
  · rfl

end Path

theorem SourceWalk.base_of_prepare {t : FileTree} {root : Path} {c : DiscoveryConfig} {w : SourceWalk}
    (hroot : root.isAbsolute = true) (h : prepare t root c = .ok w) :
    w.base.isAbsolute = true ∨ w.base = ⟨""⟩ := by
  obtain ⟨-, -, -, hbase⟩ := of_prepare h
  rw [hbase]
  split
  · cases hp : root.parent? with
    | none => exact .inr rfl
    | some q => exact .inl (Path.isAbsolute_parent? hroot hp)
  · exact .inl hroot

namespace Go.Source

/-- A declaration has the qualified name of its function, and names its file. -/
theorem eq_of_mem_declarations {s : Source} {d : Declaration} (hd : d ∈ s.declarations) :
    d = .of d.receiver d.function s.path d.line := by
  obtain ⟨n, hn, rfl⟩ := List.mem_map.1 hd
  obtain ⟨m, -, hm⟩ := List.mem_filterMap.1 hn
  obtain ⟨receiver, -, hm⟩ := Option.bind_eq_some_iff.1 hm
  obtain ⟨name, -, hm⟩ := Option.bind_eq_some_iff.1 hm
  cases hm
  rfl

/-- Declarations name their file, in the order of their lines. -/
theorem declarations_of_tree {s : Source} (h : s.tree = sourceTree s.text) :
    (∀ d ∈ s.declarations, d.file = s.path) ∧ s.declarations.Pairwise fun d e => d.line ≤ e.line := by
  constructor
  · intro d hd
    exact congrArg Declaration.file (eq_of_mem_declarations hd)
  · rw [declarations, declaredNodes, h, List.pairwise_map]
    exact pairwise_line_declaredNodes s.path s.text

theorem of_load {t : FileTree} {base relative : Path} {s : Source} (h : load t base relative = .ok s) :
    s.path = relative ∧ s.tree = sourceTree s.text := by
  delta load at h
  split at h
  · cases h
  · have hs := Analysis.eq_of_parse_eq_ok h
    subst hs
    simp only [and_self]

/-- Files that are loaded one after another are loaded under their paths, in order. -/
theorem of_mapM_load {t : FileTree} {base : Path} {files : List Path} {sources : List Source}
    (h : files.mapM (load t base) = .ok sources) :
    sources.map path = files ∧ ∀ s ∈ sources, load t base s.path = .ok s := by
  induction files generalizing sources with
  | nil =>
    cases h
    exact ⟨rfl, List.forall_mem_nil _⟩
  | cons f files ih =>
    rw [List.mapM_cons] at h
    cases hs : load t base f with
    | error e => simp [hs, bind, Except.bind] at h
    | ok s =>
      cases hr : files.mapM (load t base) with
      | error e => simp [hs, hr, bind, Except.bind] at h
      | ok rest =>
        simp only [hs, hr, bind, Except.bind, pure, Except.pure] at h
        cases h
        obtain ⟨hpath, -⟩ := of_load hs
        obtain ⟨hpaths, hloads⟩ := ih hr
        rw [List.map_cons, hpath, hpaths, List.forall_mem_cons, hpath]
        exact ⟨rfl, hs, hloads⟩

end Go.Source

namespace Analysis

/-! ## Sources in order -/

/-- Parsed files as a walk below `base` gives them: paths made of names, in strict order. -/
structure InOrder (base : Path) (sources : List Go.Source) : Prop where
  parsed : ∀ s ∈ sources, s.tree = Go.sourceTree s.text
  sorted : sources.Pairwise fun s s' => s.path.compare s'.path = .lt
  relative : ∀ s ∈ sources, (base.below? s.path).getD s.path.components = s.path.components

theorem inOrder_of_walk {t : FileTree} {root : Path} {c : DiscoveryConfig} {global : Option Path} {w : SourceWalk}
    {files : List Path} {sources : List Go.Source} (ht : t.top.WellFormed) (hroot : root.isAbsolute = true)
    (hw : SourceWalk.prepare t root c = .ok w) (hfiles : w.files t global = .ok files)
    (hsources : files.mapM (Go.Source.load t w.base) = .ok sources) : InOrder w.base sources := by
  obtain ⟨hpaths, hloads⟩ := Go.Source.of_mapM_load hsources
  obtain ⟨found, rfl, hsorted, hnames⟩ := SourceWalk.exists_names_of_files ht hfiles
  have hbase := SourceWalk.base_of_prepare hroot hw
  refine ⟨fun s hs => (Go.Source.of_load (hloads s hs)).2, ?_, ?_⟩
  · have hlt : (sources.map Go.Source.path).Pairwise fun p q => p.compare q = .lt := by
      rw [hpaths]
      exact Path.pairwise_compare_ofNames hsorted hnames
    exact List.pairwise_map.1 hlt
  · intro s hs
    have hmem : s.path ∈ found.map Path.ofNames := hpaths ▸ List.mem_map_of_mem hs
    obtain ⟨names, hn, hpath⟩ := List.mem_map.1 hmem
    rw [← hpath]
    exact Path.below?_relative hbase (Path.isAbsolute_ofNames (hnames names hn))

theorem exists_inOrder_of_ofDirectory {t : FileTree} {root : Path} {c : DiscoveryConfig}
    {global : Option Path} {a : Analysis} (ht : t.top.WellFormed) (hroot : root.isAbsolute = true)
    (h : ofDirectory t root c global = .ok a) :
    ∃ base sources, InOrder base sources ∧ a = ofSources base sources := by
  obtain ⟨w, files, sources, hw, hfiles, hsources, ha⟩ := exists_walk_of_ofDirectory h
  exact ⟨w.base, sources, inOrder_of_walk ht hroot hw hfiles hsources, ha⟩

theorem records_ofSources (base : Path) (sources : List Go.Source) :
    (ofSources base sources).declarations.records = sources.flatMap fun s => s.declarations := by
  rw [ofSources]
  dsimp only
  rw [records_collect, nodesOf, List.map_flatMap]
  rfl

theorem mem_functionsIn_iff (a : Analysis) (file : Path) (d : Declaration) :
    d ∈ a.functionsIn file ↔
      d ∈ a.declarations.records ∧ d.file.components = (a.root.below? file).getD file.components := by
  simp [functionsIn]

namespace InOrder

variable {base : Path} {sources : List Go.Source} (h : InOrder base sources)

include h

/-- Sorting by file and line changes nothing. -/
theorem orderedDeclarations_eq :
    (ofSources base sources).orderedDeclarations = (ofSources base sources).declarations.records := by
  rw [orderedDeclarations, records_ofSources]
  apply List.mergeSort_of_pairwise
  rw [List.pairwise_flatMap]
  constructor
  · intro s hs
    obtain ⟨hfile, hline⟩ := Go.Source.declarations_of_tree (h.parsed s hs)
    refine hline.imp_of_mem ?_
    intro d e hd he hle
    rw [hfile d hd, hfile e he, Path.compare, Path.compareComponents_self]
    exact Nat.isLE_compare.2 hle
  · refine h.sorted.imp_of_mem ?_
    intro s s' hs hs' hlt d hd e he
    rw [(Go.Source.declarations_of_tree (h.parsed s hs)).1 d hd,
      (Go.Source.declarations_of_tree (h.parsed s' hs')).1 e he, hlt]
    rfl

theorem filter_of_ne {s s' : Go.Source} (hs' : s' ∈ sources)
    (hne : s'.path.components ≠ s.path.components) :
    s'.declarations.filter (fun d => d.file.components == s.path.components) = [] := by
  rw [List.filter_eq_nil_iff]
  intro d hd
  rw [(Go.Source.declarations_of_tree (h.parsed s' hs')).1 d hd]
  simpa using hne

/-- The path of a file selects the declarations of that file. -/
theorem filter_records_eq {s : Go.Source} (hs : s ∈ sources) :
    (sources.flatMap fun s => s.declarations).filter (fun d => d.file.components == s.path.components) =
      s.declarations := by
  have hne : ∀ {p q : Path}, p.compare q = .lt → p.components ≠ q.components := by
    intro p q hlt heq
    rw [Path.compare, heq, Path.compareComponents_self] at hlt
    cases hlt
  have hself : s.declarations.filter (fun d => d.file.components == s.path.components) = s.declarations := by
    rw [List.filter_eq_self]
    intro d hd
    rw [(Go.Source.declarations_of_tree (h.parsed s hs)).1 d hd]
    simp
  obtain ⟨before, after, rfl⟩ := List.append_of_mem hs
  obtain ⟨-, hafter, hbefore⟩ := List.pairwise_append.1 h.sorted
  have hnil : ∀ others : List Go.Source, (∀ s' ∈ others, s' ∈ before ++ s :: after ∧
      s'.path.components ≠ s.path.components) →
      (others.flatMap fun s' => s'.declarations.filter fun d => d.file.components == s.path.components) = [] := by
    intro others hothers
    rw [List.flatMap_eq_nil_iff]
    exact fun s' hs' => h.filter_of_ne (hothers s' hs').1 (hothers s' hs').2
  rw [List.filter_flatMap, List.flatMap_append, List.flatMap_cons, hself,
    hnil before fun s' hs' => ⟨List.mem_append_left _ hs', hne (hbefore s' hs' s List.mem_cons_self)⟩,
    hnil after fun s' hs' => ⟨List.mem_append_right _ (List.mem_cons_of_mem _ hs'),
      (hne ((List.pairwise_cons.1 hafter).1 s' hs')).symm⟩,
    List.nil_append, List.append_nil]

/-- Sorting the declarations of a file by line changes nothing. -/
theorem functionsIn_eq {s : Go.Source} (hs : s ∈ sources) :
    (ofSources base sources).functionsIn s.path = s.declarations := by
  have hwanted : (((ofSources base sources).root.below? s.path).getD s.path.components) =
      s.path.components := h.relative s hs
  rw [functionsIn, hwanted, records_ofSources, h.filter_records_eq hs]
  apply List.mergeSort_of_pairwise
  refine (Go.Source.declarations_of_tree (h.parsed s hs)).2.imp ?_
  intro d e hle
  exact decide_eq_true hle

theorem flatMap_functionsIn_eq :
    ((ofSources base sources).files.flatMap (ofSources base sources).functionsIn) =
      (ofSources base sources).declarations.records := by
  have hfiles : (ofSources base sources).files = sources.map (·.path) := rfl
  rw [hfiles, List.flatMap_map, records_ofSources, List.flatMap_def, List.flatMap_def]
  exact congrArg List.flatten (List.map_congr_left fun s hs => h.functionsIn_eq hs)

end InOrder

/-! ## Listings -/

def entryIn (a : Analysis) (form : PathForm) (d : Declaration) : FunctionAnalysis :=
  ⟨d.function, d.receiver.getD "",
    ((((CallerIndex.ofGraph a.graph).lineage? a.declarations d.name none).map (·.callers)).getD []).map
      fun e => ⟨e.caller, ⟨form.shown e.file, Link.lineOf e.line⟩⟩⟩

def entryFor (a : Analysis) (d : Declaration) : FunctionAnalysis := a.entryIn .text d

theorem lineagesFor_none (a : Analysis) : (a.lineagesFor none).functions = a.orderedDeclarations.map a.entryFor :=
  rfl

theorem lineagesFor_some (a : Analysis) (file : Path) :
    (a.lineagesFor (some file)).functions = (a.functionsIn file).map a.entryFor :=
  rfl

/-- The listing of a directory is the listings of its files, one after another as they were found. Both have one entry
for each declaration in the order of discovery, so neither sort moves anything. -/
theorem lineagesFor_ofDirectory {t : FileTree} {root : Path} {c : DiscoveryConfig} {global : Option Path}
    {a : Analysis} (ht : t.top.WellFormed) (hroot : root.isAbsolute = true)
    (h : ofDirectory t root c global = .ok a) :
    (a.lineagesFor none).functions = a.files.flatMap (fun file => (a.lineagesFor (some file)).functions) ∧
    (a.lineagesFor none).functions = a.declarations.records.map a.entryFor ∧
    a.orderedDeclarations = a.declarations.records ∧
    ∀ file ∈ a.files, a.functionsIn file =
      a.declarations.records.filter fun d => d.file.components == file.components := by
  obtain ⟨base, sources, hin, rfl⟩ := exists_inOrder_of_ofDirectory ht hroot h
  have hall : ((ofSources base sources).lineagesFor none).functions =
      (ofSources base sources).declarations.records.map (ofSources base sources).entryFor := by
    rw [lineagesFor_none, hin.orderedDeclarations_eq]
  refine ⟨?_, hall, hin.orderedDeclarations_eq, ?_⟩
  · simp only [lineagesFor_some]
    rw [hall, ← hin.flatMap_functionsIn_eq, List.map_flatMap]
  · intro file hfile
    obtain ⟨s, hs, rfl⟩ := List.mem_map.1 hfile
    rw [hin.functionsIn_eq hs, records_ofSources, hin.filter_records_eq hs]

/-- A directory that stands between files whose names begin as its own does. -/
def nestedEntries : List (String × Entry) :=
  [("a.go", .file (Utf8.encode "package p\nfunc A() { B() }; func C() { A() }\n")),
    ("a", .dir [("b.go", .file (Utf8.encode "package p\n\nfunc B() { C() }\nfunc A() { B() }\n"))]),
    ("a-b.go", .file (Utf8.encode "package p\nfunc (t T) M() { A() }\n"))]

def nested : FileTree := ⟨.dir [("p", .dir nestedEntries)], ⟨"/"⟩⟩

theorem wellFormed_nested : nested.top.WellFormed := by decide

/-- The files of the directory, in the order of their paths. -/
theorem walkEntry_nested :
    walkEntry nested true (SourceWalk.rulesAbove nested true none ⟨"/p"⟩ ["p"]) ["p"] (.dir nestedEntries) =
      [["p", "a", "b.go"], ["p", "a-b.go"], ["p", "a.go"]] := by
  have hskips : let rules := (SourceWalk.rulesAbove nested true none ⟨"/p"⟩ ["p"]).enter nested true ["p"]
      rules.skips ["p", "a.go"] false = false ∧ rules.skips ["p", "a-b.go"] false = false ∧
      rules.skips ["p", "a"] true = false ∧
      (rules.enter nested true ["p", "a"]).skips ["p", "a", "b.go"] false = false := by
    decide +kernel
  obtain ⟨h1, h2, h3, h4⟩ := hskips
  simp [walkEntry, walkEntries, nestedEntries, Entry.isDir, h1, h2, h3, h4, List.mergeSort]

/-- The listings of the directory agree. The two functions of one line and the name that two files declare are in both,
once for each declaration. -/
theorem lineagesFor_ofDirectory_nested : ∃ a, ofDirectory nested ⟨"/p"⟩ .standard none = .ok a ∧
    (a.files = [⟨"a/b.go"⟩, ⟨"a-b.go"⟩, ⟨"a.go"⟩] ∧
    a.declarations.records.map (fun d => (d.name, d.file, d.line)) =
      [("B", ⟨"a/b.go"⟩, 3), ("A", ⟨"a/b.go"⟩, 4), ("T.M", ⟨"a-b.go"⟩, 2), ("A", ⟨"a.go"⟩, 2),
        ("C", ⟨"a.go"⟩, 2)]) ∧
    (a.lineagesFor none).functions = a.files.flatMap (fun file => (a.lineagesFor (some file)).functions) ∧
    a.orderedDeclarations = a.declarations.records := by
  have hfind : nested.find ⟨"/p"⟩ = .ok ⟨nested.top, [("p", .dir nestedEntries)]⟩ := rfl
  have hfiles : (SourceWalk.mk ⟨"/p"⟩ ⟨"/p"⟩ ⟨".go", "_test.go", [], []⟩ true).files nested none =
      .ok [⟨"a/b.go"⟩, ⟨"a-b.go"⟩, ⟨"a.go"⟩] := by
    simp only [SourceWalk.files, hfind, Place.entry, Place.names, List.map_cons, List.map_nil,
      List.reverse_singleton, walkEntry_nested]
    decide +kernel
  have hdir : ofDirectory nested ⟨"/p"⟩ .standard none =
      ofFiles nested ⟨"/p"⟩ [⟨"a/b.go"⟩, ⟨"a-b.go"⟩, ⟨"a.go"⟩] := by
    have hprepare : SourceWalk.prepare nested ⟨"/p"⟩ .standard =
        .ok ⟨⟨"/p"⟩, ⟨"/p"⟩, ⟨".go", "_test.go", [], []⟩, true⟩ := rfl
    simp only [ofDirectory, hprepare, bind, Except.bind, hfiles]
  have hview : (ofFiles nested ⟨"/p"⟩ [⟨"a/b.go"⟩, ⟨"a-b.go"⟩, ⟨"a.go"⟩]).toOption.map (fun a =>
        (a.files, a.declarations.records.map fun d => (d.name, d.file, d.line))) =
      some ([⟨"a/b.go"⟩, ⟨"a-b.go"⟩, ⟨"a.go"⟩],
        [("B", ⟨"a/b.go"⟩, 3), ("A", ⟨"a/b.go"⟩, 4), ("T.M", ⟨"a-b.go"⟩, 2), ("A", ⟨"a.go"⟩, 2),
          ("C", ⟨"a.go"⟩, 2)]) := by decide +kernel
  cases ha : ofDirectory nested ⟨"/p"⟩ .standard none with
  | error e => simp [← hdir, ha, Except.toOption] at hview
  | ok a =>
    simp only [← hdir, ha, Except.toOption, Option.map_some, Option.some.injEq, Prod.mk.injEq] at hview
    have hlist := lineagesFor_ofDirectory wellFormed_nested rfl ha
    exact ⟨a, rfl, hview, hlist.1, hlist.2.2.1⟩

end Analysis

end CallLineage
