import CallLineage.CommandLine
import CallLineage.Proofs.Listing
import CallLineage.Proofs.Lookup
/-! The spellings of a file in a request.
A server keeps its root without links and compares components. A file may be asked for by its path from the root, or
below the root as the server keeps it; below another spelling of the root it is found only if that has the same
components. -/
namespace CallLineage

namespace Path

variable {base : Path} {names : List String}

theorem components_join_ofNames (base : Path) (h : ∀ n ∈ names, IsEntryName n) :
    (base.join (ofNames names)).components = base.components ++ names.map Component.name := by
  rw [components_join base (isAbsolute_ofNames h) (lead_ofNames h), components_ofNames h]

theorem below?_join_ofNames {given : Path} (hgiven : given.components = base.components)
    (h : ∀ n ∈ names, IsEntryName n) :
    base.below? (given.join (ofNames names)) = some (ofNames names).components := by
  simp [below?, components_join_ofNames given h, components_ofNames h, hgiven]

/-- A path below another is made of its components and those that remain. -/
theorem components_of_below? {p : Path} {cs : List Component} (h : base.below? p = some cs) :
    p.components = base.components ++ cs := by
  simp only [below?, Option.ite_none_right_eq_some, Option.some.injEq, List.isPrefixOf_iff_prefix] at h
  obtain ⟨⟨rest, hrest⟩, hdrop⟩ := h
  rw [← hrest, List.drop_left] at hdrop
  rw [← hrest, hdrop]

end Path

theorem FileTree.components_pathOf {names : List String} (h : ∀ n ∈ names, IsEntryName n) :
    (pathOf names).components = .root :: names.map Component.name := by
  rw [Path.components_eq, lead_pathOf, parts_pathOf h]
  rfl

/-- A path to a directory that, with names behind it, spells the way to a file there is the path without links. -/
theorem FileTree.components_eq_of_spells {t : FileTree} {given : Path} {place : Place} (ht : t.top.WellFormed)
    (habs : given.isAbsolute = true) (hfind : t.find given = .ok place) {names below : List String} {bytes : Bytes}
    (hfile : place.entry.at? below = some (.file bytes))
    (hspells : given.components ++ names.map Component.name =
      (pathOf place.names).components ++ below.map Component.name) :
    given.components = (pathOf place.names).components := by
  have hlead := Path.lead_eq_root_iff.2 habs
  have hroot := components_pathOf (wellFormed_of_find ht hfind).isEntryName_names
  rw [Path.components_eq, hlead, hroot] at hspells ⊢
  simp only [List.cons_append, List.nil_append, List.cons.injEq, true_and, ← List.map_append] at hspells ⊢
  obtain ⟨front, back, hnames, hfront, -⟩ := List.map_eq_append_iff.1 hspells.symm
  -- The way to the file passes no link, so the part of it that the path spells does not.
  have hway : t.top.at? (front ++ back) = some (.file bytes) := by
    rw [← hnames, Entry.at?_append, ← top_of_find hfind, stands_of_find hfind place.inner (List.suffix_refl _)]
    exact hfile
  rw [Entry.at?_append, Option.bind_eq_some_iff] at hway
  obtain ⟨e, he, hback⟩ := hway
  have hlink : ∀ target, e ≠ .link target := by
    rintro target rfl
    exact Entry.at?_link_ne_file hback
  rw [names_of_find_names hlead hfront.symm he hlink hfind, hfront]

namespace Analysis

/-- What is known of the analysis of a directory: its sources are files in the directory, loaded by their paths. -/
structure OfPlace (t : FileTree) (root : Path) (place : Place) (sources : List Go.Source) : Prop where
  inOrder : InOrder root sources
  loaded : ∀ s ∈ sources, Go.Source.load t root s.path = .ok s
  found : ∀ s ∈ sources, ∃ names bytes, s.path = Path.ofNames names ∧ place.entry.at? names = some (.file bytes)

theorem exists_ofPlace_of_ofDirectory {t : FileTree} {root : Path} {c : DiscoveryConfig} {global : Option Path}
    {place : Place} {a : Analysis} (ht : t.top.WellFormed) (hroot : root.isAbsolute = true)
    (hfind : t.find root = .ok place) (hdir : place.entry.isDir = true) (h : ofDirectory t root c global = .ok a) :
    ∃ sources, OfPlace t root place sources ∧ a = ofSources root sources := by
  obtain ⟨w, files, sources, hw, hfiles, hsources, ha⟩ := exists_walk_of_ofDirectory h
  have hin := inOrder_of_walk ht hroot hw hfiles hsources
  obtain ⟨hpaths, hloads⟩ := Go.Source.of_mapM_load hsources
  obtain ⟨-, hwroot, -, hbase⟩ := SourceWalk.of_prepare hw
  have hfile : place.entry.isFile = false := by
    cases he : place.entry <;> simp_all [Entry.isDir, Entry.isFile]
  rw [FileTree.isFile_of_find hfind, hfile, if_neg (by simp)] at hbase
  rw [hbase] at hin hloads ha
  refine ⟨sources, ⟨hin, hloads, ?_⟩, ha⟩
  intro s hs
  have hmem : s.path ∈ files := hpaths ▸ List.mem_map_of_mem hs
  exact SourceWalk.exists_file_of_mem_files ht (hwroot ▸ hfind) hdir hfiles hmem

theorem functionsIn_congr {a : Analysis} {p q : Path}
    (h : (a.root.below? p).getD p.components = (a.root.below? q).getD q.components) :
    a.functionsIn p = a.functionsIn q := by
  rw [functionsIn, functionsIn, h]

namespace OfPlace

variable {t : FileTree} {root : Path} {place : Place} {sources : List Go.Source}

/-- A file is listed by its path below a root of the same components. -/
theorem functionsIn_join (h : OfPlace t root place sources) (hplace : place.entry.WellFormed) {given : Path}
    (hgiven : given.components = root.components) {s : Go.Source} (hs : s ∈ sources) :
    (ofSources root sources).functionsIn (given.join s.path) = s.declarations := by
  obtain ⟨names, bytes, hpath, hfile⟩ := h.found s hs
  have hnames := hplace.isEntryName_at? hfile
  rw [← h.inOrder.functionsIn_eq hs]
  apply functionsIn_congr
  have hself : (root.below? s.path).getD s.path.components = s.path.components := h.inOrder.relative s hs
  change (root.below? (given.join s.path)).getD _ = (root.below? s.path).getD _
  rw [hself, hpath, Path.below?_join_ofNames hgiven hnames, Option.getD_some]

/-- Below another spelling of the root nothing is listed. A path that leads below the root as it is kept would lead past
no link, so the spelling of the root in it would be that one. -/
theorem functionsIn_join_other (h : OfPlace t (FileTree.pathOf place.names) place sources)
    (ht : t.top.WellFormed) {given : Path} (habs : given.isAbsolute = true) (hfind : t.find given = .ok place)
    (hother : given.components ≠ (FileTree.pathOf place.names).components) {s : Go.Source} (hs : s ∈ sources) :
    (ofSources (FileTree.pathOf place.names) sources).functionsIn (given.join s.path) = [] := by
  have hplace := FileTree.wellFormed_find ht hfind
  rw [List.eq_nil_iff_forall_not_mem]
  intro d hd
  obtain ⟨hrecord, hwanted⟩ := (mem_functionsIn_iff _ _ _).1 hd
  rw [records_ofSources, List.mem_flatMap] at hrecord
  obtain ⟨s', hs', hds⟩ := hrecord
  obtain ⟨names, bytes, hpath, hfile⟩ := h.found s hs
  obtain ⟨below, bytes', hpath', hfile'⟩ := h.found s' hs'
  have hd : d.file.components = below.map Component.name := by
    rw [congrArg Declaration.file (Go.Source.eq_of_mem_declarations hds), ← Path.components_ofNames
      (hplace.isEntryName_at? hfile'), ← hpath']
    rfl
  have hjoin := Path.components_join_ofNames given (hplace.isEntryName_at? hfile)
  rw [hd, hpath] at hwanted
  cases hbelow : (ofSources (FileTree.pathOf place.names) sources).root.below? (given.join (Path.ofNames names)) with
  | none =>
    obtain ⟨cs, hcs⟩ := Path.components_of_isAbsolute habs
    rw [hbelow, Option.getD_none, hjoin, hcs] at hwanted
    cases below <;> simp at hwanted
  | some cs =>
    rw [hbelow, Option.getD_some] at hwanted
    have hspells := Path.components_of_below? hbelow
    rw [hjoin, ← hwanted] at hspells
    exact hother (FileTree.components_eq_of_spells ht habs hfind hfile' hspells)

end OfPlace

end Analysis

namespace Server

def ask (s : Server) (t : FileTree) (file : Path) : Except Failure CodeAnalysis :=
  s.handle t ⟨getLineages, some file.text⟩

theorem handle_of_error {s : Server} {t : FileTree} {e : Failure}
    (h : Analysis.ofDirectory t s.root s.discovery (s.globalIgnore t) = .error e) (file : Option String) :
    s.handle t ⟨getLineages, file⟩ = .error e := by
  simp [handle, h, bind, Except.bind]

theorem ask_of_ok {s : Server} {t : FileTree} {a : Analysis}
    (h : Analysis.ofDirectory t s.root s.discovery (s.globalIgnore t) = .ok a) (file : Path) :
    s.ask t file = .ok ⟨(a.functionsIn file).map a.entryFor⟩ := by
  simp only [ask, handle, h, bind, Except.bind]
  rfl

end Server

namespace CommandLine

theorem root_of_serverOf {w : World} {vs : Arguments.Values} {s : Server} {given : Path} {place : Place}
    (hgiven : vs.get? "root" = some given.text) (hfind : w.tree.find given = .ok place) (hs : serverOf w vs = .ok s) :
    s.root = FileTree.pathOf place.names := by
  simp only [serverOf, hgiven, FileTree.canonical, hfind, bind, Except.bind, pure, Except.pure] at hs
  split at hs
  · cases hs
  · cases hs
    rfl

/-- A server that is given a directory by an absolute path keeps the path of that directory without links. When the
analysis fails, every request gets the same failure. Otherwise the functions of a source are its declarations, asked for
by its path from the root or below the root that is kept; below the root as it was given they are found when that has
the same components, and else nothing is. -/
theorem ask_spellings {w : World} {vs : Arguments.Values} {s : Server} {given : Path} {place : Place}
    (ht : w.tree.top.WellFormed) (hgiven : vs.get? "root" = some given.text) (habs : given.isAbsolute = true)
    (hfind : w.tree.find given = .ok place) (hdir : place.entry.isDir = true) (hs : serverOf w vs = .ok s) :
    s.root = FileTree.pathOf place.names ∧ w.tree.find s.root = .ok place ∧
    (∀ e, Analysis.ofDirectory w.tree s.root s.discovery (s.globalIgnore w.tree) = .error e →
      ∀ file, s.handle w.tree ⟨Server.getLineages, file⟩ = .error e) ∧
    ∀ a, Analysis.ofDirectory w.tree s.root s.discovery (s.globalIgnore w.tree) = .ok a → ∀ file ∈ a.files,
      ∃ source, Go.Source.load w.tree s.root file = .ok source ∧
        s.ask w.tree file = .ok ⟨source.declarations.map a.entryFor⟩ ∧
        s.ask w.tree (s.root.join file) = .ok ⟨source.declarations.map a.entryFor⟩ ∧
        s.ask w.tree (given.join file) =
          .ok ⟨if given.same s.root then source.declarations.map a.entryFor else []⟩ := by
  have hroot := root_of_serverOf hgiven hfind hs
  have hkept : w.tree.find s.root = .ok place := by
    rw [hroot]
    exact FileTree.find_pathOf_names ht hfind hdir
  refine ⟨hroot, hkept, fun e he => Server.handle_of_error he, ?_⟩
  intro a ha file hfile
  have hrootAbs : s.root.isAbsolute = true := by
    rw [hroot, ← Path.lead_eq_root_iff, FileTree.lead_pathOf]
  obtain ⟨sources, hof, hsources⟩ := Analysis.exists_ofPlace_of_ofDirectory ht hrootAbs hkept hdir ha
  have hplace := FileTree.wellFormed_find ht hfind
  subst hsources
  obtain ⟨source, hsource, rfl⟩ := List.mem_map.1 hfile
  refine ⟨source, hof.loaded source hsource, ?_, ?_, ?_⟩
  · rw [Server.ask_of_ok ha, hof.inOrder.functionsIn_eq hsource]
  · rw [Server.ask_of_ok ha, hof.functionsIn_join hplace rfl hsource]
  · rw [Server.ask_of_ok ha]
    by_cases hsame : given.components = s.root.components
    · simp [Path.same, hsame, hof.functionsIn_join hplace hsame hsource]
    · rw [hroot] at hof hsame ⊢
      simp [Path.same, hsame, hof.functionsIn_join_other ht habs hfind hsame hsource]

def linked : World :=
  ⟨⟨.dir [("real", .dir [("a.go", .file (Utf8.encode "package p\n\nfunc A() {}\n"))]), ("lnk", .link ⟨"real"⟩)],
    ⟨"/"⟩⟩, [], []⟩

theorem wellFormed_linked : linked.tree.top.WellFormed := by decide

/-- A spelling with another part that does not count finds the file as the others do. -/
theorem ask_spellings_linked :
    ∃ s a source, serverOf linked [("root", "/real/./")] = .ok s ∧
      Analysis.ofDirectory linked.tree s.root s.discovery (s.globalIgnore linked.tree) = .ok a ∧ ⟨"a.go"⟩ ∈ a.files ∧
      Go.Source.load linked.tree s.root ⟨"a.go"⟩ = .ok source ∧
      s.ask linked.tree ⟨"a.go"⟩ = .ok ⟨source.declarations.map a.entryFor⟩ ∧
      s.ask linked.tree ⟨"/real/a.go"⟩ = .ok ⟨source.declarations.map a.entryFor⟩ ∧
      s.ask linked.tree ⟨"/real/./a.go"⟩ = .ok ⟨source.declarations.map a.entryFor⟩ := by
  have hs : serverOf linked [("root", "/real/./")] = .ok ⟨⟨"/real"⟩, .standard, []⟩ := rfl
  have hview : (Analysis.ofDirectory linked.tree ⟨"/real"⟩ .standard none).toOption.map (·.files) =
      some [⟨"a.go"⟩] := by
    decide +kernel
  cases ha : Analysis.ofDirectory linked.tree ⟨"/real"⟩ .standard none with
  | error e => simp [ha, Except.toOption] at hview
  | ok a =>
    simp only [ha, Except.toOption, Option.map_some, Option.some.injEq] at hview
    have hfile : ⟨"a.go"⟩ ∈ a.files := by simp [hview]
    have hroot : Arguments.Values.get? [("root", "/real/./")] "root" = some (Path.mk "/real/./").text := rfl
    obtain ⟨-, -, -, hsources⟩ := ask_spellings wellFormed_linked hroot rfl rfl rfl hs
    obtain ⟨source, hload, hplain, hkept, hgiven⟩ := hsources a ha _ hfile
    exact ⟨_, a, source, hs, ha, hfile, hload, hplain, hkept, hgiven⟩

/-- Below a root that is given through a link, or through a parent, the file is not found. -/
theorem ask_below_link_finds_nothing :
    (∃ s, serverOf linked [("root", "/lnk")] = .ok s ∧ s.root = ⟨"/real"⟩ ∧
      s.ask linked.tree ⟨"a.go"⟩ = .ok ⟨[⟨"A", "", []⟩]⟩ ∧ s.ask linked.tree ⟨"/lnk/a.go"⟩ = .ok ⟨[]⟩) ∧
    ∃ s, serverOf linked [("root", "/lnk/../real")] = .ok s ∧ s.root = ⟨"/real"⟩ ∧
      s.ask linked.tree ⟨"/real/a.go"⟩ = .ok ⟨[⟨"A", "", []⟩]⟩ ∧
      s.ask linked.tree ⟨"/lnk/../real/a.go"⟩ = .ok ⟨[]⟩ := by
  have hlink : serverOf linked [("root", "/lnk")] = .ok ⟨⟨"/real"⟩, .standard, []⟩ := rfl
  have hparent : serverOf linked [("root", "/lnk/../real")] = .ok ⟨⟨"/real"⟩, .standard, []⟩ := rfl
  refine ⟨⟨_, hlink, rfl, ?_, ?_⟩, _, hparent, rfl, ?_, ?_⟩
  all_goals decide +kernel

end CommandLine

end CallLineage
