import CallLineage.Proofs.Lookup
/-! The sources under a root where no ignore rules hold.
Without rules a walk passes over hidden names and nothing else, so it meets exactly the files that names which are not
hidden lead to without links; the filter then picks the sources among them. -/
namespace CallLineage

/-- What a search finds depends on what it sees of each element. -/
theorem findSome?_congr_map {α β γ : Type} {f : α → Option γ} {g : β → Option γ} {l : List α} {l' : List β}
    (h : l.map f = l'.map g) : l.findSome? f = l'.findSome? g := by
  have hleft : (l.map f).findSome? id = l.findSome? f := List.findSome?_map
  have hright : (l'.map g).findSome? id = l'.findSome? g := List.findSome?_map
  rw [← hleft, h, hright]

/-! ## Rules that say nothing -/

structure IgnoreLevel.Silent (l : IgnoreLevel) : Prop where
  own : l.own = []
  general : l.general = []
  git : l.git = []
  gitExclude : l.gitExclude = []

structure IgnoreRules.Silent (r : IgnoreRules) : Prop where
  levels : ∀ l ∈ r.levels, l.Silent
  global : r.global = []

theorem IgnoreRule.verdict?_nil (path : Bytes) (isDir : Bool) : verdict? [] path isDir = none := rfl

theorem IgnoreLevel.verdictOf?_of_silent {levels : List IgnoreLevel} {kind : IgnoreLevel → List IgnoreRule}
    (h : ∀ l ∈ levels, kind l = []) (given whole : Path) (isDir : Bool) :
    verdictOf? levels kind given whole isDir = none := by
  rw [verdictOf?, List.findSome?_eq_none_iff]
  intro l hl
  rw [h l hl, IgnoreRule.verdict?_nil]

namespace IgnoreRules

variable {r : IgnoreRules}

theorem Silent.skips_eq (h : r.Silent) (names : List String) (name : String) (isDir : Bool) :
    r.skips (names ++ [name]) isDir = isHidden name := by
  have hverdict : r.verdict? (names ++ [name]) isDir = none := by
    rw [verdict?, IgnoreLevel.verdictOf?_of_silent fun l hl => (h.levels l hl).own,
      IgnoreLevel.verdictOf?_of_silent fun l hl => (h.levels l hl).general,
      IgnoreLevel.verdictOf?_of_silent fun l hl => (h.levels l hl).git,
      IgnoreLevel.verdictOf?_of_silent fun l hl => (h.levels l hl).gitExclude, h.global]
    rfl
  simp [skips, hverdict]

theorem Silent.enter (h : r.Silent) {t : FileTree} {git : Bool} {names : List String}
    (hlevel : (IgnoreLevel.load t git false (r.pathOf names)).Silent) : (r.enter t git names).Silent :=
  ⟨List.forall_mem_cons.2 ⟨hlevel, h.levels⟩, h.global⟩

end IgnoreRules

/-- Without rules, a walk meets the files that names which are not hidden lead to. -/
theorem mem_walkEntry_iff {t : FileTree} {git : Bool} {e : Entry} (h : e.WellFormed) {rules : IgnoreRules}
    (hrules : rules.Silent) {names : List String}
    (hlevels : ∀ rest entries, e.at? rest = some (.dir entries) →
      (IgnoreLevel.load t git false (rules.pathOf (names ++ rest))).Silent)
    (path : List String) :
    path ∈ walkEntry t git rules names e ↔
      ∃ rest bytes, path = names ++ rest ∧ e.at? rest = some (.file bytes) ∧
        ∀ n ∈ rest, IgnoreRules.isHidden n = false := by
  induction h generalizing rules names with
  | file bytes =>
    rw [walkEntry, List.mem_singleton]
    simp only [Entry.at?_file_iff]
    constructor
    · intro hpath
      exact ⟨[], bytes, by simpa using hpath, ⟨rfl, rfl⟩, List.forall_mem_nil _⟩
    · intro hmem
      obtain ⟨rest, bytes', hpath, ⟨hrest, _⟩, _⟩ := hmem
      simpa [hrest] using hpath
  | link target =>
    simp [walkEntry, Entry.at?_link_ne_file]
  | @dir entries distinct named inner ih =>
    have hsilent := hrules.enter (by simpa using hlevels [] entries rfl)
    have hinner : ∀ e ∈ entries, ∀ rest entries', e.2.at? rest = some (.dir entries') →
        (IgnoreLevel.load t git false (rules.pathOf (names ++ [e.1] ++ rest))).Silent := by
      intro e he rest entries' hrest
      simpa using hlevels _ _ ((Entry.at?_cons_iff distinct).2 ⟨e, he, rfl, hrest⟩)
    rw [walkEntry, walkEntries_eq]
    simp only [List.mem_flatMap, List.mem_mergeSort, List.mem_map]
    constructor
    · intro hmem
      obtain ⟨found, ⟨e, he, hfound⟩, hpath⟩ := hmem
      rw [← hfound, hsilent.skips_eq] at hpath
      by_cases hhidden : IgnoreRules.isHidden e.1 = true
      · simp [hhidden] at hpath
      · rw [if_neg hhidden] at hpath
        obtain ⟨rest, bytes, hrest, hfile, hseen⟩ := (ih e he hsilent (hinner e he)).1 hpath
        exact ⟨e.1 :: rest, bytes, by simp [hrest], (Entry.at?_cons_iff distinct).2 ⟨e, he, rfl, hfile⟩,
          List.forall_mem_cons.2 ⟨by simpa using hhidden, hseen⟩⟩
    · intro hmem
      obtain ⟨below, bytes, hpath, hbelow, hseen⟩ := hmem
      cases below with
      | nil => cases hbelow
      | cons name rest =>
        obtain ⟨e, he, hname, hfile⟩ := (Entry.at?_cons_iff distinct).1 hbelow
        rw [← hname] at hpath hseen
        have hhidden := hseen e.1 List.mem_cons_self
        refine ⟨_, ⟨e, he, rfl⟩, ?_⟩
        rw [hsilent.skips_eq, if_neg (by simp [hhidden])]
        exact (ih e he hsilent (hinner e he)).2
          ⟨rest, bytes, by simp [hpath], hfile, fun n hn => hseen n (List.mem_cons_of_mem _ hn)⟩

/-! ## Trees without rules -/

namespace IgnoreLevel

/-- The files of a directory that hold its ignore rules; two of them only count with git. -/
def ruleFiles (git : Bool) : List String :=
  [".lineageignore", ".ignore"] ++ if git then [".gitignore", ".git/info/exclude"] else []

theorem rulesAt_of_not_isFile {t : FileTree} {p : Path} (h : t.isFile p = false) : rulesAt t p = [] := by
  cases hfind : t.find p with
  | error e => simp [rulesAt, FileTree.read, hfind, bind, Except.bind]
  | ok place =>
    have hentry : place.entry.isFile = false := (FileTree.isFile_of_find hfind).symm.trans h
    cases he : place.entry with
    | file bytes => simp [he, Entry.isFile] at hentry
    | _ => simp [rulesAt, FileTree.read, hfind, he, bind, Except.bind]

end IgnoreLevel

namespace FileTree

def FreeOfRules (t : FileTree) (git : Bool) (names : List String) : Prop :=
  ∀ file ∈ IgnoreLevel.ruleFiles git, t.isFile ((pathOf names).join ⟨file⟩) = false

instance (t : FileTree) (git : Bool) (names : List String) : Decidable (t.FreeOfRules git names) :=
  inferInstanceAs (Decidable (∀ file ∈ IgnoreLevel.ruleFiles git, t.isFile ((pathOf names).join ⟨file⟩) = false))

end FileTree

namespace IgnoreLevel

/-- Files of rules are reached by names, one of which is hidden. -/
theorem exists_names_of_ruleFiles {git : Bool} {file : String} (h : file ∈ ruleFiles git) :
    ∃ names, (⟨file⟩ : Path) = Path.ofNames names ∧ names ≠ [] ∧ (∀ n ∈ names, IsEntryName n) ∧
      ∃ n ∈ names, IgnoreRules.isHidden n = true := by
  have hfile : file ∈ ruleFiles true := by
    cases git with
    | true => exact h
    | false => exact List.mem_append_left _ h
  have hall : ∀ file ∈ ruleFiles true, ∃ names ∈ [[".lineageignore"], [".ignore"], [".gitignore"],
      [".git", "info", "exclude"]], (⟨file⟩ : Path) = Path.ofNames names := by decide
  have hnames : ∀ names ∈ [[".lineageignore"], [".ignore"], [".gitignore"], [".git", "info", "exclude"]],
      names ≠ [] ∧ (∀ n ∈ names, IsEntryName n) ∧ ∃ n ∈ names, IgnoreRules.isHidden n = true := by decide
  obtain ⟨names, hmem, heq⟩ := hall file hfile
  exact ⟨names, heq, hnames names hmem⟩

theorem silent_load {t : FileTree} {git above : Bool} {dir : Path}
    (h : ∀ file ∈ ruleFiles git, t.isFile (dir.join ⟨file⟩) = false) : (load t git above dir).Silent := by
  have hrules : ∀ file ∈ ruleFiles git, rulesAt t (dir.join ⟨file⟩) = [] :=
    fun file hfile => rulesAt_of_not_isFile (h file hfile)
  cases git with
  | false => exact ⟨hrules _ (by decide), hrules _ (by decide), rfl, rfl⟩
  | true =>
    exact ⟨hrules _ (by decide), hrules _ (by decide), hrules _ (by decide), hrules _ (by decide)⟩

/-- The rules of a directory are those of its files of rules. -/
theorem load_congr {t t' : FileTree} {git above : Bool} {dir dir' : Path}
    (h : ∀ file ∈ ruleFiles git, rulesAt t (dir.join ⟨file⟩) = rulesAt t' (dir'.join ⟨file⟩)) :
    load t git above dir = { load t' git above dir' with dir := dir } := by
  cases git with
  | false => simp [load, h ".lineageignore" (by decide), h ".ignore" (by decide)]
  | true =>
    simp [load, h ".lineageignore" (by decide), h ".ignore" (by decide), h ".gitignore" (by decide),
      h ".git/info/exclude" (by decide)]

end IgnoreLevel

namespace FileTree

/-- A directory without files of rules has none by any path that leads to it. -/
theorem FreeOfRules.silent {t : FileTree} {git : Bool} {root : Path} {place : Place} {rest : List String}
    (ht : t.top.WellFormed) (hroot : t.find root = .ok place) (hdir : place.entry.isDir = true)
    (hrest : ∀ n ∈ rest, IsEntryName n) (h : t.FreeOfRules git (place.names ++ rest)) :
    (IgnoreLevel.load t git false (root.descend rest)).Silent := by
  apply IgnoreLevel.silent_load
  intro file hfile
  have hnone := h file hfile
  obtain ⟨more, hmore, hne, hnamed, -⟩ := IgnoreLevel.exists_names_of_ruleFiles hfile
  rw [hmore] at hnone ⊢
  rw [isFile, find?] at hnone ⊢
  rcases find_descend_join ht hroot (Entry.ne_link_of_isDir hdir) hrest hnamed hne with hmany | hsame
  · simp [hmany, Except.toOption]
  · rw [hsame, hnone]

/-- No ignore rules bear on what lies below a place: no file of rules stands in a directory on the way to the place or
below it, and there is none for all directories. -/
structure WithoutRules (t : FileTree) (git : Bool) (global : Option Path) (place : Place) : Prop where
  above : ∀ names, names <+: place.names → t.FreeOfRules git names
  below : ∀ rest entries, place.entry.at? rest = some (.dir entries) → t.FreeOfRules git (place.names ++ rest)
  everywhere : git = true → ∀ p, global = some p → t.isFile p = false

theorem WithoutRules.silent_rulesAbove {t : FileTree} {git : Bool} {global : Option Path} {place : Place}
    (h : t.WithoutRules git global place) (root : Path) :
    (SourceWalk.rulesAbove t git global root place.names).Silent := by
  constructor
  · intro l hl
    simp only [SourceWalk.rulesAbove, List.mem_reverse, List.mem_map] at hl
    obtain ⟨n, -, hl⟩ := hl
    rw [← hl]
    exact IgnoreLevel.silent_load (h.above _ (List.take_prefix n place.names))
  · cases global with
    | none => rfl
    | some p =>
      cases git with
      | false => rfl
      | true => exact IgnoreLevel.rulesAt_of_not_isFile (h.everywhere rfl p rfl)

end FileTree

/-! ## Sources -/

/-- Where no ignore rules bear on a directory, its sources are exactly the files below it that names which are not
hidden lead to without links and that the filter accepts. Each is found once, in the strict order of paths. -/
theorem SourceWalk.files_of_withoutRules {t : FileTree} {root : Path} {c : DiscoveryConfig} {global : Option Path}
    {place : Place} {filter : SourceFilter} (ht : t.top.WellFormed) (hroot : t.find root = .ok place)
    (hdir : place.entry.isDir = true) (hfilter : SourceFilter.ofConfig c = .ok filter)
    (hrules : t.WithoutRules c.respectGitignore global place) :
    ∃ w files, prepare t root c = .ok w ∧ w.base = root ∧ w.files t global = .ok files ∧
      files.Nodup ∧ files.Pairwise (fun p q => p.compare q = .lt) ∧
      ∀ p, p ∈ files ↔ ∃ names bytes, p = Path.ofNames names ∧ place.entry.at? names = some (.file bytes) ∧
        (∀ n ∈ names, IgnoreRules.isHidden n = false) ∧ filter.accepts p = true := by
  have hprepare : prepare t root c = .ok ⟨root, root, filter, c.respectGitignore⟩ := by
    have hexists : t.exists? root = true := by simp [FileTree.exists?, FileTree.find?, hroot, Except.toOption]
    have hfile : t.isFile root = false := by
      cases he : place.entry <;> simp_all [FileTree.isFile, FileTree.find?, Except.toOption, Entry.isDir, Entry.isFile]
    simp [prepare, hexists, hfilter, hfile]
  cases hentry : place.entry with
  | file bytes => simp [hentry, Entry.isDir] at hdir
  | link target => simp [hentry, Entry.isDir] at hdir
  | dir entries =>
    let w : SourceWalk := ⟨root, root, filter, c.respectGitignore⟩
    have hfiles : ∃ files, w.files t global = .ok files := by
      rw [SourceWalk.files, hroot]
      exact ⟨_, rfl⟩
    obtain ⟨files, hfiles⟩ := hfiles
    obtain ⟨found, hfound, hsorted, hnames⟩ := exists_names_of_files ht hfiles
    have horder : files.Pairwise fun p q => p.compare q = .lt := by
      rw [hfound]
      exact Path.pairwise_compare_ofNames hsorted hnames
    have hmem : ∀ p, p ∈ files ↔ ∃ names bytes, p = Path.ofNames names ∧
        (Entry.dir entries).at? names = some (.file bytes) ∧ (∀ n ∈ names, IgnoreRules.isHidden n = false) ∧
        filter.accepts p = true := by
      have hwell : (Entry.dir entries).WellFormed := hentry ▸ FileTree.wellFormed_find ht hroot
      let rules := rulesAbove t c.respectGitignore global root place.names
      have hlevels : ∀ rest entries', (Entry.dir entries).at? rest = some (.dir entries') →
          (IgnoreLevel.load t c.respectGitignore false (rules.pathOf (place.names ++ rest))).Silent := by
        intro rest entries' hrest
        have hgiven : rules.pathOf (place.names ++ rest) = root.descend rest := by
          simp [IgnoreRules.pathOf, rules, rulesAbove]
        rw [hgiven]
        exact (hrules.below rest entries' (hentry ▸ hrest)).silent ht hroot hdir (hwell.isEntryName_at? hrest)
      have hwalk := mem_walkEntry_iff hwell (hrules.silent_rulesAbove root) hlevels
      intro p
      simp only [SourceWalk.files, w, hroot, hentry, Except.ok.injEq] at hfiles
      rw [← hfiles, List.mem_filter, List.mem_map]
      constructor
      · intro hmem
        obtain ⟨⟨path, hpath, hp⟩, haccepts⟩ := hmem
        obtain ⟨rest, bytes, hrest, hfile, hseen⟩ := (hwalk path).1 hpath
        rw [hrest, List.drop_left] at hp
        exact ⟨rest, bytes, hp.symm, hfile, hseen, haccepts⟩
      · intro hmem
        obtain ⟨names, bytes, hp, hfile, hseen, haccepts⟩ := hmem
        refine ⟨⟨place.names ++ names, (hwalk _).2 ⟨names, bytes, rfl, hfile, hseen⟩, ?_⟩, haccepts⟩
        rw [List.drop_left, hp]
        rfl
    exact ⟨w, files, hprepare, rfl, hfiles, horder.imp Path.ne_of_compare_eq_lt, horder, hmem⟩

/-- A directory in which names begin alike, with a hidden file, a link, a test and a hidden directory. -/
def mixedEntries : List (String × Entry) :=
  [("a.go", .file []), ("a", .dir [("b.go", .file []), (".h", .dir [("c.go", .file [])])]), ("a-b.go", .file []),
    (".d.go", .file []), ("e.go", .link ⟨"a.go"⟩), ("f_test.go", .file [])]

def mixed : FileTree := ⟨.dir [("p", .dir mixedEntries)], ⟨"/"⟩⟩

theorem wellFormed_mixed : mixed.top.WellFormed := by decide

theorem SourceWalk.files_of_withoutRules_mixed :
    (mixed.top.WellFormed ∧ mixed.WithoutRules true none ⟨mixed.top, [("p", .dir mixedEntries)]⟩) ∧
    ∃ w files, prepare mixed ⟨"/p"⟩ .standard = .ok w ∧ w.files mixed none = .ok files ∧
      files.Pairwise (fun p q => p.compare q = .lt) ∧ ⟨"a/b.go"⟩ ∈ files ∧ ⟨"a-b.go"⟩ ∈ files ∧ ⟨"a.go"⟩ ∈ files := by
  have hroot : mixed.find ⟨"/p"⟩ = .ok ⟨mixed.top, [("p", .dir mixedEntries)]⟩ := rfl
  have hfilter : SourceFilter.ofConfig .standard = .ok ⟨".go", "_test.go", [], []⟩ := rfl
  have hrules : mixed.WithoutRules true none ⟨mixed.top, [("p", .dir mixedEntries)]⟩ := by
    constructor
    · intro names hnames
      have hall : ∀ names ∈ [[], ["p"]], mixed.FreeOfRules true names := by decide +kernel
      apply hall
      simpa [Place.names, List.prefix_cons_iff] using hnames
    · intro rest entries hrest
      have hall : ∀ b ∈ (Entry.dir mixedEntries).contents, b.2.isDir = true → mixed.FreeOfRules true (["p"] ++ b.1) := by
        decide +kernel
      exact hall (rest, .dir entries) (Entry.mem_contents (by decide) hrest) rfl
    · intro _ p hp
      cases hp
  obtain ⟨w, files, hprepare, -, hfiles, -, horder, hmem⟩ :=
    files_of_withoutRules wellFormed_mixed hroot rfl hfilter hrules
  refine ⟨⟨wellFormed_mixed, hrules⟩, w, files, hprepare, hfiles, horder, ?_, ?_, ?_⟩
  · exact (hmem _).2 ⟨["a", "b.go"], [], rfl, rfl, by decide, by decide +kernel⟩
  · exact (hmem _).2 ⟨["a-b.go"], [], rfl, rfl, by decide, by decide +kernel⟩
  · exact (hmem _).2 ⟨["a.go"], [], rfl, rfl, by decide, by decide +kernel⟩

end CallLineage
