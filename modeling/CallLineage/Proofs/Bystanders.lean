import CallLineage.Proofs.Sources
import CallLineage.Server
/-! Files that are not sources have no influence.
A walk decides by names, kinds of entries, ignore files and the settings of git that name one of these; only files that
the filter accepts are read after it. So the bytes of a file that is none of these may be anything: the analysis, with
its failures, stays the same. -/
namespace CallLineage

/-- The path by which the filter judges the file of the given names, in a walk from a root that leads to a place. A root
that is a file goes by its own name; no other file has a path then. -/
def Place.relative? (place : Place) (root : Path) (names : List String) : Option Path :=
  match place.entry with
  | .file _ => if names = place.names then root.fileName?.map Path.mk else none
  | _ => if place.names.isPrefixOf names then some (Path.ofNames (names.drop place.names.length)) else none

namespace IgnoreLevel

/-- Whether the file of the given names holds ignore rules for a directory above it. -/
def holdsRules (git : Bool) (names : List String) : Bool :=
  (ruleFiles git).any fun file => (Path.mk file).components.isSuffixOf (names.map Component.name)

theorem holdsRules_append {git : Bool} {file : String} (h : file ∈ ruleFiles git) (names : List String)
    {more : List String} (hmore : (⟨file⟩ : Path) = Path.ofNames more) (hnamed : ∀ n ∈ more, IsEntryName n) :
    holdsRules git (names ++ more) = true := by
  rw [holdsRules, List.any_eq_true]
  refine ⟨file, h, ?_⟩
  rw [hmore, Path.components_ofNames hnamed, List.map_append, List.isSuffixOf_iff_suffix]
  exact List.suffix_append _ _

theorem holdsRules_eq_false (git : Bool) {names : List String} (h : ∀ n ∈ names, IgnoreRules.isHidden n = false) :
    holdsRules git names = false := by
  rw [holdsRules, List.any_eq_false]
  intro file hfile hsuffix
  obtain ⟨more, hmore, -, hnamed, n, hn, hhidden⟩ := exists_names_of_ruleFiles hfile
  rw [hmore, Path.components_ofNames hnamed, List.isSuffixOf_iff_suffix] at hsuffix
  have hmem : Component.name n ∈ names.map Component.name := hsuffix.subset (List.mem_map_of_mem hn)
  obtain ⟨m, hm, heq⟩ := List.mem_map.1 hmem
  cases heq
  simp [h n hm] at hhidden

end IgnoreLevel

/-- The names of a file that is no source and holds no ignore rules. -/
structure FileTree.Outsider (t : FileTree) (root : Path) (c : DiscoveryConfig) (env : Config.Environment)
    (names : List String) : Prop where
  /-- The filter rejects it, if it lies where the walk goes. -/
  rejected : ∀ place filter p, t.find root = .ok place → SourceFilter.ofConfig c = .ok filter →
    place.relative? root names = some p → filter.accepts p = false
  /-- It holds no rules for a directory; no file does without a hidden name in its path. -/
  not_rules : IgnoreLevel.holdsRules c.respectGitignore names = false
  /-- It does not hold the rules for all directories. -/
  not_global : c.respectGitignore = true → ∀ p place, globalIgnore? t env = some p → t.find p = .ok place →
    place.names ≠ names
  /-- No link leads to it or to a directory above it. -/
  unlinked : ∀ link target place, t.top.at? link = some (.link target) → t.find (pathOf link) = .ok place →
    ¬place.names <+: names

/-- The names of a file that takes no part in a walk. -/
structure FileTree.Bystander (t : FileTree) (root : Path) (c : DiscoveryConfig) (env : Config.Environment)
    (names : List String) : Prop extends t.Outsider root c env names where
  /-- It holds no settings of git, which may name the rules for all directories. -/
  not_settings : c.respectGitignore = true → ∀ file ∈ GitSettings.files env, ∀ place, t.find file = .ok place →
    place.names ≠ names

/-! ## Walks -/

/-- A walk does not depend on the bytes of the files that it meets. -/
theorem walkEntry_refill (f : List String → Bytes → Bytes) (t : FileTree) (git : Bool) {e : Entry} (h : e.WellFormed)
    (rules : IgnoreRules) (names : List String) :
    walkEntry t git rules names (e.refill f names) = walkEntry t git rules names e := by
  induction h generalizing rules names with
  | file bytes => simp [Entry.refill, walkEntry]
  | link target => simp [Entry.refill, walkEntry]
  | @dir entries distinct named inner ih =>
    let rules := rules.enter t git names
    have hfound : ∀ e ∈ entries,
        (e.1, if rules.skips (names ++ [e.1]) (e.2.refill f (names ++ [e.1])).isDir then []
          else walkEntry t git rules (names ++ [e.1]) (e.2.refill f (names ++ [e.1]))) =
        (e.1, if rules.skips (names ++ [e.1]) e.2.isDir then [] else walkEntry t git rules (names ++ [e.1]) e.2) := by
      intro e he
      rw [Entry.isDir_refill, ih e he]
    rw [Entry.refill, walkEntry, walkEntry, walkEntries_eq, walkEntries_eq, Entry.refillIn_eq, List.map_map]
    simp only [Function.comp_def]
    rw [List.map_congr_left hfound]

namespace FileTree

variable {t : FileTree} {root : Path} {c : DiscoveryConfig} {env : Config.Environment}
  {f : List String → Bytes → Bytes}

/-- Every file keeps its bytes, or it takes no part in the walk. -/
def SparesWalk (t : FileTree) (root : Path) (c : DiscoveryConfig) (env : Config.Environment)
    (f : List String → Bytes → Bytes) : Prop :=
  ∀ names bytes, f names bytes = bytes ∨ t.Bystander root c env names

namespace SparesWalk

variable (hf : t.SparesWalk root c env f)

include hf

theorem read_eq {p : Path} (h : ∀ place, t.find p = .ok place → ¬t.Bystander root c env place.names) :
    (t.refill f).read p = t.read p := by
  apply read_refill
  intro place hplace bytes
  rcases hf place.names bytes with hkept | hbystander
  · exact hkept
  · exact absurd hbystander (h place hplace)

theorem rulesAt_eq {p : Path} (h : ∀ place, t.find p = .ok place → ¬t.Bystander root c env place.names) :
    IgnoreLevel.rulesAt (t.refill f) p = IgnoreLevel.rulesAt t p := by
  rw [IgnoreLevel.rulesAt, IgnoreLevel.rulesAt, hf.read_eq h]

/-- The rules of a directory are the same: no path of an ignore file leads to a bystander. The directory is given by a
path that leads where its names do. -/
theorem load_eq (ht : t.top.WellFormed) {dir : Path} {names : List String} (hnames : ∀ n ∈ names, IsEntryName n)
    (hdir : ∀ more found, (∀ n ∈ more, IsEntryName n) → more ≠ [] → t.find (dir.join (Path.ofNames more)) = .ok found →
      t.find ((pathOf names).join (Path.ofNames more)) = .ok found) (above : Bool) :
    IgnoreLevel.load (t.refill f) c.respectGitignore above dir = IgnoreLevel.load t c.respectGitignore above dir := by
  apply IgnoreLevel.load_congr
  intro file hfile
  obtain ⟨more, hmore, hne, hnamed, -⟩ := IgnoreLevel.exists_names_of_ruleFiles hfile
  apply hf.rulesAt_eq
  intro place hplace hbystander
  rw [hmore] at hplace
  rcases names_or_link_of_find ht hnames hnamed (hdir more place hnamed hne hplace) with
    hsame | ⟨link, target, linked, hlink, hlinked, hprefix⟩
  · have hrules := IgnoreLevel.holdsRules_append hfile names hmore hnamed
    rw [← hsame, hbystander.not_rules] at hrules
    cases hrules
  · exact hbystander.unlinked link target linked hlink hlinked hprefix

/-- The settings of git name the same file. -/
theorem globalIgnore?_eq (hgit : c.respectGitignore = true) :
    globalIgnore? (t.refill f) env = globalIgnore? t env := by
  have hnamed : ∀ file ∈ GitSettings.files env,
      GitSettings.namedIn? (t.refill f) env file = GitSettings.namedIn? t env file := by
    intro file hfile
    rw [GitSettings.namedIn?, GitSettings.namedIn?, hf.read_eq]
    intro place hplace hbystander
    exact hbystander.not_settings hgit file hfile place hplace rfl
  rw [globalIgnore?, globalIgnore?, findSome?_congr_map (List.map_congr_left hnamed)]

theorem rulesAbove_eq (ht : t.top.WellFormed) (start : Path) {names : List String}
    (hnames : ∀ n ∈ names, IsEntryName n) :
    SourceWalk.rulesAbove (t.refill f) c.respectGitignore (globalIgnore? (t.refill f) env) start names =
      SourceWalk.rulesAbove t c.respectGitignore (globalIgnore? t env) start names := by
  have habove : ∀ n, IgnoreLevel.load (t.refill f) c.respectGitignore true (pathOf (names.take n)) =
      IgnoreLevel.load t c.respectGitignore true (pathOf (names.take n)) :=
    fun n => hf.load_eq ht (fun m hm => hnames m (List.mem_of_mem_take hm)) (fun _ _ _ _ h => h) true
  have hcurrent : (t.refill f).current = t.current := rfl
  simp only [SourceWalk.rulesAbove, habove, hcurrent]
  cases hgit : c.respectGitignore with
  | false => cases globalIgnore? (t.refill f) env <;> cases globalIgnore? t env <;> rfl
  | true =>
    rw [hf.globalIgnore?_eq hgit]
    cases hp : globalIgnore? t env with
    | none => rfl
    | some p =>
      have hrules : IgnoreLevel.rulesAt (t.refill f) p = IgnoreLevel.rulesAt t p :=
        hf.rulesAt_eq fun place hplace hbystander => hbystander.not_global hgit p place hp hplace rfl
      simp [hrules]

/-- The same files are found. -/
theorem files_eq (ht : t.top.WellFormed) {w : SourceWalk} (hgit : w.git = c.respectGitignore) :
    w.files (t.refill f) (globalIgnore? (t.refill f) env) = w.files t (globalIgnore? t env) := by
  rw [SourceWalk.files, SourceWalk.files, find_refill, hgit]
  cases hplace : t.find w.root with
  | error e => rfl
  | ok place =>
    have hwell := wellFormed_of_find ht hplace
    have hnames := hwell.isEntryName_names
    simp only [Except.map, Place.entry_refill, Place.names_refill, hf.rulesAbove_eq ht w.root hnames]
    cases hentry : place.entry with
    | file bytes => simp [Entry.refill]
    | link target => simp [Entry.refill]
    | dir entries =>
      let rules := SourceWalk.rulesAbove t c.respectGitignore (globalIgnore? t env) w.root place.names
      have hdir : (Entry.dir entries).WellFormed := hentry ▸ hwell.entry
      have hload : ∀ rest entries', (Entry.dir entries).at? rest = some (.dir entries') →
          IgnoreLevel.load (t.refill f) c.respectGitignore false (w.root.descend rest) =
            IgnoreLevel.load t c.respectGitignore false (w.root.descend rest) := by
        intro rest entries' hrest
        have hbelow := hdir.isEntryName_at? hrest
        have hall : ∀ n ∈ place.names ++ rest, IsEntryName n :=
          fun n hn => (List.mem_append.1 hn).elim (hnames n) (hbelow n)
        refine hf.load_eq ht hall ?_ false
        intro more found hmore hne hfound
        rcases find_descend_join ht hplace (by simp [hentry]) hbelow hmore hne with hmany | hsame
        · rw [hmany] at hfound
          cases hfound
        · rw [← hsame, hfound]
      -- The rules of both walks are the same in every directory.
      have hwalk : walkEntry (t.refill f) c.respectGitignore rules place.names (.dir entries) =
          walkEntry t c.respectGitignore rules place.names (.dir entries) := by
        refine walkEntry_congr (R := fun _ r r' => r = r' ∧ r.root = w.root ∧ r.depth = place.names.length) hdir
          ⟨rfl, rfl, rfl⟩ ?_
        rintro rest entries' hrest r _ ⟨rfl, hroot, hdepth⟩ inner hinner isDir
        have henter : r.enter (t.refill f) c.respectGitignore (place.names ++ rest) =
            r.enter t c.respectGitignore (place.names ++ rest) := by
          simp [IgnoreRules.enter, IgnoreRules.pathOf, hroot, hdepth, hload rest entries' hrest]
        rw [henter]
        exact ⟨rfl, rfl, hroot, hdepth⟩
      have hrefill := walkEntry_refill f (t.refill f) c.respectGitignore hdir rules place.names
      simp [Entry.refill] at hrefill ⊢
      rw [hrefill, hwalk]

end SparesWalk

end FileTree

/-! ## Analyses -/

theorem SourceWalk.prepare_refill (f : List String → Bytes → Bytes) (t : FileTree) (root : Path) (c : DiscoveryConfig) :
    prepare (t.refill f) root c = prepare t root c := by
  rw [prepare, prepare, FileTree.exists?_refill, FileTree.isFile_refill]

/-- The sources of a walk are accepted by the filter under the path it judges them by. -/
theorem SourceWalk.accepts_of_find {t : FileTree} {root : Path} {c : DiscoveryConfig} {global : Option Path}
    {w : SourceWalk} {files : List Path} (ht : t.top.WellFormed) (hw : prepare t root c = .ok w)
    (hfiles : w.files t global = .ok files) {p : Path} (hp : p ∈ files) {found : Place}
    (hfound : t.find (w.base.join p) = .ok found) :
    ∃ place, t.find root = .ok place ∧ place.relative? root found.names = some p ∧ w.filter.accepts p = true := by
  obtain ⟨-, hroot, -, hbase⟩ := of_prepare hw
  have hselected := hfiles
  rw [SourceWalk.files, hroot] at hselected
  cases hplace : t.find root with
  | error e => simp [hplace] at hselected
  | ok place =>
    have hisFile := FileTree.isFile_of_find hplace
    simp only [hplace, Except.ok.injEq] at hselected
    have hmem := hp
    rw [← hselected, List.mem_filter] at hmem
    obtain ⟨hmet, haccepts⟩ := hmem
    refine ⟨place, rfl, ?_, haccepts⟩
    cases hentry : place.entry with
    | link target => simp [hentry] at hmet
    | file bytes =>
      -- The root is read through its parent, which leads to the same place.
      simp only [hentry, List.mem_map, Option.mem_toList] at hmet
      obtain ⟨name, hname, heq⟩ := hmet
      have hofNames : p = Path.ofNames [name] := by simp [← heq, Path.ofNames]
      rw [hbase, hisFile, hentry, hofNames] at hfound
      have hsame : found = place := Except.ok.inj (hfound.symm.trans (FileTree.find_join_parent? hname hplace))
      simp [Place.relative?, hentry, hsame, hname, heq]
    | dir entries =>
      obtain ⟨rest, bytes, hofNames, hfile⟩ :=
        exists_file_of_mem_files ht (hroot ▸ hplace) (by simp [hentry, Entry.isDir]) hfiles hp
      rw [hbase, hisFile, hentry, hofNames] at hfound
      have hnames := FileTree.names_of_find_join ((FileTree.wellFormed_find ht hplace).isEntryName_at? hfile) hplace
        hfile hfound
      simp [Place.relative?, hentry, hnames, hofNames]

theorem Analysis.ofFiles_congr {t t' : FileTree} {base : Path} {files : List Path}
    (h : ∀ p ∈ files, t'.read (base.join p) = t.read (base.join p)) : ofFiles t' base files = ofFiles t base files := by
  have hload : ∀ p ∈ files, Go.Source.load t' base p = Go.Source.load t base p := by
    intro p hp
    have htext : t'.readText (base.join p) = t.readText (base.join p) := by
      rw [FileTree.readText, FileTree.readText, h p hp]
    delta Go.Source.load
    rw [htext]
  have hmap : files.mapM (Go.Source.load t' base) = files.mapM (Go.Source.load t base) := by
    clear h
    induction files with
    | nil => rw [List.mapM_nil, List.mapM_nil]
    | cons p files ih =>
      rw [List.mapM_cons, List.mapM_cons, hload p List.mem_cons_self,
        ih fun q hq => hload q (List.mem_cons_of_mem _ hq)]
  rw [ofFiles, ofFiles, hmap]

/-- Replacing the bytes of files that take no part in the walk changes no analysis and no answer. -/
theorem Analysis.ofDirectory_refill {t : FileTree} {root : Path} {c : DiscoveryConfig} {env : Config.Environment}
    {f : List String → Bytes → Bytes} (ht : t.top.WellFormed) (hf : t.SparesWalk root c env f) :
    ofDirectory (t.refill f) root c (globalIgnore? (t.refill f) env) = ofDirectory t root c (globalIgnore? t env) ∧
    ∀ r, Server.handle ⟨root, c, env⟩ (t.refill f) r = Server.handle ⟨root, c, env⟩ t r := by
  have hsame : ofDirectory (t.refill f) root c (globalIgnore? (t.refill f) env) =
      ofDirectory t root c (globalIgnore? t env) := by
    rw [ofDirectory, ofDirectory, SourceWalk.prepare_refill]
    cases hw : SourceWalk.prepare t root c with
    | error e => rfl
    | ok w =>
      obtain ⟨hfilter, -, hgit, -⟩ := SourceWalk.of_prepare hw
      simp only [bind, Except.bind, hf.files_eq ht hgit]
      cases hfiles : w.files t (globalIgnore? t env) with
      | error e => rfl
      | ok files =>
        apply ofFiles_congr
        intro p hp
        apply hf.read_eq
        intro found hfound hbystander
        obtain ⟨place, hplace, hrelative, haccepts⟩ := SourceWalk.accepts_of_find ht hw hfiles hp hfound
        simp [hbystander.rejected place w.filter p hplace hfilter hrelative] at haccepts
  refine ⟨hsame, fun r => ?_⟩
  rw [Server.handle, Server.handle, Server.globalIgnore, Server.globalIgnore, hsame]

def testedEntries (source test : Bytes) : List (String × Entry) :=
  [("a.go", .file source), ("a_test.go", .file test), ("b.go", .link ⟨"a.go"⟩)]

def tested (source test : Bytes) : FileTree := ⟨.dir [("p", .dir (testedEntries source test))], ⟨"/"⟩⟩

theorem wellFormed_tested (source test : Bytes) : (tested source test).top.WellFormed :=
  (Entry.isWellFormed_iff _).1 rfl

/-- The only link of the example. -/
theorem link_tested {source test : Bytes} {link : List String} {target : Path}
    (h : (tested source test).top.at? link = some (.link target)) : link = ["p", "b.go"] := by
  have hmem := Entry.mem_contents (wellFormed_tested source test) h
  simp [tested, testedEntries, Entry.contents, Entry.contentsIn] at hmem
  exact hmem.1

theorem find_link_tested (source test : Bytes) :
    (tested source test).find (FileTree.pathOf ["p", "b.go"]) =
      .ok ⟨(tested source test).top, [("a.go", .file source), ("p", .dir (testedEntries source test))]⟩ := by
  have htarget : Path.components ⟨"a.go"⟩ = [.name "a.go"] := by
    have hpath : (⟨"a.go"⟩ : Path) = Path.ofNames ["a.go"] := by decide
    rw [hpath, Path.components_ofNames (by decide)]
    rfl
  rw [FileTree.find_pathOf (by decide) (by decide)]
  have htwo : 2 ≤ FileTree.maxLinks := by decide
  apply Place.follow_mono htwo
  simp [Place.follow, Place.advance, Place.entry, tested, testedEntries, Entry.isDir, Entry.child?, Entry.entries,
    List.lookup_cons, bind, Except.bind, htarget, pure, Except.pure]

theorem bystander_tested (source test : Bytes) :
    (tested source test).Bystander ⟨"/p"⟩ .standard [] ["p", "a_test.go"] := by
  have hroot : (tested source test).find ⟨"/p"⟩ =
      .ok ⟨(tested source test).top, [("p", .dir (testedEntries source test))]⟩ :=
    FileTree.find_of_child? (by decide) (by decide) rfl
  have hfilter : SourceFilter.ofConfig .standard = .ok ⟨".go", "_test.go", [], []⟩ := rfl
  refine ⟨⟨?_, ?_, ?_, ?_⟩, ?_⟩
  · intro place filter p hplace hconfig hp
    rw [hroot] at hplace
    rw [hfilter] at hconfig
    cases hplace
    cases hconfig
    have hpath : p = ⟨"a_test.go"⟩ := by
      simpa [Place.relative?, Place.entry, Place.names, Path.ofNames, eq_comm] using hp
    rw [hpath]
    decide +kernel
  · exact IgnoreLevel.holdsRules_eq_false _ (by decide)
  · intro _ p place hp
    cases hp
  · intro link target place hlink hplace
    rw [link_tested hlink, find_link_tested] at hplace
    cases hplace
    simp [Place.names]
  · intro _ file hfile
    cases hfile

def spoilt (names : List String) (bytes : Bytes) : Bytes := if names = ["p", "a_test.go"] then [0xff] else bytes

theorem Analysis.ofDirectory_refill_tested :
    let source := Utf8.encode "func A() { B() }"
    ((tested source []).top.WellFormed ∧ (tested source []).SparesWalk ⟨"/p"⟩ .standard [] spoilt) ∧
    ofDirectory (tested source [0xff]) ⟨"/p"⟩ .standard none = ofDirectory (tested source []) ⟨"/p"⟩ .standard none := by
  intro source
  have hspares : (tested source []).SparesWalk ⟨"/p"⟩ .standard [] spoilt := by
    intro names bytes
    by_cases hnames : names = ["p", "a_test.go"]
    · rw [hnames]
      exact .inr (bystander_tested source [])
    · exact .inl (if_neg hnames)
  have hspoilt : (tested source []).refill spoilt = tested source [0xff] := by
    simp [FileTree.refill, Entry.refill, Entry.refillIn, tested, testedEntries, spoilt]
  have hsame := (ofDirectory_refill (wellFormed_tested source []) hspares).1
  rw [hspoilt] at hsame
  exact ⟨⟨wellFormed_tested source [], hspares⟩, hsame⟩

/-- A project with settings of git in it, and a list of rules beside it. -/
def settledEntries (settings : Bytes) : List (String × Entry) :=
  [("a.go", .file (Utf8.encode "package p\n")), ("x", .dir [("git", .dir [("config", .file settings)])])]

def settled (settings : Bytes) : FileTree :=
  ⟨.dir [("w", .dir (settledEntries settings)), ("rules", .file (Utf8.encode "a.go\n"))], ⟨"/"⟩⟩

def settledEnv : Config.Environment := [("XDG_CONFIG_HOME", "/w/x")]

def excluding : Bytes := Utf8.encode "[core]\n\texcludesFile = rules\n"

theorem find_settled (settings : Bytes) :
    (settled settings).find ⟨"/w"⟩ = .ok ⟨(settled settings).top, [("w", .dir (settledEntries settings))]⟩ :=
  FileTree.find_of_child? (by decide) (by decide) rfl

theorem outsider_settled : (settled []).Outsider ⟨"/w"⟩ .standard settledEnv ["w", "x", "git", "config"] := by
  have hfilter : SourceFilter.ofConfig .standard = .ok ⟨".go", "_test.go", [], []⟩ := rfl
  have hglobal : globalIgnore? (settled []) settledEnv = some ⟨"/w/x/git/ignore"⟩ := by decide +kernel
  have hmissing : ((settled []).find ⟨"/w/x/git/ignore"⟩).toOption.isNone := by decide +kernel
  refine ⟨?_, ?_, ?_, ?_⟩
  · intro place filter p hplace hconfig hp
    rw [find_settled] at hplace
    rw [hfilter] at hconfig
    cases hplace
    cases hconfig
    have hpath : p = Path.ofNames ["x", "git", "config"] := by
      simpa [Place.relative?, Place.entry, Place.names, eq_comm] using hp
    rw [hpath]
    decide +kernel
  · exact IgnoreLevel.holdsRules_eq_false _ (by decide)
  · intro _ p place hp hplace
    rw [hglobal] at hp
    cases hp
    simp [hplace, Except.toOption] at hmissing
  · intro link target place hlink
    have hwell : (settled []).top.WellFormed := by decide
    have hmem := Entry.mem_contents hwell hlink
    simp [settled, settledEntries, Entry.contents, Entry.contentsIn] at hmem

theorem walkEntry_settled (t : FileTree) (git : Bool) (rules : IgnoreRules) (settings : Bytes) :
    walkEntry t git rules ["w"] (.dir (settledEntries settings)) =
      let inner := rules.enter t git ["w"]
      (if inner.skips ["w", "a.go"] false then [] else [["w", "a.go"]]) ++
        if inner.skips ["w", "x"] true then []
        else walkEntry t git inner ["w", "x"] (.dir [("git", .dir [("config", .file settings)])]) := by
  have hsorted : ∀ met met' : List (List String),
      [("a.go", met), ("x", met')].mergeSort (fun a b => a.1 ≤ b.1) = [("a.go", met), ("x", met')] := by
    intro met met'
    simp [List.mergeSort]
  rw [walkEntry]
  simp only [settledEntries, walkEntries, walkEntry.eq_1, hsorted, List.flatMap_cons, List.flatMap_nil,
    List.append_nil, Entry.isDir, List.cons_append, List.nil_append]
  rfl

/-- Settings of git decide over the sources although they hold no rules: these leave none. -/
theorem Analysis.ofDirectory_refill_settled :
    let settle := fun names bytes => if names = ["w", "x", "git", "config"] then excluding else bytes
    (settled []).top.WellFormed ∧ (settled []).Outsider ⟨"/w"⟩ .standard settledEnv ["w", "x", "git", "config"] ∧
    (ofDirectory (settled []) ⟨"/w"⟩ .standard (globalIgnore? (settled []) settledEnv)).toOption.map (·.files) =
      some [⟨"a.go"⟩] ∧
    (ofDirectory ((settled []).refill settle) ⟨"/w"⟩ .standard
      (globalIgnore? ((settled []).refill settle) settledEnv)).toOption.map (·.files) = some [] := by
  intro settle
  have hprepare : ∀ settings, SourceWalk.prepare (settled settings) ⟨"/w"⟩ .standard =
      .ok ⟨⟨"/w"⟩, ⟨"/w"⟩, ⟨".go", "_test.go", [], []⟩, true⟩ := by
    intro settings
    have hfilter : SourceFilter.ofConfig .standard = .ok ⟨".go", "_test.go", [], []⟩ := rfl
    have hgit : DiscoveryConfig.standard.respectGitignore = true := rfl
    simp [SourceWalk.prepare, FileTree.exists?, FileTree.isFile, FileTree.find?, find_settled, hfilter, hgit,
      Place.entry, Entry.isFile, Except.toOption]
  have hrefill : (settled []).refill settle = settled excluding := by
    simp [FileTree.refill, Entry.refill, Entry.refillIn, settled, settledEntries, settle]
  refine ⟨by decide, outsider_settled, ?_, ?_⟩
  · simp only [ofDirectory, hprepare, bind, Except.bind, SourceWalk.files, find_settled, Place.entry, Place.names,
      List.map_cons, List.map_nil, List.reverse_singleton, walkEntry_settled]
    decide +kernel
  · rw [hrefill]
    simp only [ofDirectory, hprepare, bind, Except.bind, SourceWalk.files, find_settled, Place.entry, Place.names,
      List.map_cons, List.map_nil, List.reverse_singleton, walkEntry_settled]
    decide +kernel

end CallLineage
