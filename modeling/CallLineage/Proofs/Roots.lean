import CallLineage.Corpus
import CallLineage.Proofs.Sources
/-! One directory by two paths.
A walk makes the paths of entries from the path of its root as it was given. The rules of a directory at or below the
root see the rest of such a path behind their directory, which is made of names alone. So two walks of the same
directory meet the same files, if no rules see the whole path and the files of rules are found by both. -/
namespace CallLineage

/-! ## What rules see of a path -/

namespace Path

/-- The path does not begin with two steps to the same directory, of which a walk leaves out only one. -/
def Plain (p : Path) : Prop := ¬['.', '/', '.', '/'] <+: p.text.toList ++ ['/']

instance (p : Path) : Decidable p.Plain := inferInstanceAs (Decidable (¬_))

/-- Names do not begin with a step to the same directory. -/
theorem not_dotted_ofNames {names : List String} (h : ∀ n ∈ names, IsEntryName n) (hne : names ≠ []) :
    ¬['.', '/'] <+: (ofNames names).text.toList ++ ['/'] := by
  rintro ⟨rest, htext⟩
  have hsegments := segments_append (ofNames names).text.toList []
  rw [← htext, segments_ofNames h hne] at hsegments
  cases names with
  | nil => exact hne rfl
  | cons n names =>
    have hfirst : n.toList = ['.'] := by
      simp [segments] at hsegments
      exact hsegments.1.symm
    exact (h n List.mem_cons_self).ne_here (String.toList_inj.1 hfirst)

theorem head?_ofNames {names : List String} (h : ∀ n ∈ names, IsEntryName n) :
    (ofNames names).text.toList.head? ≠ some '/' := by
  simpa [isAbsolute] using isAbsolute_ofNames h

/-- A path that stands for the directory where it is looked up begins with a step there. -/
theorem dotted_of_same {p : Path} (h : p.same ⟨"."⟩ = true) : ['.', '/'] <+: p.text.toList ++ ['/'] := by
  have hhere : p.lead ++ p.parts = [.here] := by
    rw [← components_eq]
    exact beq_iff_eq.1 h
  have hlead : p.lead = [.here] := by
    cases hlead : p.lead with
    | nil =>
      have hmem : Component.here ∈ p.parts := by
        rw [hlead, List.nil_append] at hhere
        simp [hhere]
      rcases cases_of_mem_parts hmem with hparent | ⟨name, hname⟩
      · cases hparent
      · cases hname
    | cons c rest =>
      rw [hlead] at hhere
      simp at hhere
      simp [hhere]
  have hfirst : (segments p.text.toList).head? = some ['.'] := by
    rw [lead] at hlead
    split at hlead
    · cases hlead
    · split at hlead
      · assumption
      · cases hlead
  generalize p.text.toList = text at hfirst
  by_cases hslash : '/' ∈ text
  · obtain ⟨front, rest, rfl, hfront⟩ := List.eq_append_cons_of_mem hslash
    rw [segments_append, segments_of_not_mem hfront] at hfirst
    simp at hfirst
    exact ⟨rest ++ ['/'], by simp [hfirst]⟩
  · rw [segments_of_not_mem hslash] at hfirst
    simp at hfirst
    simp [hfirst]

/-- Characters behind a separator add no step to the same directory in front. -/
theorem not_dotted_twice {dir front names : List Char} (hdir : dir = front ∨ dir = front ++ ['/'])
    (h : ¬['.', '/', '.', '/'] <+: dir ++ ['/']) (hnames : ¬['.', '/'] <+: names ++ ['/']) :
    ¬['.', '/', '.', '/'] <+: front ++ '/' :: names ++ ['/'] := by
  match front with
  | [] => simp
  | [a] => simp [hnames]
  | [a, b] => simp
  | [a, b, c] => rcases hdir with rfl | rfl <;> simpa using h
  | a :: b :: c :: d :: front => rcases hdir with rfl | rfl <;> simpa using h

theorem text_descend_ne_empty {p : Path} (h : p.text ≠ "") {names : List String} (hnames : ∀ n ∈ names, IsEntryName n) :
    (p.descend names).text ≠ "" := by
  cases hempty : names with
  | nil => exact h
  | cons n rest =>
    rw [← hempty, descend_of_ne_nil p (hempty ▸ List.cons_ne_nil n rest)]
    obtain ⟨front, hjoin, -⟩ := exists_text_join (isAbsolute_ofNames hnames) h
    intro hnil
    simp [hnil] at hjoin

/-- Going down does not change how a path begins. -/
theorem Plain.descend {p : Path} (hp : p.Plain) {names : List String} (h : ∀ n ∈ names, IsEntryName n)
    (htext : p.text ≠ "") : (p.descend names).Plain := by
  cases hempty : names with
  | nil => exact hp
  | cons n rest =>
    have hne : names ≠ [] := hempty ▸ List.cons_ne_nil n rest
    obtain ⟨front, hjoin, hfront⟩ := exists_text_join (isAbsolute_ofNames h) htext
    rw [← hempty, Plain, descend_of_ne_nil p hne, hjoin]
    exact not_dotted_twice hfront hp (not_dotted_ofNames h hne)

end Path

namespace IgnoreLevel

theorem undotted_of_not_dotted {path : List Char} (h : ¬['.', '/'] <+: path) : undotted path = path := by
  unfold undotted
  split
  · simp at h
  · rfl

/-- A directory in front of a path is taken off, with the separator behind it. -/
theorem behind_of_joined {dir front rest : List Char} (hdir : dir = front ∨ dir = front ++ ['/'])
    (hdotted : ¬['.', '/'] <+: dir ++ ['/']) (hrest : rest.head? ≠ some '/') :
    behind dir (front ++ '/' :: rest) = rest := by
  have hother : (Path.mk (String.ofList dir)).same ⟨"."⟩ = false := by
    rw [← Bool.not_eq_true]
    intro hsame
    exact hdotted (by simpa using Path.dotted_of_same hsame)
  have hfront : dir.isPrefixOf (front ++ '/' :: rest) = true := by
    rw [List.isPrefixOf_iff_prefix]
    rcases hdir with rfl | rfl
    · exact List.prefix_append _ _
    · exact ⟨rest, by simp⟩
  have hslash : (front ++ '/' :: rest).contains '/' = true := by simp
  have hdrop : (front ++ '/' :: rest).drop dir.length = '/' :: rest ∨
      (front ++ '/' :: rest).drop dir.length = rest := by
    rcases hdir with rfl | rfl <;> simp
  rw [behind, hother, hfront, hslash]
  rcases hdrop with hdrop | hdrop <;> rw [hdrop]
  · rfl
  · cases rest with
    | nil => rfl
    | cons c rest =>
      have hc : c ≠ '/' := by simpa using hrest
      simp [hc]

/-- A path that begins with a step to the same directory only where its first part does. -/
theorem not_dotted_joined {dir front rest : List Char} (hdir : dir = front ∨ dir = front ++ ['/'])
    (h : ¬['.', '/'] <+: dir ++ ['/']) : ¬['.', '/'] <+: front ++ '/' :: rest := by
  match front with
  | [] => simp
  | [a] => rcases hdir with rfl | rfl <;> simpa using h
  | a :: b :: front => rcases hdir with rfl | rfl <;> simpa using h

theorem behind_nil {path : List Char} (h : path.head? ≠ some '/') : behind [] path = path := by
  rw [behind]
  split
  · rfl
  · cases path with
    | nil => rfl
    | cons c path =>
      have hc : c ≠ '/' := by simpa using h
      simp [hc]

/-- What is left of a path behind a directory, both without a step to the same directory in front. -/
theorem behind_undotted {dir front rest : List Char} (hdir : dir = front ∨ dir = front ++ ['/'])
    (hplain : ¬['.', '/', '.', '/'] <+: dir ++ ['/']) (hdotted : ¬['.', '/'] <+: rest ++ ['/'])
    (hrest : rest.head? ≠ some '/') : behind (undotted dir) (undotted (undotted (front ++ '/' :: rest))) = rest := by
  have hself : undotted rest = rest :=
    undotted_of_not_dotted fun hfront => hdotted (hfront.trans (List.prefix_append _ _))
  by_cases hstep : ['.', '/'] <+: dir ++ ['/']
  · match dir with
    | [] => simp at hstep
    | [c] =>
      -- The directory is the one where paths are looked up, and nothing is taken off.
      obtain rfl : '.' = c := by simpa using hstep
      have hfront : front = ['.'] := by
        rcases hdir with hdir | hdir
        · exact hdir.symm
        · have hlast := congrArg List.getLast? hdir
          simp at hlast
      have hhere : behind ['.'] rest = rest := by
        have hsame : (Path.mk (String.ofList ['.'])).same ⟨"."⟩ = true := by decide
        simp [behind, hsame]
      rw [hfront]
      exact (congrArg (behind ['.']) hself).trans hhere
    | c :: d :: inner =>
      obtain ⟨rfl, rfl⟩ : '.' = c ∧ '/' = d := by simpa using hstep
      have hinner : ¬['.', '/'] <+: inner ++ ['/'] := by simpa using hplain
      -- One step is taken off both.
      have hjoined : ∀ tail, inner = tail ∨ inner = tail ++ ['/'] →
          behind inner (undotted (tail ++ '/' :: rest)) = rest := by
        intro tail htail
        rw [undotted_of_not_dotted (not_dotted_joined htail hinner)]
        exact behind_of_joined htail hinner hrest
      rcases hdir with hdir | hdir
      · rw [← hdir]
        exact hjoined inner (.inl rfl)
      · match front with
        | [] => simp at hdir
        | [a] =>
          obtain ⟨rfl, rfl⟩ : '.' = a ∧ inner = [] := by simpa using hdir
          exact (congrArg (behind []) hself).trans (behind_nil hrest)
        | a :: b :: tail =>
          obtain ⟨rfl, rfl, htail⟩ : '.' = a ∧ '/' = b ∧ inner = tail ++ ['/'] := by simpa using hdir
          exact hjoined tail (.inr htail)
  · have hpath : undotted (front ++ '/' :: rest) = front ++ '/' :: rest :=
      undotted_of_not_dotted (not_dotted_joined hdir hstep)
    have hname : undotted dir = dir :=
      undotted_of_not_dotted fun hfront => hstep (hfront.trans (List.prefix_append _ _))
    rw [hpath, hpath, hname]
    exact behind_of_joined hdir hstep hrest

/-- The rules of a directory see of a path below it the names that lead there. -/
theorem seenFrom_descend {p : Path} (hp : p.Plain) (htext : p.text ≠ "") {names more : List String}
    (hnames : ∀ n ∈ names, IsEntryName n) (hmore : ∀ n ∈ more, IsEntryName n) (hne : more ≠ []) :
    seenFrom (p.descend names) ⟨String.ofList (undotted (p.descend (names ++ more)).text.toList)⟩ =
      Utf8.encode (Path.ofNames more).text := by
  obtain ⟨front, hpath, hdir⟩ : ∃ front, (p.descend (names ++ more)).text.toList =
      front ++ '/' :: (Path.ofNames more).text.toList ∧
      ((p.descend names).text.toList = front ∨ (p.descend names).text.toList = front ++ ['/']) := by
    rw [← Path.join_descend p hnames hmore hne]
    exact Path.exists_text_join (Path.isAbsolute_ofNames hmore) (Path.text_descend_ne_empty htext hnames)
  have hplain := hp.descend hnames htext
  have hrest := Path.head?_ofNames hmore
  have hdotted := Path.not_dotted_ofNames hmore hne
  rw [Path.Plain] at hplain
  rw [seenFrom, hpath, String.toList_ofList, behind_undotted hdir hplain hdotted hrest, String.ofList_toList]

def kinds : List (IgnoreLevel → List IgnoreRule) := [(·.own), (·.general), (·.git), (·.gitExclude)]

/-- Directories with the same files of rules have the same rules of each kind. -/
theorem kind_load_congr {t : FileTree} {git above : Bool} {dir dir' : Path}
    (h : ∀ file ∈ ruleFiles git, rulesAt t (dir.join ⟨file⟩) = rulesAt t (dir'.join ⟨file⟩)) :
    ∀ kind ∈ kinds, kind (load t git above dir) = kind (load t git above dir') := by
  rw [load_congr h]
  simp [kinds]

end IgnoreLevel

/-! ## Rules of two walks -/

namespace IgnoreRules

/-- The rules of one kind at each level, and what they see of an entry. -/
def views (r : IgnoreRules) (kind : IgnoreLevel → List IgnoreRule) (names : List String) :
    List (List IgnoreRule × Bytes) :=
  r.levels.map fun l =>
    (kind l, IgnoreLevel.seenFrom l.dir (if l.above then FileTree.pathOf names else r.given names))

/-- What the levels say is told by their views. -/
theorem verdictOf?_congr {r r' : IgnoreRules} {kind : IgnoreLevel → List IgnoreRule} {names : List String}
    (h : r.views kind names = r'.views kind names) (isDir : Bool) :
    IgnoreLevel.verdictOf? r.levels kind (r.given names) (FileTree.pathOf names) isDir =
      IgnoreLevel.verdictOf? r'.levels kind (r'.given names) (FileTree.pathOf names) isDir := by
  have hverdicts := congrArg (List.map fun v => IgnoreRule.verdict? v.1 v.2 isDir) h
  simp only [views, List.map_map, Function.comp_def] at hverdicts
  rw [IgnoreLevel.verdictOf?, IgnoreLevel.verdictOf?]
  exact findSome?_congr_map hverdicts

/-- Without rules for all directories, rules with the same views skip the same entries. -/
theorem skips_congr {r r' : IgnoreRules} {names : List String} (h : ∀ kind ∈ IgnoreLevel.kinds,
    r.views kind names = r'.views kind names) (hglobal : r.global = []) (hglobal' : r'.global = []) (isDir : Bool) :
    r.skips names isDir = r'.skips names isDir := by
  have hverdict : r.verdict? names isDir = r'.verdict? names isDir := by
    rw [verdict?, verdict?, hglobal, hglobal', verdictOf?_congr (h (·.own) (by simp [IgnoreLevel.kinds])),
      verdictOf?_congr (h (·.general) (by simp [IgnoreLevel.kinds])),
      verdictOf?_congr (h (·.git) (by simp [IgnoreLevel.kinds])),
      verdictOf?_congr (h (·.gitExclude) (by simp [IgnoreLevel.kinds])), IgnoreRule.verdict?_nil,
      IgnoreRule.verdict?_nil]
  rw [skips, skips, hverdict]

/-- In a directory the rules gain a level, which sees the names below it. -/
theorem views_enter {r : IgnoreRules} {root : Path} {start rest more : List String} {t : FileTree} {git : Bool}
    {kind : IgnoreLevel → List IgnoreRule} (h : r.root = root ∧ r.depth = start.length)
    (hplain : root.Plain ∧ root.text ≠ "") (hrest : ∀ n ∈ rest, IsEntryName n) (hmore : ∀ n ∈ more, IsEntryName n)
    (hne : more ≠ []) :
    (r.enter t git (start ++ rest)).views kind (start ++ rest ++ more) =
      (kind (IgnoreLevel.load t git false (root.descend rest)), Utf8.encode (Path.ofNames more).text) ::
        r.views kind (start ++ rest ++ more) := by
  have hdir : r.pathOf (start ++ rest) = root.descend rest := by simp [pathOf, h.1, h.2]
  have hpath : r.given (start ++ rest ++ more) =
      ⟨String.ofList (IgnoreLevel.undotted (root.descend (rest ++ more)).text.toList)⟩ := by
    simp [given, pathOf, h.1, h.2]
  have hseen := IgnoreLevel.seenFrom_descend hplain.1 hplain.2 hrest hmore hne
  rw [← hpath] at hseen
  rw [← hseen, ← hdir]
  rfl

/-- The rules of two walks that come from different paths to the directory of the names `start`, at the entry of some
names: what they see of everything below it is the same. -/
structure Alike (root root' : Path) (start names : List String) (r r' : IgnoreRules) : Prop where
  given : r.root = root ∧ r.depth = start.length
  given' : r'.root = root' ∧ r'.depth = start.length
  global : r.global = [] ∧ r'.global = []
  views : ∀ kind ∈ IgnoreLevel.kinds, ∀ more, (∀ n ∈ more, IsEntryName n) → more ≠ [] →
    r.views kind (names ++ more) = r'.views kind (names ++ more)

namespace Alike

variable {root root' : Path} {start names rest : List String} {r r' : IgnoreRules} {name : String}

theorem skips_eq (h : Alike root root' start names r r') (hname : IsEntryName name) (isDir : Bool) :
    r.skips (names ++ [name]) isDir = r'.skips (names ++ [name]) isDir :=
  skips_congr (fun kind hkind => h.views kind hkind [name] (by simpa using hname) (List.cons_ne_nil _ _)) h.global.1
    h.global.2 isDir

theorem below (h : Alike root root' start names r r') (hname : IsEntryName name) :
    Alike root root' start (names ++ [name]) r r' where
  given := h.given
  given' := h.given'
  global := h.global
  views kind hkind more hmore _ := by
    rw [List.append_assoc]
    exact h.views kind hkind ([name] ++ more) (List.forall_mem_cons.2 ⟨hname, hmore⟩) (by simp)

/-- The rules stay alike in a directory whose own rules are the same by both paths. -/
theorem enter (h : Alike root root' start (start ++ rest) r r') (hrest : ∀ n ∈ rest, IsEntryName n)
    (hplain : root.Plain ∧ root.text ≠ "") (hplain' : root'.Plain ∧ root'.text ≠ "") {t : FileTree} {git : Bool}
    (hfiles : ∀ file ∈ IgnoreLevel.ruleFiles git, IgnoreLevel.rulesAt t ((root.descend rest).join ⟨file⟩) =
      IgnoreLevel.rulesAt t ((root'.descend rest).join ⟨file⟩)) :
    Alike root root' start (start ++ rest) (r.enter t git (start ++ rest)) (r'.enter t git (start ++ rest)) where
  given := h.given
  given' := h.given'
  global := h.global
  views kind hkind more hmore hne := by
    rw [views_enter h.given hplain hrest hmore hne, views_enter h.given' hplain' hrest hmore hne,
      h.views kind hkind more hmore hne, IgnoreLevel.kind_load_congr hfiles kind hkind]

end Alike

end IgnoreRules

namespace SourceWalk

variable {t : FileTree} {root : Path} {place : Place} {git : Bool} {global : Option Path}

end SourceWalk

/-! ## Analyses of the same place -/

namespace SourceWalk

variable {t : FileTree} {root other : Path} {place : Place} {c : DiscoveryConfig} {global : Option Path}
  {w w' : SourceWalk}

end SourceWalk

namespace Analysis

variable {t : FileTree} {root other base base' : Path} {place : Place} {c : DiscoveryConfig} {global : Option Path}

end Analysis

end CallLineage
