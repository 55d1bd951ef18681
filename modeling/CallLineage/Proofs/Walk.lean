import CallLineage.Discovery
import CallLineage.Proofs.Path
/-! The files of a walk come in the order of their paths.
Each directory is gone through in the order of its names, and what is found in an entry is a file below its name; so the
local order gives the order of whole paths. What each step of a look-up keeps holds of every place that a path leads
to. -/
namespace CallLineage

namespace Entry

/-- Directories as a system keeps them: every entry has a name of its own that it may bear. -/
inductive WellFormed : Entry → Prop
  | file (bytes : Bytes) : WellFormed (.file bytes)
  | link (target : Path) : WellFormed (.link target)
  | dir {entries : List (String × Entry)} (distinct : (entries.map Prod.fst).Nodup)
      (named : ∀ e ∈ entries, IsEntryName e.1) (inner : ∀ e ∈ entries, WellFormed e.2) :
      WellFormed (.dir entries)

mutual

def isWellFormed : Entry → Bool
  | .file _ => true
  | .link _ => true
  | .dir entries => decide (entries.map Prod.fst).Nodup && areWellFormed entries

def areWellFormed : List (String × Entry) → Bool
  | [] => true
  | (name, e) :: rest => decide (IsEntryName name) && e.isWellFormed && areWellFormed rest

end

mutual

theorem isWellFormed_iff : (e : Entry) → (e.isWellFormed = true ↔ e.WellFormed)
  | .file bytes => iff_of_true rfl (.file bytes)
  | .link target => iff_of_true rfl (.link target)
  | .dir entries => by
    rw [isWellFormed, Bool.and_eq_true, decide_eq_true_iff, areWellFormed_iff entries]
    constructor
    · rintro ⟨distinct, hentries⟩
      exact .dir distinct (fun e he => (hentries e he).1) fun e he => (hentries e he).2
    · rintro (_ | _ | ⟨distinct, named, inner⟩)
      exact ⟨distinct, fun e he => ⟨named e he, inner e he⟩⟩

theorem areWellFormed_iff : (entries : List (String × Entry)) →
    (areWellFormed entries = true ↔ ∀ e ∈ entries, IsEntryName e.1 ∧ e.2.WellFormed)
  | [] => iff_of_true rfl (List.forall_mem_nil _)
  | (name, e) :: rest => by
    rw [areWellFormed, Bool.and_eq_true, Bool.and_eq_true, decide_eq_true_iff, isWellFormed_iff e,
      areWellFormed_iff rest, List.forall_mem_cons]

end

instance (e : Entry) : Decidable e.WellFormed := decidable_of_iff _ e.isWellFormed_iff

theorem mem_of_lookup {entries : List (String × Entry)} {name : String} {e : Entry}
    (h : entries.lookup name = some e) : (name, e) ∈ entries := by
  induction entries with
  | nil => cases h
  | cons first entries ih =>
    obtain ⟨k, v⟩ := first
    rw [List.lookup_cons] at h
    split at h
    · rename_i hk
      cases h
      rw [beq_iff_eq.1 hk]
      exact List.mem_cons_self
    · exact List.mem_cons_of_mem _ (ih h)

theorem WellFormed.child? {e child : Entry} {name : String} (h : e.WellFormed)
    (hc : e.child? name = some child) : IsEntryName name ∧ child.WellFormed := by
  cases h with
  | file | link => cases hc
  | dir distinct named inner => exact ⟨named _ (mem_of_lookup hc), inner _ (mem_of_lookup hc)⟩

/-! ## Entries below an entry -/

/-- The entry that names lead to from above, without links. -/
def at? : Entry → List String → Option Entry
  | e, [] => some e
  | e, name :: rest => (e.child? name).bind fun child => child.at? rest

theorem lookup_of_mem {entries : List (String × Entry)} {name : String} {e : Entry}
    (distinct : (entries.map Prod.fst).Nodup) (h : (name, e) ∈ entries) : entries.lookup name = some e := by
  induction entries with
  | nil => cases h
  | cons first entries ih =>
    rw [List.map_cons, List.nodup_cons] at distinct
    rw [List.lookup_cons]
    rcases List.mem_cons.1 h with heq | h
    · rw [← heq]
      simp
    · have hne : name ≠ first.1 := by
        intro heq
        exact distinct.1 (List.mem_map.2 ⟨(name, e), h, heq⟩)
      rw [beq_false_of_ne hne]
      exact ih distinct.2 h

theorem at?_file_iff {bytes bytes' : Bytes} {names : List String} :
    (file bytes).at? names = some (file bytes') ↔ names = [] ∧ bytes = bytes' := by
  cases names with
  | nil => simp [at?]
  | cons name rest => simp [at?, child?, entries]

theorem eq_of_at?_link {target : Path} {names : List String} {e : Entry}
    (h : (link target).at? names = some e) : e = link target := by
  cases names with
  | nil => simpa [at?] using h.symm
  | cons name rest => simp [at?, child?, entries] at h

theorem at?_link_ne_file {target : Path} {bytes : Bytes} {names : List String} :
    (link target).at? names ≠ some (file bytes) := by
  intro h
  cases eq_of_at?_link h

theorem at?_cons_iff {entries : List (String × Entry)} (distinct : (entries.map Prod.fst).Nodup) {name : String}
    {rest : List String} {found : Entry} :
    (dir entries).at? (name :: rest) = some found ↔ ∃ e ∈ entries, e.1 = name ∧ e.2.at? rest = some found := by
  simp only [at?, child?, Entry.entries, Option.bind_eq_some_iff]
  constructor
  · intro hfound
    obtain ⟨e, hlookup, hrest⟩ := hfound
    exact ⟨(name, e), mem_of_lookup hlookup, rfl, hrest⟩
  · intro hfound
    obtain ⟨e, he, hname, hrest⟩ := hfound
    rw [← hname]
    exact ⟨e.2, lookup_of_mem distinct he, hrest⟩

theorem WellFormed.isEntryName_at? {e below : Entry} (h : e.WellFormed) {names : List String}
    (hbelow : e.at? names = some below) : ∀ n ∈ names, IsEntryName n := by
  induction names generalizing e with
  | nil => exact List.forall_mem_nil _
  | cons n names ih =>
    rw [at?, Option.bind_eq_some_iff] at hbelow
    obtain ⟨child, hchild, hrest⟩ := hbelow
    exact List.forall_mem_cons.2 ⟨(h.child? hchild).1, ih (h.child? hchild).2 hrest⟩

theorem WellFormed.at? {e below : Entry} (h : e.WellFormed) {names : List String} (hbelow : e.at? names = some below) :
    below.WellFormed := by
  induction names generalizing e with
  | nil => exact Option.some.inj hbelow ▸ h
  | cons n names ih =>
    rw [Entry.at?, Option.bind_eq_some_iff] at hbelow
    obtain ⟨child, hchild, hrest⟩ := hbelow
    exact ih (h.child? hchild).2 hrest

mutual

def contents : Entry → List (List String × Entry)
  | .file bytes => [([], .file bytes)]
  | .link target => [([], .link target)]
  | .dir entries => ([], .dir entries) :: contentsIn entries

def contentsIn : List (String × Entry) → List (List String × Entry)
  | [] => []
  | (name, e) :: rest => (e.contents.map fun b => (name :: b.1, b.2)) ++ contentsIn rest

end

theorem mem_contentsIn {entries : List (String × Entry)} {e : String × Entry} (he : e ∈ entries) {names : List String}
    {found : Entry} (h : (names, found) ∈ e.2.contents) : (e.1 :: names, found) ∈ contentsIn entries := by
  induction entries with
  | nil => cases he
  | cons first entries ih =>
    rw [contentsIn, List.mem_append]
    rcases List.mem_cons.1 he with rfl | he
    · exact .inl (List.mem_map_of_mem (f := fun b => (e.1 :: b.1, b.2)) h)
    · exact .inr (ih he)

theorem mem_contents {e found : Entry} (h : e.WellFormed) {names : List String} (hat : e.at? names = some found) :
    (names, found) ∈ e.contents := by
  induction h generalizing names with
  | file | link =>
    cases names with
    | nil => simpa [at?, contents, eq_comm] using hat
    | cons n names => simp [at?, child?, Entry.entries] at hat
  | @dir entries distinct named inner ih =>
    cases names with
    | nil =>
      cases hat
      exact List.mem_cons_self
    | cons n names =>
      obtain ⟨e, he, rfl, hrest⟩ := (at?_cons_iff distinct).1 hat
      exact List.mem_cons_of_mem _ (mem_contentsIn he (ih e he hrest))

end Entry

/-! ## Places -/

namespace Place

/-- The entries on the way to a place are well formed and have names that they may bear. -/
structure WellFormed (p : Place) : Prop where
  top : p.top.WellFormed
  inner : ∀ e ∈ p.inner, IsEntryName e.1 ∧ e.2.WellFormed

theorem WellFormed.entry {p : Place} (h : p.WellFormed) : p.entry.WellFormed := by
  rw [Place.entry]
  split
  · rename_i name e inner heq
    exact (h.inner (name, e) (heq ▸ List.mem_cons_self)).2
  · exact h.top

theorem WellFormed.isEntryName_names {p : Place} (h : p.WellFormed) : ∀ n ∈ p.names, IsEntryName n := by
  intro n hn
  obtain ⟨e, he, hname⟩ := List.mem_map.1 (List.mem_reverse.1 hn)
  exact hname ▸ (h.inner e he).1

/-- The place that a walk over components comes to, or the directory of the link where it stops. -/
def Reached.at : Reached → Place
  | .place p => p
  | .link directory _ _ => directory

/-- What every step of a walk over components keeps: back to the top, out of a directory, into a directory. -/
structure Kept (P : Place → Prop) : Prop where
  top : ∀ {p : Place}, P p → P ⟨p.top, []⟩
  outer : ∀ {p : Place}, P p → P ⟨p.top, p.inner.tail⟩
  inner : ∀ {p : Place} {n : String} {e : Entry}, P p → p.entry.child? n = some e → P ⟨p.top, (n, e) :: p.inner⟩

theorem Kept.advance {P : Place → Prop} (hP : Kept P) {p : Place} {cs : List Component} {r : Reached} (h : P p)
    (hr : p.advance cs = .ok r) : P r.at := by
  induction cs generalizing p with
  | nil =>
    cases hr
    exact h
  | cons c cs ih =>
    cases c with
    | root => exact ih (hP.top h) hr
    | here =>
      rw [Place.advance] at hr
      split at hr
      · exact ih h hr
      · cases hr
    | parent =>
      rw [Place.advance] at hr
      split at hr
      · exact ih (hP.outer h) hr
      · cases hr
    | name n =>
      rw [Place.advance] at hr
      split at hr
      · cases hr
      · split at hr
        · cases hr
        · cases hr
          exact h
        · rename_i e _ he
          exact ih (hP.inner h he) hr

/-- A look-up comes to its end without a link, or it goes on from the first link. -/
theorem follow_succ_iff {links : Nat} {p q : Place} {cs : List Component} :
    follow (links + 1) p cs = .ok q ↔ p.advance cs = .ok (.place q) ∨
      ∃ directory target rest, p.advance cs = .ok (.link directory target rest) ∧ target.text ≠ "" ∧
        follow links directory (target.components ++ rest) = .ok q := by
  rw [follow]
  cases p.advance cs with
  | error e => simp [bind, Except.bind]
  | ok reached =>
    cases reached with
    | place r => simp [bind, Except.bind, pure, Except.pure]
    | link directory target rest =>
      by_cases htarget : target.text = ""
      · simp [bind, Except.bind, htarget]
      · simp only [bind, Except.bind, String.isEmpty_iff, htarget, if_false, Except.ok.injEq, reduceCtorEq, false_or,
          Reached.link.injEq]
        constructor
        · intro h
          exact ⟨directory, target, rest, ⟨rfl, rfl, rfl⟩, htarget, h⟩
        · intro hfound
          obtain ⟨_, _, _, ⟨hd, ht, hr⟩, _, h⟩ := hfound
          rw [hd, ht, hr]
          exact h

theorem Kept.follow {P : Place → Prop} (hP : Kept P) {links : Nat} {p q : Place} {cs : List Component} (h : P p)
    (hq : Place.follow links p cs = .ok q) : P q := by
  induction links generalizing p cs with
  | zero => cases hq
  | succ links ih =>
    rcases follow_succ_iff.1 hq with hplace | ⟨directory, target, rest, hlink, -, hrest⟩
    · exact hP.advance h hplace
    · exact ih (hP.advance h hlink) hrest

theorem kept_wellFormed : Kept WellFormed where
  top h := ⟨h.top, List.forall_mem_nil _⟩
  outer h := ⟨h.top, fun e he => h.inner e (List.mem_of_mem_tail he)⟩
  inner h he := ⟨h.top, List.forall_mem_cons.2 ⟨h.entry.child? he, h.inner⟩⟩

end Place

namespace FileTree

variable {t : FileTree} {p : Path} {place : Place}

theorem follow_of_find (h : t.find p = .ok place) :
    p.text ≠ "" ∧ Place.follow maxLinks ⟨t.top, []⟩ (t.absolute p) = .ok place := by
  simp only [find, bind, Except.bind] at h
  split at h
  · cases h
  · rename_i hempty
    split at h
    · cases h
    · rename_i hfollow
      split at h
      · cases h
      · cases h
        exact ⟨by simpa using hempty, hfollow⟩

theorem isFile_of_find (h : t.find p = .ok place) : t.isFile p = place.entry.isFile := by
  simp [isFile, find?, h, Except.toOption]

theorem wellFormed_of_find (ht : t.top.WellFormed) (h : t.find p = .ok place) : place.WellFormed :=
  have hstart : Place.WellFormed ⟨t.top, []⟩ := ⟨ht, List.forall_mem_nil _⟩
  Place.kept_wellFormed.follow hstart (follow_of_find h).2

theorem wellFormed_find (ht : t.top.WellFormed) (h : t.find p = .ok place) : place.entry.WellFormed :=
  (wellFormed_of_find ht h).entry

end FileTree

/-! ## Walks -/

theorem walkEntries_eq (t : FileTree) (git : Bool) (rules : IgnoreRules) (names : List String)
    (entries : List (String × Entry)) :
    walkEntries t git rules names entries =
      entries.map fun e => (e.1,
        if rules.skips (names ++ [e.1]) e.2.isDir then [] else walkEntry t git rules (names ++ [e.1]) e.2) := by
  induction entries with
  | nil => rfl
  | cons e entries ih =>
    rw [walkEntries, ih]
    rfl

/-- Two walks over an entry meet the same files if their rules stay alike: rules that are alike before a directory skip
the same entries of it, and are alike for what is below them. -/
theorem walkEntry_congr {t t' : FileTree} {git : Bool} {R : List String → IgnoreRules → IgnoreRules → Prop}
    {e : Entry} (h : e.WellFormed) {names : List String} {r r' : IgnoreRules} (hr : R names r r')
    (hstep : ∀ rest entries, e.at? rest = some (.dir entries) → ∀ r r', R (names ++ rest) r r' →
      ∀ inner ∈ entries, ∀ isDir,
        (r.enter t git (names ++ rest)).skips (names ++ rest ++ [inner.1]) isDir =
          (r'.enter t' git (names ++ rest)).skips (names ++ rest ++ [inner.1]) isDir ∧
        R (names ++ rest ++ [inner.1]) (r.enter t git (names ++ rest)) (r'.enter t' git (names ++ rest))) :
    walkEntry t git r names e = walkEntry t' git r' names e := by
  induction h generalizing names r r' with
  | file bytes => rw [walkEntry, walkEntry]
  | link target => rw [walkEntry, walkEntry]
  | @dir entries distinct named inner ih =>
    rw [walkEntry, walkEntry, walkEntries_eq, walkEntries_eq]
    have hfound : ∀ e ∈ entries,
        (e.1, if (r.enter t git names).skips (names ++ [e.1]) e.2.isDir then []
          else walkEntry t git (r.enter t git names) (names ++ [e.1]) e.2) =
        (e.1, if (r'.enter t' git names).skips (names ++ [e.1]) e.2.isDir then []
          else walkEntry t' git (r'.enter t' git names) (names ++ [e.1]) e.2) := by
      intro e he
      obtain ⟨hskips, halike⟩ := hstep [] entries rfl r r' (by simpa using hr) e he e.2.isDir
      rw [List.append_nil] at hskips halike
      have hbelow := ih e he halike fun rest entries' hat r r' hr => by
        have hat : (Entry.dir entries).at? (e.1 :: rest) = some (.dir entries') :=
          (Entry.at?_cons_iff distinct).2 ⟨e, he, rfl, hat⟩
        simpa using hstep (e.1 :: rest) entries' hat r r' (by simpa using hr)
      rw [hskips, hbelow]
    rw [List.map_congr_left hfound]

/-- Everything that a walk finds in an entry is a file below it. -/
theorem exists_file_of_mem_walkEntry {t : FileTree} {git : Bool} {e : Entry} (h : e.WellFormed)
    {rules : IgnoreRules} {names path : List String} (hp : path ∈ walkEntry t git rules names e) :
    ∃ rest bytes, path = names ++ rest ∧ e.at? rest = some (.file bytes) := by
  induction h generalizing rules names path with
  | file bytes =>
    rw [walkEntry, List.mem_singleton] at hp
    exact ⟨[], bytes, by simpa using hp, rfl⟩
  | link target =>
    rw [walkEntry] at hp
    cases hp
  | @dir entries distinct named inner ih =>
    rw [walkEntry, walkEntries_eq] at hp
    obtain ⟨found, hfound, hp⟩ := List.mem_flatMap.1 hp
    obtain ⟨e, he, heq⟩ := List.mem_map.1 (List.mem_mergeSort.1 hfound)
    rw [← heq] at hp
    dsimp only at hp
    split at hp
    · cases hp
    · obtain ⟨rest, bytes, hpath, hfile⟩ := ih e he hp
      exact ⟨e.1 :: rest, bytes, by simp [hpath], (Entry.at?_cons_iff distinct).2 ⟨e, he, rfl, hfile⟩⟩

theorem exists_names_of_mem_walkEntry {t : FileTree} {git : Bool} {e : Entry} (h : e.WellFormed)
    {rules : IgnoreRules} {names path : List String} (hp : path ∈ walkEntry t git rules names e) :
    ∃ rest, path = names ++ rest ∧ ∀ n ∈ rest, IsEntryName n := by
  obtain ⟨rest, bytes, hpath, hfile⟩ := exists_file_of_mem_walkEntry h hp
  exact ⟨rest, hpath, h.isEntryName_at? hfile⟩

/-- Sorting by distinct names puts them in strict order. -/
theorem pairwise_lt_mergeSort {α : Type} {found : List (String × α)} (hd : (found.map Prod.fst).Nodup) :
    (found.mergeSort fun a b => a.1 ≤ b.1).Pairwise fun a b => a.1 < b.1 := by
  have hle : (found.mergeSort fun a b => a.1 ≤ b.1).Pairwise fun a b => decide (a.1 ≤ b.1) = true := by
    apply List.pairwise_mergeSort
    · intro a b c hab hbc
      simp only [decide_eq_true_eq] at hab hbc ⊢
      exact String.le_trans hab hbc
    · intro a b
      simpa using String.le_total a.1 b.1
  have hne : (found.mergeSort fun a b => a.1 ≤ b.1).Pairwise fun a b => a.1 ≠ b.1 :=
    List.pairwise_map.1 (((List.mergeSort_perm found _).map Prod.fst).nodup_iff.2 hd)
  refine (hle.and hne).imp ?_
  rintro a b ⟨hab, hne⟩
  have hab : a.1 ≤ b.1 := by simpa using hab
  exact Classical.byContradiction fun hlt => hne (String.le_antisymm hab (String.not_lt.1 hlt))

theorem sorted_walkEntry {t : FileTree} {git : Bool} {e : Entry} (h : e.WellFormed) (rules : IgnoreRules)
    (names : List String) : (walkEntry t git rules names e).Pairwise (· < ·) := by
  induction h generalizing rules names with
  | file bytes =>
    rw [walkEntry]
    exact List.pairwise_singleton _ _
  | link target =>
    rw [walkEntry]
    exact .nil
  | @dir entries distinct named inner ih =>
    rw [walkEntry, walkEntries_eq]
    generalize rules.enter t git names = rules
    let found := entries.map fun e => (e.1,
      if rules.skips (names ++ [e.1]) e.2.isDir then [] else walkEntry t git rules (names ++ [e.1]) e.2)
    have hbelow : ∀ f ∈ found, f.2.Pairwise (· < ·) ∧ ∀ path ∈ f.2, ∃ rest, path = names ++ f.1 :: rest := by
      intro f hf
      obtain ⟨e, he, rfl⟩ := List.mem_map.1 hf
      dsimp only
      split
      · exact ⟨.nil, List.forall_mem_nil _⟩
      · refine ⟨ih e he rules _, fun path hp => ?_⟩
        obtain ⟨rest, rfl, -⟩ := exists_names_of_mem_walkEntry (inner e he) hp
        exact ⟨rest, by simp⟩
    have hdistinct : (found.map Prod.fst).Nodup := by
      rw [List.map_map]
      exact distinct
    rw [List.pairwise_flatMap]
    refine ⟨fun f hf => (hbelow f (List.mem_mergeSort.1 hf)).1, ?_⟩
    refine (pairwise_lt_mergeSort hdistinct).imp_of_mem ?_
    intro f f' hf hf' hlt path hp path' hp'
    obtain ⟨rest, rfl⟩ := (hbelow f (List.mem_mergeSort.1 hf)).2 path hp
    obtain ⟨rest', rfl⟩ := (hbelow f' (List.mem_mergeSort.1 hf')).2 path' hp'
    exact List.append_left_lt (List.cons_lt_cons_iff.2 (.inl hlt))

/-! ## Sources -/

theorem lt_of_append_lt {names rest rest' : List String} (h : names ++ rest < names ++ rest') :
    rest < rest' := by
  induction names with
  | nil => exact h
  | cons n names ih =>
    rcases List.cons_lt_cons_iff.1 h with hlt | ⟨-, hlt⟩
    · exact absurd hlt (String.lt_irrefl n)
    · exact ih hlt

namespace SourceWalk

/-- A walk that has been prepared goes by the filter of the configuration, from the root it was prepared for. -/
theorem of_prepare {t : FileTree} {root : Path} {c : DiscoveryConfig} {w : SourceWalk}
    (h : prepare t root c = .ok w) :
    SourceFilter.ofConfig c = .ok w.filter ∧ w.root = root ∧ w.git = c.respectGitignore ∧
      w.base = if t.isFile root then root.parent?.getD ⟨""⟩ else root := by
  simp only [prepare] at h
  split at h
  · cases h
  · split at h
    · cases h
    · rename_i hfilter
      cases h
      exact ⟨hfilter, rfl, rfl, rfl⟩

/-- The sources of a walk have paths made of names, and these come in strict order. -/
theorem exists_names_of_files {w : SourceWalk} {t : FileTree} {global : Option Path} {files : List Path}
    (ht : t.top.WellFormed) (h : w.files t global = .ok files) :
    ∃ found : List (List String), files = found.map Path.ofNames ∧ found.Pairwise (· < ·) ∧
      ∀ names ∈ found, ∀ n ∈ names, IsEntryName n := by
  -- A selection of paths made of names is made of a selection of the names.
  have hselect : ∀ found : List (List String), found.Pairwise (· < ·) →
      (∀ names ∈ found, ∀ n ∈ names, IsEntryName n) →
      ∃ found' : List (List String), (found.map Path.ofNames).filter w.filter.accepts = found'.map Path.ofNames ∧
        found'.Pairwise (· < ·) ∧ ∀ names ∈ found', ∀ n ∈ names, IsEntryName n := by
    intro found hsorted hnames
    refine ⟨found.filter (w.filter.accepts ∘ Path.ofNames), List.filter_map, hsorted.filter _, ?_⟩
    intro names hn
    exact hnames names (List.mem_filter.1 hn).1
  rw [SourceWalk.files] at h
  split at h
  · cases h
  · rename_i place hplace
    have hentry := FileTree.wellFormed_find ht hplace
    cases h
    cases he : place.entry with
    | link target => exact hselect [] .nil (List.forall_mem_nil _)
    | file bytes =>
      cases hname : w.root.fileName? with
      | none => exact hselect [] .nil (List.forall_mem_nil _)
      | some name =>
        have hselected := hselect [[name]] (List.pairwise_singleton _ _)
          (by simpa using Path.isEntryName_of_fileName? hname)
        simpa [Path.ofNames] using hselected
    | dir entries =>
      rw [he] at hentry
      let rules := rulesAbove t w.git global w.root place.names
      let paths := walkEntry t w.git rules place.names (.dir entries)
      have hbelow : ∀ path ∈ paths, ∃ rest, path = place.names ++ rest ∧ ∀ n ∈ rest, IsEntryName n :=
        fun path hp => exists_names_of_mem_walkEntry hentry hp
      have hsorted : (paths.map (List.drop place.names.length)).Pairwise (· < ·) := by
        rw [List.pairwise_map]
        refine (sorted_walkEntry hentry rules place.names).imp_of_mem ?_
        intro path path' hp hp' hlt
        obtain ⟨rest, rfl, -⟩ := hbelow path hp
        obtain ⟨rest', rfl, -⟩ := hbelow path' hp'
        rw [List.drop_left, List.drop_left]
        exact lt_of_append_lt hlt
      have hnames : ∀ names ∈ paths.map (List.drop place.names.length), ∀ n ∈ names, IsEntryName n := by
        intro names hn
        obtain ⟨path, hp, rfl⟩ := List.mem_map.1 hn
        obtain ⟨rest, rfl, hrest⟩ := hbelow path hp
        rwa [List.drop_left]
      have hselected := hselect _ hsorted hnames
      rw [List.map_map] at hselected
      exact hselected

/-- The sources of a directory are files in it. -/
theorem exists_file_of_mem_files {w : SourceWalk} {t : FileTree} {global : Option Path} {files : List Path}
    {place : Place} (ht : t.top.WellFormed) (hfind : t.find w.root = .ok place) (hdir : place.entry.isDir = true)
    (hfiles : w.files t global = .ok files) {file : Path} (hfile : file ∈ files) :
    ∃ names bytes, file = Path.ofNames names ∧ place.entry.at? names = some (.file bytes) := by
  have hwell := FileTree.wellFormed_find ht hfind
  simp only [SourceWalk.files, hfind, Except.ok.injEq] at hfiles
  cases hentry : place.entry with
  | file bytes => simp [hentry, Entry.isDir] at hdir
  | link target => simp [hentry, Entry.isDir] at hdir
  | dir entries =>
    rw [hentry] at hwell hfiles
    rw [← hfiles, List.mem_filter] at hfile
    obtain ⟨path, hpath, heq⟩ := List.mem_map.1 hfile.1
    obtain ⟨rest, bytes, hrest, hbytes⟩ := exists_file_of_mem_walkEntry hwell hpath
    exact ⟨rest, bytes, by rw [← heq, hrest, List.drop_left, Path.ofNames], hbytes⟩

end SourceWalk

end CallLineage
