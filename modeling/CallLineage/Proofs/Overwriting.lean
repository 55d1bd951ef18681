import CallLineage.Proofs.Lookup
/-! Writing a file into a tree.
The file stands under its names afterwards, and every other entry is as it was. Directories and links on the way to a
path are none the less there, so a path leads under the names it led under before. -/
namespace CallLineage

/-! ## Entries -/

namespace Entry

def hollow : Entry → Entry
  | .dir _ => .dir []
  | .file bytes => .file bytes
  | .link target => .link target

/-- Whether two entries are of one kind: directories, files, or links to the same path. -/
def Alike : Entry → Entry → Prop
  | .dir _, .dir _ => True
  | .file _, .file _ => True
  | .link p, .link q => p = q
  | _, _ => False

theorem hollow_of_isDir {e : Entry} (h : e.isDir = true) : e.hollow = .dir [] := by
  cases e with
  | dir entries => rfl
  | file bytes => cases h
  | link target => cases h

theorem alike_of_hollow {e e' : Entry} (h : e'.hollow = e.hollow) : e.Alike e' := by
  cases e <;> cases e' <;> simp_all [hollow, Alike]

theorem Alike.isDir_eq {e e' : Entry} (h : e.Alike e') : e'.isDir = e.isDir := by
  cases e <;> cases e' <;> first | rfl | exact h.elim

theorem lookup_setChild (es : List (String × Entry)) (name n : String) (e : Entry) :
    (setChild es name e).lookup n = if n = name then some e else es.lookup n := by
  by_cases hn : n = name
  · subst hn
    rw [setChild, if_pos rfl]
    induction es with
    | nil => simp
    | cons x es ih =>
      obtain ⟨k, v⟩ := x
      by_cases hk : k = n
      · simp [hk]
      · have hb : (n == k) = false := beq_false_of_ne (Ne.symm hk)
        by_cases hany : (es.any fun x => x.1 == n) = true
        · simpa [hk, hb, hany, List.lookup_cons] using ih
        · simpa [hk, hb, hany, List.lookup_cons] using ih
  · have hb : (n == name) = false := beq_false_of_ne hn
    have hmap : (es.map fun x => if x.1 == name then (name, e) else x).lookup n = es.lookup n := by
      induction es with
      | nil => rfl
      | cons x es ih =>
        obtain ⟨k, v⟩ := x
        rw [List.map_cons]
        by_cases hk : k = name
        · rw [if_pos (beq_iff_eq.2 hk), List.lookup_cons, List.lookup_cons, ih, hk, hb]
        · rw [if_neg (by simpa using hk), List.lookup_cons, List.lookup_cons, ih]
    rw [setChild, if_neg hn]
    split
    · exact hmap
    · simp [List.lookup_append, hb, List.lookup_cons]

theorem child?_set (new e : Entry) (name n : String) (rest : List String) :
    (set new (name :: rest) e).child? n =
      if n = name then some (set new rest ((e.child? name).getD (.dir []))) else e.child? n :=
  lookup_setChild e.entries name n _

theorem at?_set_self (new e : Entry) (names : List String) : (set new names e).at? names = some new := by
  induction names generalizing e with
  | nil => rfl
  | cons name names ih => simp [at?, child?_set, ih]

/-- What has an entry below it is a directory. -/
theorem isDir_of_at?_append {e below : Entry} {front rest : List String} (h : e.at? (front ++ rest) = some below)
    (hrest : rest ≠ []) : (e.at? front).any isDir = true := by
  rw [at?_append, Option.bind_eq_some_iff] at h
  obtain ⟨d, hd, hbelow⟩ := h
  obtain ⟨n, rest, rfl⟩ := List.exists_cons_of_ne_nil hrest
  rw [at?, Option.bind_eq_some_iff] at hbelow
  obtain ⟨child, hchild, -⟩ := hbelow
  simp [hd, isDir_of_child? hchild]

/-- Directories stand on the way to the names, whether or not something stands there. -/
def HasWay (e : Entry) (names : List String) : Prop :=
  ∀ front rest, names = front ++ rest → rest ≠ [] → (e.at? front).any isDir = true

theorem hasWay_of_at? {e below : Entry} {names : List String} (h : e.at? names = some below) : e.HasWay names := by
  intro front rest hnames hrest
  exact isDir_of_at?_append (hnames ▸ h) hrest

theorem hasWay_concat {e d : Entry} {front : List String} {name : String} (h : e.at? front = some d)
    (hdir : d.isDir = true) : e.HasWay (front ++ [name]) := by
  intro before rest hnames hrest
  obtain ⟨last, c, rfl⟩ := (List.eq_nil_or_concat rest).resolve_left hrest
  rw [List.concat_eq_append, ← List.append_assoc] at hnames
  obtain ⟨rfl, -⟩ := List.append_inj' hnames rfl
  by_cases hlast : last = []
  · subst hlast
    rw [List.append_nil] at h
    simp [h, hdir]
  · exact isDir_of_at?_append h hlast

/-- Where nothing stands or a file, nothing stands below. -/
theorem at?_append_eq_none {e : Entry} {names rest : List String} (hrest : rest ≠ [])
    (h : e.at? names = none ∨ ∃ bytes, e.at? names = some (.file bytes)) : e.at? (names ++ rest) = none := by
  cases hbelow : e.at? (names ++ rest) with
  | none => rfl
  | some below =>
    have hdir := isDir_of_at?_append hbelow hrest
    rcases h with h | ⟨bytes, h⟩ <;> simp [h, isDir] at hdir

/-- Entries that are not below the names of a new one are as they were. -/
theorem hollow_at?_set {new e : Entry} {names other : List String} (hway : e.HasWay names)
    (hother : ¬names <+: other) : ((set new names e).at? other).map hollow = (e.at? other).map hollow := by
  induction names generalizing e other with
  | nil => exact absurd List.nil_prefix hother
  | cons name names ih =>
    have hdir : e.isDir = true := by simpa [at?] using hway [] (name :: names) rfl (List.cons_ne_nil _ _)
    cases other with
    | nil => rw [at?, at?, Option.map_some, Option.map_some, hollow_of_isDir hdir, set, hollow]
    | cons n other =>
      rw [at?, at?, child?_set]
      by_cases hn : n = name
      · subst hn
        have hinner : ¬names <+: other := fun hprefix => hother (List.cons_prefix_cons.2 ⟨rfl, hprefix⟩)
        have hchild : ∃ child, e.child? n = some child := by
          have hne : names ≠ [] := fun hnil => hinner (hnil ▸ List.nil_prefix)
          have hfront := hway [n] names rfl hne
          cases hc : e.child? n with
          | none => simp [at?, hc] at hfront
          | some child => exact ⟨child, rfl⟩
        obtain ⟨child, hchild⟩ := hchild
        have hbelow : child.HasWay names := by
          intro front rest hnames hrest
          have hfront := hway (n :: front) rest (by rw [hnames, List.cons_append]) hrest
          simpa [at?, hchild] using hfront
        rw [if_pos rfl, hchild]
        exact ih hbelow hinner
      · rw [if_neg hn]

/-- Whatever stands in one entry stands in another under the same names, and is of its kind there. -/
def Covers (e' e : Entry) : Prop :=
  ∀ names below, e.at? names = some below → ∃ below', e'.at? names = some below' ∧ below.Alike below'

end Entry

/-! ## Look-ups -/

namespace Place

structure Mirrors (top top' : Entry) (p p' : Place) : Prop where
  top_eq : p.top = top
  top_eq' : p'.top = top'
  stands : p.Stands
  stands' : p'.Stands
  inner_eq : p'.inner.map Prod.fst = p.inner.map Prod.fst

/-- Where walks in two trees came to: places of the same names, or the same link. -/
def Reached.Mirrors (top top' : Entry) : Reached → Reached → Prop
  | .place p, .place p' => Place.Mirrors top top' p p'
  | .link directory target rest, .link directory' target' rest' =>
    Place.Mirrors top top' directory directory' ∧ target' = target ∧ rest' = rest
  | _, _ => False

theorem mirrors_top (top top' : Entry) : Mirrors top top' ⟨top, []⟩ ⟨top', []⟩ :=
  ⟨rfl, rfl, stands_top top, stands_top top', rfl⟩

namespace Mirrors

variable {top top' : Entry} {p p' : Place}

theorem names_eq (h : Mirrors top top' p p') : p'.names = p.names := by
  rw [names, names, h.inner_eq]

theorem at?_names (h : Mirrors top top' p p') : top.at? p.names = some p.entry ∧ top'.at? p.names = some p'.entry := by
  have hself : p.top.at? p.names = some p.entry := h.stands p.inner (List.suffix_refl _)
  have hself' : p'.top.at? p'.names = some p'.entry := h.stands' p'.inner (List.suffix_refl _)
  rw [h.top_eq] at hself
  rw [h.top_eq', h.names_eq] at hself'
  exact ⟨hself, hself'⟩

theorem alike (hcovers : top'.Covers top) (h : Mirrors top top' p p') : p.entry.Alike p'.entry := by
  obtain ⟨hself, hself'⟩ := h.at?_names
  obtain ⟨e', he', halike⟩ := hcovers _ _ hself
  rw [hself'] at he'
  cases he'
  exact halike

theorem outer (h : Mirrors top top' p p') : Mirrors top top' ⟨p.top, p.inner.tail⟩ ⟨p'.top, p'.inner.tail⟩ where
  top_eq := h.top_eq
  top_eq' := h.top_eq'
  stands := kept_stands.outer h.stands
  stands' := kept_stands.outer h.stands'
  inner_eq := by rw [List.map_tail, List.map_tail, h.inner_eq]

theorem exists_child? (hcovers : top'.Covers top) (h : Mirrors top top' p p') {n : String} {e : Entry}
    (he : p.entry.child? n = some e) : ∃ e', p'.entry.child? n = some e' ∧ e.Alike e' ∧
      Mirrors top top' ⟨p.top, (n, e) :: p.inner⟩ ⟨p'.top, (n, e') :: p'.inner⟩ := by
  obtain ⟨hself, hself'⟩ := h.at?_names
  have hbelow : top.at? (p.names ++ [n]) = some e := by simp [Entry.at?_append, hself, Entry.at?, he]
  obtain ⟨e', he', halike⟩ := hcovers _ _ hbelow
  have hchild : p'.entry.child? n = some e' := by simpa [Entry.at?_append, hself', Entry.at?] using he'
  have hinner : ((n, e') :: p'.inner).map Prod.fst = ((n, e) :: p.inner).map Prod.fst := by
    rw [List.map_cons, List.map_cons, h.inner_eq]
  exact ⟨e', hchild, halike, h.top_eq, h.top_eq', kept_stands.inner h.stands he, kept_stands.inner h.stands' hchild,
    hinner⟩

/-- A walk over components goes the same way in the tree where more stands. -/
theorem exists_advance (hcovers : top'.Covers top) (h : Mirrors top top' p p') {cs : List Component} {r : Reached}
    (hr : p.advance cs = .ok r) : ∃ r', p'.advance cs = .ok r' ∧ r.Mirrors top top' r' := by
  induction cs generalizing p p' with
  | nil =>
    cases hr
    exact ⟨.place p', rfl, h⟩
  | cons c cs ih =>
    have hdir : p'.entry.isDir = p.entry.isDir := (h.alike hcovers).isDir_eq
    cases c with
    | root =>
      rw [advance, h.top_eq']
      rw [advance, h.top_eq] at hr
      exact ih (mirrors_top top top') hr
    | here =>
      rw [advance] at hr ⊢
      rw [hdir]
      split at hr
      · rw [if_pos ‹_›]
        exact ih h hr
      · cases hr
    | parent =>
      rw [advance] at hr ⊢
      rw [hdir]
      split at hr
      · rw [if_pos ‹_›]
        exact ih h.outer hr
      · cases hr
    | name n =>
      rw [advance] at hr ⊢
      rw [hdir]
      split at hr
      · cases hr
      · rw [if_neg ‹_›]
        split at hr
        · cases hr
        · rename_i target hchild
          obtain ⟨e', hchild', halike, -⟩ := h.exists_child? hcovers hchild
          cases e' with
          | link target' =>
            cases hr
            rw [hchild']
            exact ⟨_, rfl, h, halike.symm, rfl⟩
          | file bytes => exact halike.elim
          | dir entries => exact halike.elim
        · rename_i e hlink hchild
          obtain ⟨e', hchild', halike, hbelow⟩ := h.exists_child? hcovers hchild
          rw [hchild']
          cases e' with
          | link target' =>
            cases e with
            | link target => exact absurd rfl (hlink target)
            | file bytes => exact halike.elim
            | dir entries => exact halike.elim
          | file bytes => exact ih hbelow hr
          | dir entries => exact ih hbelow hr

theorem exists_follow (hcovers : top'.Covers top) {links : Nat} (h : Mirrors top top' p p') {cs : List Component}
    {q : Place} (hq : follow links p cs = .ok q) : ∃ q', follow links p' cs = .ok q' ∧ Mirrors top top' q q' := by
  induction links generalizing p p' cs with
  | zero => cases hq
  | succ links ih =>
    rcases follow_succ_iff.1 hq with hplace | ⟨directory, target, rest, hlink, htarget, hrest⟩
    · obtain ⟨r', hr', hmirrors⟩ := h.exists_advance hcovers hplace
      cases r' with
      | place q' => exact ⟨q', follow_succ_iff.2 (.inl hr'), hmirrors⟩
      | link directory' target' rest' => exact hmirrors.elim
    · obtain ⟨r', hr', hmirrors⟩ := h.exists_advance hcovers hlink
      cases r' with
      | place q' => exact hmirrors.elim
      | link directory' target' rest' =>
        obtain ⟨hdirectory, rfl, rfl⟩ := hmirrors
        obtain ⟨q', hq', hmirrors⟩ := ih hdirectory hrest
        exact ⟨q', follow_succ_iff.2 (.inr ⟨directory', target', rest', hr', htarget, hq'⟩), hmirrors⟩

end Mirrors

end Place

/-! ## Files -/

namespace FileTree

/-- What writing a file does: the file stands under its names, where nothing stood or a file, and all other entries and
the current directory are as they were. -/
structure Wrote (t t' : FileTree) (names : List String) (bytes : Bytes) : Prop where
  current : t'.current = t.current
  file : t'.top.at? names = some (.file bytes)
  before : t.top.at? names = none ∨ ∃ old, t.top.at? names = some (.file old)
  others : ∀ other, other ≠ names → (t'.top.at? other).map Entry.hollow = (t.top.at? other).map Entry.hollow

def IsLink (t : FileTree) (p : Path) : Prop :=
  ∃ directory name target, t.lastName p = .ok (directory, name) ∧ directory.entry.child? name = some (.link target)

variable {t t' : FileTree} {p : Path} {names : List String} {bytes : Bytes}

theorem wrote_set (hway : t.top.HasWay names)
    (hbefore : t.top.at? names = none ∨ ∃ old, t.top.at? names = some (.file old)) (bytes : Bytes) :
    Wrote t { t with top := Entry.set (.file bytes) names t.top } names bytes where
  current := rfl
  file := Entry.at?_set_self _ _ _
  before := hbefore
  others := by
    intro other hother
    by_cases hbelow : names <+: other
    · -- Below a file nothing stands, neither before nor after.
      obtain ⟨rest, rfl⟩ := hbelow
      have hrest : rest ≠ [] := by simpa using hother
      have hself := Entry.at?_set_self (.file bytes) t.top names
      rw [Entry.at?_append_eq_none hrest hbefore, Entry.at?_append_eq_none hrest (.inr ⟨bytes, hself⟩)]
    · exact Entry.hollow_at?_set hway hbelow

theorem Wrote.covers (h : Wrote t t' names bytes) : t'.top.Covers t.top := by
  intro other e he
  by_cases hother : other = names
  · subst hother
    refine ⟨_, h.file, ?_⟩
    rcases h.before with hnone | ⟨old, hold⟩
    · simp [hnone] at he
    · rw [hold] at he
      cases he
      trivial
  · have hsame := h.others other hother
    rw [he, Option.map_some, Option.map_eq_some_iff] at hsame
    obtain ⟨e', he', hhollow⟩ := hsame
    exact ⟨e', he', Entry.alike_of_hollow hhollow⟩

/-- The file that is written is read by every path that leads to it. -/
theorem Wrote.read_eq (h : Wrote t t' names bytes) {place : Place} (hfind : t'.find p = .ok place)
    (hnames : place.names = names) : t'.read p = .ok bytes := by
  have hself : place.top.at? place.names = some place.entry := stands_of_find hfind place.inner (List.suffix_refl _)
  rw [top_of_find hfind, hnames, h.file] at hself
  cases hentry : place.entry <;> simp_all [read, bind, Except.bind, pure, Except.pure]

theorem absolute_congr (h : t'.current = t.current) (p : Path) : t'.absolute p = t.absolute p := by
  rw [absolute, absolute, h]

theorem find_eq_ok_iff {place : Place} : t.find p = .ok place ↔ p.text ≠ "" ∧
    Place.follow maxLinks ⟨t.top, []⟩ (t.absolute p) = .ok place ∧ (wantsDir p = true → place.entry.isDir = true) := by
  by_cases htext : p.text = ""
  · simp [find, htext, bind, Except.bind]
  · cases hfollow : Place.follow maxLinks ⟨t.top, []⟩ (t.absolute p) with
    | error e => simp [find, htext, hfollow, bind, Except.bind]
    | ok found =>
      by_cases hdir : wantsDir p = true → found.entry.isDir = true
      · have hpass : (wantsDir p && !found.entry.isDir) = false := by
          cases hwants : wantsDir p <;> simp_all
        simp [find, htext, hfollow, hpass, bind, Except.bind, pure, Except.pure]
        rintro rfl
        exact hdir
      · have hstop : (wantsDir p && !found.entry.isDir) = true := by
          cases hwants : wantsDir p <;> simp_all
        simp [find, htext, hfollow, hstop, bind, Except.bind]
        rintro rfl
        simpa using hdir

/-- A path leads under the same names after a file is written. -/
theorem Wrote.exists_find (h : Wrote t t' names bytes) {place : Place} (hfind : t.find p = .ok place) :
    ∃ place', t'.find p = .ok place' ∧ place'.names = place.names := by
  obtain ⟨htext, hfollow, hwants⟩ := find_eq_ok_iff.1 hfind
  obtain ⟨place', hfollow', hmirrors⟩ := (Place.mirrors_top t.top t'.top).exists_follow h.covers hfollow
  have hdir : place'.entry.isDir = place.entry.isDir := (hmirrors.alike h.covers).isDir_eq
  refine ⟨place', find_eq_ok_iff.2 ⟨htext, ?_, ?_⟩, hmirrors.names_eq⟩
  · rw [absolute_congr h.current, hfollow']
  · rw [hdir]
    exact hwants

/-- The last name of a path stands in the directory that the components before it lead to. -/
theorem exists_of_lastName {directory : Place} {name : String} (h : t.lastName p = .ok (directory, name)) :
    ∃ front, p.text ≠ "" ∧ t.absolute p = front ++ [.name name] ∧
      Place.follow maxLinks ⟨t.top, []⟩ front = .ok directory ∧ directory.entry.isDir = true := by
  rw [lastName] at h
  split at h
  · rename_i last parent hname hparent
    obtain ⟨init, hparts⟩ := Path.exists_parts_of_fileName? hname
    obtain ⟨q, hq, hlead, hinit⟩ := Path.exists_parent? hparts
    rw [hparent] at hq
    cases hq
    obtain ⟨start, hself, habove⟩ := exists_absolute_eq (t := t) hlead
    rw [hparts, ← List.append_assoc] at hself
    rw [hinit] at habove
    have htext : p.text ≠ "" := by
      intro hempty
      simp [Path.parts, hempty, Path.segments, Path.componentOf] at hparts
    cases hfollow : Place.follow maxLinks ⟨t.top, []⟩ (t.absolute parent) with
    | error e => simp [hfollow, bind, Except.bind] at h
    | ok place =>
      by_cases hdir : place.entry.isDir = true
      · simp [hfollow, hdir, bind, Except.bind, pure, Except.pure] at h
        obtain ⟨rfl, rfl⟩ := h
        exact ⟨start ++ init, htext, hself, habove ▸ hfollow, hdir⟩
      · simp [hfollow, hdir, bind, Except.bind] at h
  · cases h

/-- What is no link is made under its last name. -/
theorem exists_of_newPlace {links : Nat} (h : t.newPlace links p = .ok names) (hlink : ¬t.IsLink p) :
    wantsDir p = false ∧
      ∃ directory name, t.lastName p = .ok (directory, name) ∧ names = directory.names ++ [name] := by
  cases links with
  | zero => cases h
  | succ links =>
    cases hwants : wantsDir p with
    | true => simp [newPlace, hwants, bind, Except.bind] at h
    | false =>
      cases hlast : t.lastName p with
      | error e => simp [newPlace, hwants, hlast, bind, Except.bind] at h
      | ok last =>
        obtain ⟨directory, name⟩ := last
        simp only [newPlace, hwants, hlast, Bool.false_eq_true, if_false, bind, Except.bind, pure, Except.pure] at h
        refine ⟨rfl, directory, name, rfl, ?_⟩
        split at h
        · rename_i target hchild
          exact absurd ⟨directory, name, target, hlast, hchild⟩ hlink
        · cases h
          rfl

/-- A file that was missing is made in the directory where it was looked for. -/
theorem exists_wrote_of_missing (hmissing : t.find p = .error .notFound) {links : Nat}
    (hnew : t.newPlace links p = .ok names) (hlink : ¬t.IsLink p) (bytes : Bytes) :
    Wrote t { t with top := Entry.set (.file bytes) names t.top } names bytes ∧
      ∃ place, find { t with top := Entry.set (.file bytes) names t.top } p = .ok place ∧ place.names = names := by
  obtain ⟨hwants, directory, name, hlast, rfl⟩ := exists_of_newPlace hnew hlink
  obtain ⟨front, htext, habsolute, hfollow, hdir⟩ := exists_of_lastName hlast
  have hself : t.top.at? directory.names = some directory.entry := by
    rw [← (Place.kept_top t.top).follow rfl hfollow]
    exact Place.kept_stands.follow (Place.stands_top t.top) hfollow directory.inner (List.suffix_refl _)
  have hbelow : t.top.at? (directory.names ++ [name]) = directory.entry.at? [name] := by
    rw [Entry.at?_append, hself, Option.bind_some]
  have hnone : t.top.at? (directory.names ++ [name]) = none := by
    rw [hbelow]
    cases hchild : directory.entry.at? [name] with
    | none => rfl
    | some e =>
      -- What stands there would have been found, or it is a link.
      have hplain : ∀ target, e ≠ .link target := by
        rintro target rfl
        exact hlink ⟨directory, name, target, hlast, by simpa [Entry.at?] using hchild⟩
      obtain ⟨found, hadvance, -, -⟩ := Place.exists_advance_names hplain hchild
      have hfind : t.find p = .ok found := by
        refine find_eq_ok_iff.2 ⟨htext, ?_, by simp [hwants]⟩
        rw [habsolute]
        exact Place.follow_append hfollow hadvance
      rw [hmissing] at hfind
      cases hfind
  have hwrote := wrote_set (Entry.hasWay_concat hself hdir) (.inl hnone) bytes
  refine ⟨hwrote, ?_⟩
  obtain ⟨directory', hfollow', hmirrors⟩ := (Place.mirrors_top t.top _).exists_follow hwrote.covers hfollow
  have hchild : directory'.entry.at? [name] = some (.file bytes) := by
    simpa [Entry.at?_append, hmirrors.at?_names.2] using hwrote.file
  obtain ⟨place, hadvance, hnames, -⟩ := Place.exists_advance_names (fun _ => Entry.noConfusion) hchild
  refine ⟨place, find_eq_ok_iff.2 ⟨htext, ?_, by simp [hwants]⟩, ?_⟩
  · rw [absolute_congr hwrote.current, habsolute]
    exact Place.follow_append hfollow' hadvance
  · rw [hnames, hmirrors.names_eq]

/-- Writing to what is no link changes the file that the path then leads to and nothing else, and the file is read
back. -/
theorem exists_wrote_of_write (h : t.write p bytes = .ok t') (hlink : ¬t.IsLink p) :
    ∃ place, t'.find p = .ok place ∧ Wrote t t' place.names bytes ∧ t'.read p = .ok bytes := by
  suffices hplace : ∃ names, Wrote t t' names bytes ∧ ∃ place, t'.find p = .ok place ∧ place.names = names by
    obtain ⟨names, hwrote, place, hfind, rfl⟩ := hplace
    exact ⟨place, hfind, hwrote, hwrote.read_eq hfind rfl⟩
  rw [write] at h
  split at h
  · rename_i place hfind
    split at h
    · rename_i old hentry
      cases h
      have hself : t.top.at? place.names = some (.file old) := by
        rw [← hentry, ← top_of_find hfind]
        exact stands_of_find hfind place.inner (List.suffix_refl _)
      have hwrote := wrote_set (Entry.hasWay_of_at? hself) (.inr ⟨old, hself⟩) bytes
      exact ⟨place.names, hwrote, hwrote.exists_find hfind⟩
    · cases h
  · rename_i hmissing
    cases hnew : t.newPlace maxLinks p with
    | error e => simp [hnew, bind, Except.bind] at h
    | ok names =>
      rw [hnew] at h
      cases h
      exact ⟨names, exists_wrote_of_missing hmissing hnew hlink bytes⟩
  · cases h

end FileTree

end CallLineage
