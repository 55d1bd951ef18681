import CallLineage.Proofs.Walk
/-! Looking up paths.
A path that is lengthened by names leads below the place it led to before. In a tree whose files hold other bytes, every
path leads where it led before, and to the same names. -/
namespace CallLineage

/-! ## Paths below a place -/

theorem Entry.isDir_of_child? {e child : Entry} {name : String} (h : e.child? name = some child) :
    e.isDir = true := by
  cases e with
  | dir entries => rfl
  | file bytes => simp [child?, entries] at h
  | link target => simp [child?, entries] at h

theorem Entry.ne_link_of_isDir {e : Entry} (h : e.isDir = true) (target : Path) : e ≠ .link target := by
  rintro rfl
  cases h

namespace Place

theorem names_cons (top e : Entry) (n : String) (inner : List (String × Entry)) :
    names ⟨top, (n, e) :: inner⟩ = names ⟨top, inner⟩ ++ [n] := by
  simp [names]

theorem advance_append (p : Place) (cs more : List Component) :
    p.advance (cs ++ more) =
      match p.advance cs with
      | .ok (.place q) => q.advance more
      | .ok (.link directory target rest) => .ok (.link directory target (rest ++ more))
      | .error e => .error e := by
  induction cs generalizing p with
  | nil => rfl
  | cons c cs ih =>
    cases c with
    | root => exact ih _
    | here =>
      simp only [List.cons_append, advance]
      by_cases hdir : p.entry.isDir = true
      · simpa [hdir] using ih p
      · simp [hdir]
    | parent =>
      simp only [List.cons_append, advance]
      by_cases hdir : p.entry.isDir = true
      · simpa [hdir] using ih _
      · simp [hdir]
    | name n =>
      simp only [List.cons_append, advance]
      by_cases hdir : p.entry.isDir = true
      · cases hchild : p.entry.child? n with
        | none => simp [hdir]
        | some e =>
          cases e with
          | link target => simp [hdir]
          | file bytes => simpa [hdir] using ih _
          | dir entries => simpa [hdir] using ih _
      · simp [hdir]

theorem follow_congr {p p' : Place} {cs cs' : List Component} (h : p.advance cs = p'.advance cs') (links : Nat) :
    follow links p cs = follow links p' cs' := by
  cases links with
  | zero => rfl
  | succ links => rw [follow, follow, h]

/-- A look-up goes on from where its first part leads, with the links that are left. -/
theorem exists_follow_append {links : Nat} {p q : Place} {cs : List Component} (h : follow links p cs = .ok q) :
    ∃ left, left < links ∧ ∀ more, follow links p (cs ++ more) = follow (left + 1) q more := by
  induction links generalizing p cs with
  | zero => cases h
  | succ links ih =>
    rcases follow_succ_iff.1 h with hplace | ⟨directory, target, rest, hlink, htarget, hrest⟩
    · refine ⟨links, Nat.lt_succ_self links, ?_⟩
      intro more
      exact follow_congr (by rw [advance_append, hplace]) (links + 1)
    · obtain ⟨left, hleft, hgoes⟩ := ih hrest
      refine ⟨left, Nat.lt_succ_of_lt hleft, ?_⟩
      intro more
      have hempty : target.text.isEmpty = false := by simpa using htarget
      rw [← hgoes, follow, advance_append, hlink, List.append_assoc]
      simp [hempty, bind, Except.bind]

theorem follow_append {links : Nat} {p q r : Place} {cs more : List Component} (hq : follow links p cs = .ok q)
    (hr : q.advance more = .ok (.place r)) : follow links p (cs ++ more) = .ok r := by
  obtain ⟨left, -, hgoes⟩ := exists_follow_append hq
  rw [hgoes]
  exact follow_succ_iff.2 (.inl hr)

/-- Names lead down to what stands there, unless it is a link. -/
theorem exists_advance_names {p : Place} {names : List String} {e : Entry} (he : ∀ target, e ≠ .link target)
    (h : p.entry.at? names = some e) :
    ∃ q, p.advance (names.map Component.name) = .ok (.place q) ∧ q.names = p.names ++ names ∧ q.entry = e := by
  induction names generalizing p with
  | nil => exact ⟨p, rfl, by simp, Option.some.inj h⟩
  | cons n names ih =>
    rw [Entry.at?, Option.bind_eq_some_iff] at h
    obtain ⟨child, hchild, hrest⟩ := h
    have hdir := Entry.isDir_of_child? hchild
    have hbelow : ∃ q, advance ⟨p.top, (n, child) :: p.inner⟩ (names.map Component.name) = .ok (.place q) ∧
        q.names = p.names ++ n :: names ∧ q.entry = e := by
      obtain ⟨q, hq, hnames, hentry⟩ := ih (p := ⟨p.top, (n, child) :: p.inner⟩) hrest
      rw [names_cons, List.append_assoc] at hnames
      exact ⟨q, hq, hnames, hentry⟩
    rw [List.map_cons, advance, hchild]
    cases child with
    | link target => exact absurd (Entry.eq_of_at?_link hrest) (he target)
    | file bytes => simpa [hdir] using hbelow
    | dir entries => simpa [hdir] using hbelow

end Place

namespace FileTree

variable {t : FileTree}

/-- Paths that start alike add their parts to the same components. -/
theorem exists_absolute_eq {p q : Path} (h : q.lead = p.lead) :
    ∃ start, t.absolute p = start ++ p.parts ∧ t.absolute q = start ++ q.parts := by
  have habs : q.isAbsolute = p.isAbsolute := by
    rw [Bool.eq_iff_iff, ← Path.lead_eq_root_iff, ← Path.lead_eq_root_iff, h]
  by_cases hself : p.isAbsolute = true ∨ t.current.text = ""
  · have hjoin : ∀ r : Path, r.isAbsolute = p.isAbsolute → t.current.join r = r := by
      intro r hr
      rcases hself with hp | hempty <;> simp_all [Path.join]
    refine ⟨p.lead, ?_, ?_⟩
    · rw [absolute, hjoin p rfl, Path.components_eq]
    · rw [absolute, hjoin q habs, Path.components_eq, h]
  · obtain ⟨hp, hcurrent⟩ := not_or.1 hself
    have hp : p.isAbsolute = false := by simpa using hp
    refine ⟨t.current.components, ?_, ?_⟩
    · rw [absolute, Path.components_eq, Path.lead_join hp hcurrent, Path.parts_join hp, Path.components_eq,
        List.append_assoc]
    · rw [absolute, Path.components_eq, Path.lead_join (habs.trans hp) hcurrent, Path.parts_join (habs.trans hp),
        Path.components_eq, List.append_assoc]

theorem absolute_join_ofNames (root : Path) {names : List String} (h : ∀ n ∈ names, IsEntryName n) :
    t.absolute (root.join (Path.ofNames names)) = t.absolute root ++ names.map Component.name := by
  obtain ⟨start, hroot, hjoin⟩ := exists_absolute_eq (t := t) (Path.lead_join_ofNames root h)
  rw [hjoin, Path.parts_join (Path.isAbsolute_ofNames h), Path.parts_ofNames h, ← List.append_assoc, ← hroot]

/-- What names below a path lead to lies below what the path leads to. -/
theorem names_of_find_join {root : Path} {place found : Place} {names : List String} {bytes : Bytes}
    (hnames : ∀ n ∈ names, IsEntryName n) (hplace : t.find root = .ok place)
    (hfile : place.entry.at? names = some (.file bytes))
    (hfound : t.find (root.join (Path.ofNames names)) = .ok found) : found.names = place.names ++ names := by
  obtain ⟨q, hq, hqnames, -⟩ := Place.exists_advance_names (by simp) hfile
  have hfollow : Place.follow maxLinks ⟨t.top, []⟩ (t.absolute (root.join (Path.ofNames names))) = .ok q := by
    rw [absolute_join_ofNames root hnames]
    exact Place.follow_append (follow_of_find hplace).2 hq
  rw [(follow_of_find hfound).2] at hfollow
  cases hfollow
  exact hqnames

/-- A path that ends with a name is looked up by its components. -/
theorem find_eq_follow {p : Path} {front : List (List Char)} {name : String} (hname : IsEntryName name)
    (h : Path.segments p.text.toList = front ++ [name.toList]) :
    t.find p = Place.follow maxLinks ⟨t.top, []⟩ (t.absolute p) := by
  have hempty : name.toList ≠ [] := by simpa using hname.ne_empty
  have hhere : name.toList ≠ ['.'] := fun heq => hname.ne_here (String.toList_inj.1 heq)
  have hwants : wantsDir p = false := by
    rw [wantsDir, h, List.reverse_append]
    cases front.reverse <;> simp [hempty, hhere]
  have htext : p.text.isEmpty = false := by
    have hne : p.text ≠ "" := by
      intro hnil
      have hlast : name.toList ∈ Path.segments p.text.toList := by simp [h]
      exact hempty (by simpa [hnil, Path.segments] using hlast)
    simpa using hne
  rw [find, hwants, htext]
  cases Place.follow maxLinks ⟨t.top, []⟩ (t.absolute p) <;> rfl

theorem find_join_ofNames (root : Path) {names : List String} (h : ∀ n ∈ names, IsEntryName n) (hne : names ≠ []) :
    t.find (root.join (Path.ofNames names)) =
      Place.follow maxLinks ⟨t.top, []⟩ (t.absolute root ++ names.map Component.name) := by
  rw [← absolute_join_ofNames root h]
  obtain ⟨init, last, hlast⟩ := (List.eq_nil_or_concat names).resolve_left hne
  have hsegments : Path.segments (Path.ofNames names).text.toList = init.map String.toList ++ [last.toList] := by
    rw [Path.segments_ofNames h hne, hlast, List.map_concat, List.concat_eq_append]
  obtain ⟨front, hfront⟩ := Path.exists_segments_join root (Path.isAbsolute_ofNames h)
  apply find_eq_follow (h last (by simp [hlast]))
  rw [hfront, hsegments, ← List.append_assoc]

/-- The file name of a path, looked up in the parent, leads where the path does. -/
theorem find_join_parent? {root : Path} {place : Place} {name : String} (hname : root.fileName? = some name)
    (hplace : t.find root = .ok place) :
    t.find ((root.parent?.getD ⟨""⟩).join (Path.ofNames [name])) = .ok place := by
  have hnames : ∀ n ∈ [name], IsEntryName n := by simpa using Path.isEntryName_of_fileName? hname
  obtain ⟨hlead, hparts⟩ := Path.join_parent? hname
  obtain ⟨start, hroot, hjoin⟩ := exists_absolute_eq (t := t) hlead
  rw [find_join_ofNames _ hnames (List.cons_ne_nil _ _), ← absolute_join_ofNames _ hnames, hjoin, hparts, ← hroot]
  exact (follow_of_find hplace).2

theorem lead_pathOf (names : List String) : (pathOf names).lead = [.root] := by
  simp [Path.lead_eq_root_iff, Path.isAbsolute, pathOf]

theorem parts_pathOf {names : List String} (h : ∀ n ∈ names, IsEntryName n) :
    (pathOf names).parts = names.map Component.name := by
  rw [← Path.parts_ofNames h]
  simp [Path.parts, pathOf, Path.ofNames, Path.segments, Path.componentOf]

theorem absolute_eq_of_lead {p : Path} (h : p.lead = [.root]) : t.absolute p = .root :: p.parts := by
  have habs := Path.lead_eq_root_iff.1 h
  rw [absolute, Path.join, if_pos habs, Path.components_eq, h]
  rfl

/-- Looking up names in a directory that names lead to is looking up all the names from the top. -/
theorem follow_of_find_pathOf {names more : List String} {place : Place} (hnames : ∀ n ∈ names, IsEntryName n)
    (hmore : ∀ n ∈ more, IsEntryName n) (h : t.find ((pathOf names).join (Path.ofNames more)) = .ok place) :
    Place.follow maxLinks ⟨t.top, []⟩ ((names ++ more).map Component.name) = .ok place := by
  have hfollow := (follow_of_find h).2
  rw [absolute_join_ofNames _ hmore, absolute_eq_of_lead (lead_pathOf names), parts_pathOf hnames, List.cons_append,
    ← List.map_append] at hfollow
  exact hfollow

theorem pathOf_eq_descend {names : List String} (h : ∀ n ∈ names, IsEntryName n) :
    pathOf names = (⟨"/"⟩ : Path).descend names := by
  cases names with
  | nil => rfl
  | cons n names =>
    rw [Path.descend_of_ne_nil _ (List.cons_ne_nil _ _), Path.join, Path.isAbsolute_ofNames h]
    rfl

theorem descend_pathOf {names more : List String} (hnames : ∀ n ∈ names, IsEntryName n)
    (hmore : ∀ n ∈ more, IsEntryName n) : (pathOf names).descend more = pathOf (names ++ more) := by
  have hall : ∀ n ∈ names ++ more, IsEntryName n := fun n hn => (List.mem_append.1 hn).elim (hnames n) (hmore n)
  rw [pathOf_eq_descend hnames, pathOf_eq_descend hall, Path.descend_append _ hnames hmore]

/-- A path without links is looked up by its names. -/
theorem find_pathOf {names : List String} (h : ∀ n ∈ names, IsEntryName n) (hne : names ≠ []) :
    t.find (pathOf names) = Place.follow maxLinks ⟨t.top, []⟩ (names.map Component.name) := by
  have habsolute : t.absolute ⟨"/"⟩ = [.root] := absolute_eq_of_lead rfl
  rw [pathOf_eq_descend h, Path.descend_of_ne_nil _ hne, find_join_ofNames _ h hne, habsolute]
  rfl

end FileTree

/-! ## Links

Looked up from the top, names lead under other names only where a link does. -/

theorem Entry.at?_append (e : Entry) (names more : List String) :
    e.at? (names ++ more) = (e.at? names).bind fun below => below.at? more := by
  induction names generalizing e with
  | nil => rfl
  | cons n names ih =>
    rw [List.cons_append, at?, at?]
    cases e.child? n with
    | none => rfl
    | some child => exact ih child

namespace Place

/-- The entries on the way to a place stand in the tree where their names say. -/
def Stands (p : Place) : Prop :=
  ∀ inner, inner <:+ p.inner → p.top.at? (names ⟨p.top, inner⟩) = some (entry ⟨p.top, inner⟩)

theorem stands_top (top : Entry) : Stands ⟨top, []⟩ := by
  intro inner hinner
  rw [List.suffix_nil.1 hinner]
  rfl

theorem kept_stands : Kept Stands where
  top {p} _ := stands_top p.top
  outer h := fun inner hinner => h inner (hinner.trans (List.tail_suffix _))
  inner {p n e} h he := by
    intro inner hinner
    rcases List.suffix_cons_iff.1 hinner with heq | hinner
    · have hself : p.top.at? p.names = some p.entry := h p.inner (List.suffix_refl _)
      have hchild : p.top.at? (p.names ++ [n]) = some e := by simp [Entry.at?_append, hself, Entry.at?, he]
      rw [heq, names_cons]
      exact hchild
    · exact h inner hinner

theorem Stands.child?_eq {top e : Entry} {n : String} {inner : List (String × Entry)}
    (h : Stands ⟨top, (n, e) :: inner⟩) : (entry ⟨top, inner⟩).child? n = some e := by
  have hself : top.at? (names ⟨top, (n, e) :: inner⟩) = some e := h _ (List.suffix_refl _)
  have houter : top.at? (names ⟨top, inner⟩) = some (entry ⟨top, inner⟩) := h inner (List.suffix_cons _ _)
  simpa [names_cons, Entry.at?_append, houter, Entry.at?] using hself

/-- The names of what is no link lead to it. -/
theorem Stands.advance_names {top : Entry} {inner : List (String × Entry)} (h : Stands ⟨top, inner⟩)
    (hlink : ∀ target, entry ⟨top, inner⟩ ≠ .link target) :
    advance ⟨top, []⟩ ((names ⟨top, inner⟩).map Component.name) = .ok (.place ⟨top, inner⟩) := by
  induction inner with
  | nil => rfl
  | cons e inner ih =>
    obtain ⟨n, e⟩ := e
    have houter : Stands ⟨top, inner⟩ := fun others hothers => h others (hothers.trans (List.suffix_cons _ _))
    have hchild := h.child?_eq
    have houterDir := Entry.isDir_of_child? hchild
    rw [names_cons, List.map_append, advance_append, ih houter (Entry.ne_link_of_isDir houterDir)]
    cases e with
    | link target => exact absurd rfl (hlink target)
    | file bytes => simp [advance, houterDir, hchild]
    | dir entries => simp [advance, houterDir, hchild]

/-- A look-up that comes to its end comes to the end of its first part. -/
theorem exists_follow_of_append {links : Nat} {p r : Place} {cs more : List Component}
    (h : follow links p (cs ++ more) = .ok r) :
    ∃ q left, follow links p cs = .ok q ∧ left ≤ links ∧ follow left q more = .ok r := by
  induction links generalizing p cs with
  | zero => cases h
  | succ links ih =>
    have hfirst := h
    rw [follow_succ_iff, advance_append] at hfirst
    cases hreached : p.advance cs with
    | error e => simp [hreached] at hfirst
    | ok reached =>
      cases reached with
      | place q =>
        refine ⟨q, links + 1, follow_succ_iff.2 (.inl hreached), Nat.le_refl _, ?_⟩
        simpa only [hreached, ← follow_succ_iff] using hfirst
      | link directory target rest =>
        simp only [hreached, Except.ok.injEq, reduceCtorEq, false_or, Reached.link.injEq] at hfirst
        obtain ⟨_, _, _, ⟨rfl, rfl, rfl⟩, htarget, hrest⟩ := hfirst
        rw [← List.append_assoc] at hrest
        obtain ⟨q, left, hq, hleft, hr⟩ := ih hrest
        exact ⟨q, left, follow_succ_iff.2 (.inr ⟨directory, target, rest, hreached, htarget, hq⟩),
          Nat.le_succ_of_le hleft, hr⟩

/-- More links change nothing for a look-up that had enough. -/
theorem follow_eq_of_le {links more : Nat} (hle : links ≤ more) {p : Place} {cs : List Component}
    (h : follow links p cs ≠ .error .tooManyLinks) : follow more p cs = follow links p cs := by
  induction links generalizing more p cs with
  | zero => exact absurd rfl h
  | succ links ih =>
    cases more with
    | zero => cases hle
    | succ more =>
      rw [follow] at h
      rw [follow, follow]
      cases hreached : p.advance cs with
      | error e => rfl
      | ok reached =>
        cases reached with
        | place q => rfl
        | link directory target rest =>
          simp only [hreached, bind, Except.bind] at h ⊢
          by_cases hempty : target.text.isEmpty = true
          · simp [hempty]
          · simp only [hempty, Bool.false_eq_true, if_false] at h ⊢
            exact ih (Nat.le_of_succ_le_succ hle) h

theorem follow_mono {links more : Nat} (hle : links ≤ more) {p q : Place} {cs : List Component}
    (h : follow links p cs = .ok q) : follow more p cs = .ok q :=
  (follow_eq_of_le hle (by simp [h])).trans h

theorem names_of_follow_name {links : Nat} {p q : Place} {n : String} (h : follow links p [.name n] = .ok q) :
    q.names = p.names ++ [n] ∨ ∃ target, p.entry.child? n = some (.link target) := by
  cases links with
  | zero => cases h
  | succ links =>
    rw [follow_succ_iff, advance] at h
    by_cases hdir : p.entry.isDir = true
    · cases hchild : p.entry.child? n with
      | none => simp [hdir, hchild] at h
      | some e =>
        cases e with
        | link target => exact .inr ⟨target, rfl⟩
        | file bytes =>
          have hq : ⟨p.top, (n, .file bytes) :: p.inner⟩ = q := by simpa [hdir, hchild, advance] using h
          exact .inl (hq ▸ names_cons _ _ _ _)
        | dir entries =>
          have hq : ⟨p.top, (n, .dir entries) :: p.inner⟩ = q := by simpa [hdir, hchild, advance] using h
          exact .inl (hq ▸ names_cons _ _ _ _)
    · simp [hdir] at h

theorem kept_top (top : Entry) : Kept fun p => p.top = top where
  top h := h
  outer h := h
  inner h _ := h

/-- Names lead to a place under just these names, or a link in the tree leads to the place or above it. -/
theorem names_or_link_of_follow {links : Nat} {p q : Place} {names : List String} (hp : p.Stands)
    (h : follow links p (names.map Component.name) = .ok q) :
    q.names = p.names ++ names ∨ ∃ link target place, link ≠ [] ∧ p.top.at? link = some (.link target) ∧
      follow links ⟨p.top, []⟩ (link.map Component.name) = .ok place ∧ place.names <+: q.names := by
  induction names generalizing links p with
  | nil =>
    cases links with
    | zero => cases h
    | succ links =>
      cases h
      exact .inl (List.append_nil _).symm
  | cons n names ih =>
    have hfirst : follow links p ([.name n] ++ names.map Component.name) = .ok q := h
    obtain ⟨mid, left, hmid, hle, hq⟩ := exists_follow_of_append hfirst
    have htop : mid.top = p.top := (kept_top p.top).follow rfl hmid
    rcases ih (kept_stands.follow hp hmid) hq with hbelow | ⟨link, target, place, hne, hlink, hplace, hprefix⟩
    · rcases names_of_follow_name hmid with hnames | ⟨target, hchild⟩
      · exact .inl (by rw [hbelow, hnames, List.append_assoc]; rfl)
      · -- The first name is the one of a link, and the rest leads on from where it goes.
        have hself : p.top.at? p.names = some p.entry := hp p.inner (List.suffix_refl _)
        have hlink : p.top.at? (p.names ++ [n]) = some (.link target) := by
          simp [Entry.at?_append, hself, Entry.at?, hchild]
        have hadvance : advance ⟨p.top, []⟩ ((p.names ++ [n]).map Component.name) = p.advance [.name n] := by
          rw [List.map_append, advance_append, hp.advance_names (Entry.ne_link_of_isDir (Entry.isDir_of_child? hchild))]
          rfl
        exact .inr ⟨p.names ++ [n], target, mid, by simp, hlink, (follow_congr hadvance links).trans hmid,
          hbelow ▸ List.prefix_append _ _⟩
    · rw [htop] at hlink hplace
      exact .inr ⟨link, target, place, hne, hlink, follow_mono hle hplace, hprefix⟩

end Place

namespace FileTree

variable {t : FileTree} {p : Path} {place : Place}

theorem stands_of_find (h : t.find p = .ok place) : place.Stands :=
  Place.kept_stands.follow (Place.stands_top t.top) (follow_of_find h).2

theorem top_of_find (h : t.find p = .ok place) : place.top = t.top :=
  (Place.kept_top t.top).follow rfl (follow_of_find h).2

theorem advance_names_of_find (h : t.find p = .ok place) (hlink : ∀ target, place.entry ≠ .link target) :
    Place.advance ⟨t.top, []⟩ (place.names.map Component.name) = .ok (.place place) := by
  rw [← top_of_find h]
  exact (stands_of_find h).advance_names hlink

/-- The path without links of a directory leads to it. -/
theorem find_pathOf_names (ht : t.top.WellFormed) (h : t.find p = .ok place) (hdir : place.entry.isDir = true) :
    t.find (pathOf place.names) = .ok place := by
  have hfollow : Place.follow maxLinks ⟨t.top, []⟩ (t.absolute (pathOf place.names)) = .ok place := by
    rw [absolute_eq_of_lead (lead_pathOf _), parts_pathOf (wellFormed_of_find ht h).isEntryName_names]
    exact Place.follow_succ_iff.2 (.inl (advance_names_of_find h (Entry.ne_link_of_isDir hdir)))
  have htext : (pathOf place.names).text.isEmpty = false := by simp [pathOf]
  simp [find, hfollow, htext, hdir, bind, Except.bind, pure, Except.pure]

/-- Below the path without links of what is no link, names are looked up from there, with no link used up. -/
theorem find_pathOf_join (ht : t.top.WellFormed) (h : t.find p = .ok place)
    (hlink : ∀ target, place.entry ≠ .link target) {names : List String} (hnames : ∀ n ∈ names, IsEntryName n)
    (hne : names ≠ []) :
    t.find ((pathOf place.names).join (Path.ofNames names)) =
      Place.follow maxLinks place (names.map Component.name) := by
  rw [find_join_ofNames _ hnames hne, absolute_eq_of_lead (lead_pathOf _),
    parts_pathOf (wellFormed_of_find ht h).isEntryName_names]
  apply Place.follow_congr
  rw [List.cons_append, Place.advance, Place.advance_append, advance_names_of_find h hlink]

/-- Names below a path lead where they lead below its path without links, if no look-up passes too many links. -/
theorem find_join_eq (ht : t.top.WellFormed) (h : t.find p = .ok place)
    (hlink : ∀ target, place.entry ≠ .link target) {names : List String} (hnames : ∀ n ∈ names, IsEntryName n)
    (hne : names ≠ []) (hfew : t.find (p.join (Path.ofNames names)) ≠ .error .tooManyLinks) :
    t.find (p.join (Path.ofNames names)) = t.find ((pathOf place.names).join (Path.ofNames names)) := by
  obtain ⟨left, hleft, hgoes⟩ := Place.exists_follow_append (follow_of_find h).2
  have hrest : t.find (p.join (Path.ofNames names)) = Place.follow (left + 1) place (names.map Component.name) := by
    rw [find_join_ofNames _ hnames hne, hgoes]
  rw [hrest] at hfew ⊢
  rw [find_pathOf_join ht h hlink hnames hne, Place.follow_eq_of_le hleft hfew]

/-- Further down, too, names lead where they lead below the path without links, or the look-up passes too many links. -/
theorem find_descend_join (ht : t.top.WellFormed) (h : t.find p = .ok place)
    (hlink : ∀ target, place.entry ≠ .link target) {rest more : List String} (hrest : ∀ n ∈ rest, IsEntryName n)
    (hmore : ∀ n ∈ more, IsEntryName n) (hne : more ≠ []) :
    t.find ((p.descend rest).join (Path.ofNames more)) = .error .tooManyLinks ∨
      t.find ((p.descend rest).join (Path.ofNames more)) =
        t.find ((pathOf (place.names ++ rest)).join (Path.ofNames more)) := by
  have hall : ∀ n ∈ rest ++ more, IsEntryName n := fun n hn => (List.mem_append.1 hn).elim (hrest n) (hmore n)
  have hsome : rest ++ more ≠ [] := by simp [hne]
  have hnames := (wellFormed_of_find ht h).isEntryName_names
  rw [← descend_pathOf hnames hrest, Path.join_descend _ hrest hmore hne, Path.join_descend _ hrest hmore hne,
    Path.descend_of_ne_nil _ hsome, Path.descend_of_ne_nil _ hsome]
  by_cases hmany : t.find (p.join (Path.ofNames (rest ++ more))) = .error .tooManyLinks
  · exact .inl hmany
  · exact .inr (find_join_eq ht h hlink hall hsome hmany)

/-- Names that lead past no link lead to a place under just these names. -/
theorem names_of_find_names {names : List String} {e : Entry} (hlead : p.lead = [.root])
    (hparts : p.parts = names.map Component.name) (hentry : t.top.at? names = some e) (he : ∀ target, e ≠ .link target)
    (h : t.find p = .ok place) : place.names = names := by
  obtain ⟨q, hq, hqnames, -⟩ := Place.exists_advance_names (p := ⟨t.top, []⟩) he hentry
  have hfollow := (follow_of_find h).2
  rw [absolute_eq_of_lead hlead, hparts] at hfollow
  have hsame : Place.follow maxLinks ⟨t.top, []⟩ (.root :: names.map Component.name) = .ok q :=
    Place.follow_succ_iff.2 (.inl hq)
  rw [hfollow] at hsame
  cases hsame
  exact hqnames

theorem find_of_child? {name : String} {entries : List (String × Entry)}
    (hp : p = pathOf [name]) (hname : IsEntryName name) (h : t.top.child? name = some (.dir entries)) :
    t.find p = .ok ⟨t.top, [(name, .dir entries)]⟩ := by
  have hdir := Entry.isDir_of_child? h
  rw [hp, find_pathOf (by simpa using hname) (by simp)]
  refine Place.follow_succ_iff.2 (.inl ?_)
  simp [Place.advance, Place.entry, hdir, h]

end FileTree

/-- From the top, names lead to a place under just these names, or a link in the tree leads to the place or above it. -/
theorem FileTree.names_or_link_of_find {t : FileTree} (ht : t.top.WellFormed) {names more : List String} {place : Place}
    (hnames : ∀ n ∈ names, IsEntryName n) (hmore : ∀ n ∈ more, IsEntryName n)
    (h : t.find ((pathOf names).join (Path.ofNames more)) = .ok place) :
    place.names = names ++ more ∨ ∃ link target above, t.top.at? link = some (.link target) ∧
      t.find (pathOf link) = .ok above ∧ above.names <+: place.names := by
  rcases Place.names_or_link_of_follow (Place.stands_top _) (follow_of_find_pathOf hnames hmore h) with
    hsame | ⟨link, target, above, hne, hlink, hfollow, hprefix⟩
  · exact .inl hsame
  · exact .inr ⟨link, target, above, hlink, (find_pathOf (ht.isEntryName_at? hlink) hne).trans hfollow, hprefix⟩

/-! ## Trees whose files hold other bytes -/

namespace Entry

mutual

/-- An entry with the bytes of every file in it replaced, by what is given for the names of the file and its bytes. -/
def refill (f : List String → Bytes → Bytes) (names : List String) : Entry → Entry
  | .file bytes => .file (f names bytes)
  | .link target => .link target
  | .dir entries => .dir (refillIn f names entries)

def refillIn (f : List String → Bytes → Bytes) (names : List String) :
    List (String × Entry) → List (String × Entry)
  | [] => []
  | (name, e) :: rest => (name, refill f (names ++ [name]) e) :: refillIn f names rest

end

variable (f : List String → Bytes → Bytes) (names : List String)

theorem refillIn_eq (entries : List (String × Entry)) :
    refillIn f names entries = entries.map fun e => (e.1, e.2.refill f (names ++ [e.1])) := by
  induction entries with
  | nil => rfl
  | cons e entries ih =>
    rw [refillIn, ih]
    rfl

@[simp] theorem isDir_refill (e : Entry) : (e.refill f names).isDir = e.isDir := by
  cases e <;> simp [refill, isDir]

@[simp] theorem isFile_refill (e : Entry) : (e.refill f names).isFile = e.isFile := by
  cases e <;> simp [refill, isFile]

theorem child?_refill (e : Entry) (name : String) :
    (e.refill f names).child? name = (e.child? name).map fun child => child.refill f (names ++ [name]) := by
  cases e with
  | file bytes => simp [refill, child?, entries]
  | link target => simp [refill, child?, entries]
  | dir es =>
    simp only [refill, child?, entries, refillIn_eq]
    induction es with
    | nil => rfl
    | cons e es ih =>
      obtain ⟨n, e⟩ := e
      simp only [List.map_cons, List.lookup_cons, ih]
      by_cases hname : name = n
      · simp [hname]
      · simp [beq_false_of_ne hname]

end Entry

namespace Place

variable (f : List String → Bytes → Bytes)

def refillInner : List (String × Entry) → List (String × Entry)
  | [] => []
  | (n, e) :: inner => (n, e.refill f ((inner.map (·.1)).reverse ++ [n])) :: refillInner inner

def refill (p : Place) : Place := ⟨p.top.refill f [], refillInner f p.inner⟩

def Reached.refill : Reached → Reached
  | .place p => .place (p.refill f)
  | .link directory target rest => .link (directory.refill f) target rest

@[simp] theorem names_refill (p : Place) : (p.refill f).names = p.names := by
  have hinner : ∀ inner : List (String × Entry), (refillInner f inner).map (·.1) = inner.map (·.1) := by
    intro inner
    induction inner with
    | nil => rfl
    | cons e inner ih => rw [refillInner, List.map_cons, List.map_cons, ih]
  simp only [names, refill, hinner]

theorem entry_refill (p : Place) : (p.refill f).entry = p.entry.refill f p.names := by
  cases hinner : p.inner with
  | nil => simp [refill, entry, names, hinner, refillInner]
  | cons e inner => simp [refill, entry, names, hinner, refillInner]

theorem advance_refill (p : Place) (cs : List Component) :
    (p.refill f).advance cs = (p.advance cs).map (Reached.refill f) := by
  induction cs generalizing p with
  | nil => rfl
  | cons c cs ih =>
    cases c with
    | root => exact ih ⟨p.top, []⟩
    | here =>
      simp only [advance, entry_refill, Entry.isDir_refill, ih]
      split <;> rfl
    | parent =>
      have htail : (⟨(p.refill f).top, (p.refill f).inner.tail⟩ : Place) = refill f ⟨p.top, p.inner.tail⟩ := by
        cases hinner : p.inner <;> simp [refill, hinner, refillInner]
      simp only [advance, entry_refill, Entry.isDir_refill, htail, ih]
      split <;> rfl
    | name n =>
      simp only [advance, entry_refill, Entry.isDir_refill, Entry.child?_refill]
      split
      · rfl
      · cases hchild : p.entry.child? n with
        | none => rfl
        | some e =>
          cases e with
          | link target => rfl
          | file bytes => exact ih ⟨p.top, (n, .file bytes) :: p.inner⟩
          | dir entries => exact ih ⟨p.top, (n, .dir entries) :: p.inner⟩

theorem follow_refill (links : Nat) (p : Place) (cs : List Component) :
    follow links (p.refill f) cs = (follow links p cs).map (refill f) := by
  induction links generalizing p cs with
  | zero => rfl
  | succ links ih =>
    rw [follow, follow, advance_refill]
    cases hreached : p.advance cs with
    | error e => rfl
    | ok reached =>
      cases reached with
      | place q => rfl
      | link directory target rest =>
        simp only [Except.map, Reached.refill, bind, Except.bind, ih]
        split <;> rfl

end Place

namespace FileTree

def refill (f : List String → Bytes → Bytes) (t : FileTree) : FileTree := { t with top := t.top.refill f [] }

variable (f : List String → Bytes → Bytes) (t : FileTree) (p : Path)

@[simp] theorem current_refill : (t.refill f).current = t.current := rfl

theorem find_refill : (t.refill f).find p = (t.find p).map (Place.refill f) := by
  have hfollow : Place.follow maxLinks ⟨(t.refill f).top, []⟩ ((t.refill f).absolute p) =
      (Place.follow maxLinks ⟨t.top, []⟩ (t.absolute p)).map (Place.refill f) :=
    Place.follow_refill f maxLinks ⟨t.top, []⟩ (t.absolute p)
  simp only [find, hfollow, bind, Except.bind]
  split
  · rfl
  · cases Place.follow maxLinks ⟨t.top, []⟩ (t.absolute p) with
    | error e => rfl
    | ok place =>
      simp only [Except.map, Place.entry_refill, Entry.isDir_refill]
      split <;> rfl

theorem exists?_refill : (t.refill f).exists? p = t.exists? p := by
  rw [exists?, exists?, find?, find?, find_refill]
  cases t.find p <;> rfl

theorem isFile_refill : (t.refill f).isFile p = t.isFile p := by
  rw [isFile, isFile, find?, find?, find_refill]
  cases t.find p with
  | error e => rfl
  | ok place => simp [Except.map, Except.toOption, Place.entry_refill]

variable {f t p}

/-- A file that keeps its bytes is read as before. -/
theorem read_refill (h : ∀ place, t.find p = .ok place → ∀ bytes, f place.names bytes = bytes) :
    (t.refill f).read p = t.read p := by
  rw [read, read, find_refill]
  cases hfind : t.find p with
  | error e => rfl
  | ok place =>
    have hkept := h place hfind
    simp only [Except.map, bind, Except.bind, Place.entry_refill]
    cases place.entry with
    | file bytes => simp [Entry.refill, hkept]
    | link target => rfl
    | dir entries => rfl

end FileTree

end CallLineage
