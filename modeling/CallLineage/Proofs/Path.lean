import CallLineage.Path
/-! Paths written from names.
A path whose parts are names of directory entries has exactly those names as its components, so the order of paths is
the order of the lists of names. Joining a path to another adds its parts, and the parent with the file name joined to
it has the parts of the path again. -/
namespace CallLineage

/-- What an entry of a directory may be called. -/
structure IsEntryName (name : String) : Prop where
  ne_empty : name ≠ ""
  ne_here : name ≠ "."
  ne_parent : name ≠ ".."
  no_separator : '/' ∉ name.toList

instance (name : String) : Decidable (IsEntryName name) :=
  decidable_of_iff (name ≠ "" ∧ name ≠ "." ∧ name ≠ ".." ∧ '/' ∉ name.toList)
    ⟨fun ⟨h₁, h₂, h₃, h₄⟩ => ⟨h₁, h₂, h₃, h₄⟩, fun ⟨h₁, h₂, h₃, h₄⟩ => ⟨h₁, h₂, h₃, h₄⟩⟩

namespace Path

/-- The path that leads over the names, relative to where they are looked up. -/
def ofNames (names : List String) : Path := ⟨String.intercalate "/" names⟩

theorem segments_of_not_mem {s : List Char} (h : '/' ∉ s) : segments s = [s] := by
  induction s with
  | nil => rfl
  | cons c s ih =>
    obtain ⟨hc, hs⟩ := not_or.1 (mt List.mem_cons.2 h)
    rw [segments, beq_false_of_ne (Ne.symm hc), ih hs]
    rfl

theorem segments_ne_nil (s : List Char) : segments s ≠ [] := by
  cases s with
  | nil => simp [segments]
  | cons c s =>
    rw [segments]
    split
    · simp
    · split <;> simp

/-- A separator cuts a text into two that are cut on their own. -/
theorem segments_append (s rest : List Char) : segments (s ++ '/' :: rest) = segments s ++ segments rest := by
  induction s with
  | nil => rfl
  | cons c s ih =>
    rw [List.cons_append, segments, segments, ih]
    by_cases hc : (c == '/') = true
    · simp [hc]
    · cases hs : segments s with
      | nil => exact absurd hs (segments_ne_nil s)
      | cons first others => simp [hc]

theorem not_mem_of_mem_segments {s text : List Char} (h : s ∈ segments text) : '/' ∉ s := by
  induction text generalizing s with
  | nil => simp [segments] at h; simp [h]
  | cons c text ih =>
    rw [segments] at h
    split at h
    · rcases List.mem_cons.1 h with rfl | h
      · exact List.not_mem_nil
      · exact ih h
    · rename_i hc
      have hc : '/' ≠ c := by rintro rfl; simp at hc
      split at h
      · simp_all
      · rename_i first rest heq
        rcases List.mem_cons.1 h with rfl | h
        · simp only [List.mem_cons, not_or]
          exact ⟨hc, ih (heq ▸ List.mem_cons_self)⟩
        · exact ih (heq ▸ List.mem_cons_of_mem _ h)

theorem segments_intercalate {l : List (List Char)} (h : ∀ s ∈ l, '/' ∉ s) (hne : l ≠ []) :
    segments (['/'].intercalate l) = l := by
  induction l with
  | nil => exact absurd rfl hne
  | cons s l ih =>
    have hs := h s List.mem_cons_self
    cases l with
    | nil => simpa using segments_of_not_mem hs
    | cons s' l =>
      rw [List.intercalate_cons_cons, List.append_assoc, List.singleton_append, segments_append,
        segments_of_not_mem hs, ih (fun t ht => h t (List.mem_cons_of_mem _ ht)) (List.cons_ne_nil _ _)]
      rfl

theorem componentOf_entryName {name : String} (h : IsEntryName name) (first : Bool) :
    componentOf first name.toList = some (.name name) := by
  have hne : ∀ s : String, name ≠ s → (name.toList == s.toList) = false := by
    intro s hs
    simpa [String.toList_inj] using hs
  have hempty : (name.toList == []) = false := hne "" h.ne_empty
  have hhere : (name.toList == ['.']) = false := hne "." h.ne_here
  have hparent : (name.toList == ['.', '.']) = false := hne ".." h.ne_parent
  simp [componentOf, hempty, hhere, hparent]

theorem isAbsolute_eq_false {p : Path} {s : List Char} {rest : List (List Char)}
    (h : segments p.text.toList = s :: rest) (hs : s ≠ []) : p.isAbsolute = false := by
  rw [isAbsolute]
  cases htext : p.text.toList with
  | nil => rfl
  | cons c text =>
    by_cases hc : c = '/'
    · rw [htext, hc] at h
      cases h
      exact absurd rfl hs
    · simpa using hc

/-! ## Parts

The components of a path are what it starts from and its parts, that is the components it adds to a path before it. -/

/-- The components that a path has when others come before it. -/
def parts (p : Path) : List Component := (segments p.text.toList).filterMap (componentOf false)

/-- Where a path starts: at the root, expressly here, or not said. -/
def lead (p : Path) : List Component :=
  if p.isAbsolute then [.root]
  else if (segments p.text.toList).head? = some ['.'] then [.here]
  else []

theorem components_eq (p : Path) : p.components = p.lead ++ p.parts := by
  rw [components, lead, parts]
  by_cases habs : p.isAbsolute = true
  · simp [habs]
  · cases hsegs : segments p.text.toList with
    | nil => exact absurd hsegs (segments_ne_nil _)
    | cons first rest =>
      by_cases hhere : first = ['.']
      · simp [habs, hhere, componentOf]
      · have hfirst : componentOf true first = componentOf false first := by simp [componentOf, hhere]
        simp [habs, hhere, hfirst, List.filterMap_cons]
        cases componentOf false first <;> rfl

/-- Parts are steps to a parent and names. -/
theorem cases_of_mem_parts {p : Path} {c : Component} (h : c ∈ p.parts) : c = .parent ∨ ∃ name, c = .name name := by
  obtain ⟨s, -, hs⟩ := List.mem_filterMap.1 h
  by_cases hempty : s = []
  · simp [componentOf, hempty] at hs
  · by_cases hhere : s = ['.']
    · simp [componentOf, hhere] at hs
    · by_cases hparent : s = ['.', '.']
      · exact .inl (by simpa [componentOf, hparent] using hs.symm)
      · exact .inr ⟨String.ofList s, by simpa [componentOf, hempty, hhere, hparent] using hs.symm⟩

theorem segments_ofNames {names : List String} (h : ∀ n ∈ names, IsEntryName n) (hne : names ≠ []) :
    segments (ofNames names).text.toList = names.map String.toList := by
  rw [ofNames, String.toList_intercalate]
  apply segments_intercalate
  · intro s hs
    obtain ⟨n, hn, rfl⟩ := List.mem_map.1 hs
    exact (h n hn).no_separator
  · simpa using hne

theorem filterMap_names {names : List String} (h : ∀ n ∈ names, IsEntryName n) :
    (names.map String.toList).filterMap (componentOf false) = names.map Component.name := by
  induction names with
  | nil => rfl
  | cons n names ih =>
    rw [List.map_cons, List.filterMap_cons, componentOf_entryName (h n List.mem_cons_self),
      ih fun m hm => h m (List.mem_cons_of_mem _ hm), List.map_cons]

theorem parts_ofNames {names : List String} (h : ∀ n ∈ names, IsEntryName n) :
    (ofNames names).parts = names.map Component.name := by
  cases names with
  | nil => rfl
  | cons n names => rw [parts, segments_ofNames h (List.cons_ne_nil _ _), filterMap_names h]

theorem isAbsolute_ofNames {names : List String} (h : ∀ n ∈ names, IsEntryName n) :
    (ofNames names).isAbsolute = false := by
  cases names with
  | nil => rfl
  | cons n names =>
    apply isAbsolute_eq_false (segments_ofNames h (List.cons_ne_nil _ _))
    simpa using (h n List.mem_cons_self).ne_empty

theorem lead_ofNames {names : List String} (h : ∀ n ∈ names, IsEntryName n) : (ofNames names).lead = [] := by
  rw [lead, isAbsolute_ofNames h]
  cases names with
  | nil => rfl
  | cons n names =>
    have hn : n.toList ≠ ['.'] := fun heq => (h n List.mem_cons_self).ne_here (String.toList_inj.1 heq)
    simp [segments_ofNames h, hn]

theorem components_ofNames {names : List String} (h : ∀ n ∈ names, IsEntryName n) :
    (ofNames names).components = names.map Component.name := by
  rw [components_eq, lead_ofNames h, parts_ofNames h, List.nil_append]

theorem lead_eq_root_iff {p : Path} : p.lead = [.root] ↔ p.isAbsolute = true := by
  rw [lead]
  split <;> rename_i h
  · simp [h]
  · split <;> simp [h]

/-- The text of a path that is joined to another: there is one separator between them. -/
theorem exists_text_join {base p : Path} (hp : p.isAbsolute = false) (hbase : base.text ≠ "") :
    ∃ s, (base.join p).text.toList = s ++ '/' :: p.text.toList ∧
      (base.text.toList = s ∨ base.text.toList = s ++ ['/']) := by
  have hne : base.text.toList ≠ [] := by simpa using hbase
  simp only [join, hp, List.getLast?_eq_some_getLast hne]
  by_cases hc : base.text.toList.getLast hne = '/'
  · have hlast : base.text.toList = base.text.toList.dropLast ++ ['/'] := by
      rw [← hc, List.dropLast_concat_getLast]
    refine ⟨base.text.toList.dropLast, ?_, .inr hlast⟩
    rw [← List.singleton_append, ← List.append_assoc, ← hlast]
    simp [hc]
  · exact ⟨base.text.toList, by simp [hc], .inl rfl⟩

theorem exists_segments_join (base : Path) {p : Path} (hp : p.isAbsolute = false) :
    ∃ front, segments (base.join p).text.toList = front ++ segments p.text.toList := by
  by_cases hbase : base.text = ""
  · exact ⟨[], by simp [join, hp, hbase]⟩
  · obtain ⟨s, hjoin, -⟩ := exists_text_join hp hbase
    exact ⟨segments s, by rw [hjoin, segments_append]⟩

theorem parts_join {base p : Path} (hp : p.isAbsolute = false) : (base.join p).parts = base.parts ++ p.parts := by
  by_cases hbase : base.text = ""
  · have hjoin : base.join p = p := by simp [join, hp, hbase]
    have hparts : base.parts = [] := by simp [parts, hbase, segments, componentOf]
    rw [hjoin, hparts, List.nil_append]
  · obtain ⟨s, hjoin, hs | hs⟩ := exists_text_join hp hbase
    · rw [parts, parts, parts, hjoin, hs, segments_append, List.filterMap_append]
    · rw [parts, parts, parts, hjoin, hs, segments_append, segments_append]
      simp [segments, componentOf]

theorem lead_join {base p : Path} (hp : p.isAbsolute = false) (hbase : base.text ≠ "") :
    (base.join p).lead = base.lead := by
  -- The texts have the same first segment and begin alike.
  have hhead : ∀ s rest : List Char, (segments (s ++ '/' :: rest)).head? = (segments s).head? := by
    intro s rest
    rw [segments_append]
    cases hs : segments s with
    | nil => exact absurd hs (segments_ne_nil s)
    | cons first others => rfl
  obtain ⟨s, hjoin, hs | hs⟩ := exists_text_join hp hbase
  · have habs : (base.join p).isAbsolute = base.isAbsolute := by
      cases s with
      | nil => exact absurd hs (by simpa using hbase)
      | cons c s => simp [isAbsolute, hjoin, hs]
    rw [lead, lead, habs, hjoin, hs, hhead]
  · have habs : (base.join p).isAbsolute = base.isAbsolute := by
      cases s <;> simp [isAbsolute, hjoin, hs]
    rw [lead, lead, habs, hjoin, hs, hhead, hhead]

/-- A path that does not say where it starts is continued by its parts. -/
theorem lead_join_of_lead (base : Path) {p : Path} (hp : p.isAbsolute = false) (hlead : p.lead = []) :
    (base.join p).lead = base.lead := by
  by_cases hbase : base.text = ""
  · have hjoin : base.join p = p := by simp [join, hp, hbase]
    rw [hjoin, hlead]
    simp [lead, isAbsolute, hbase, segments]
  · exact lead_join hp hbase

theorem lead_join_ofNames (base : Path) {names : List String} (h : ∀ n ∈ names, IsEntryName n) :
    (base.join (ofNames names)).lead = base.lead :=
  lead_join_of_lead base (isAbsolute_ofNames h) (lead_ofNames h)

theorem components_join (base : Path) {p : Path} (hp : p.isAbsolute = false) (hlead : p.lead = []) :
    (base.join p).components = base.components ++ p.components := by
  rw [components_eq, lead_join_of_lead base hp hlead, parts_join hp, components_eq base, components_eq p, hlead,
    List.nil_append, List.append_assoc]

/-! ## Going down -/

theorem descend_of_ne_nil (p : Path) {names : List String} (hne : names ≠ []) :
    p.descend names = p.join (ofNames names) := by
  cases names with
  | nil => exact absurd rfl hne
  | cons n names => rfl

theorem text_ofNames_append {names more : List String} (hnames : names ≠ []) (hmore : more ≠ []) :
    (ofNames (names ++ more)).text.toList =
      (ofNames names).text.toList ++ '/' :: (ofNames more).text.toList := by
  simp only [ofNames, String.toList_intercalate, List.map_append]
  induction names with
  | nil => exact absurd rfl hnames
  | cons n names ih =>
    cases names with
    | nil =>
      cases more with
      | nil => exact absurd rfl hmore
      | cons m more => simp [List.intercalate_cons_cons]
    | cons n' names =>
      have hrest := ih (List.cons_ne_nil _ _)
      simp only [List.map_cons, List.cons_append, List.intercalate_cons_cons, List.append_assoc] at hrest ⊢
      rw [hrest]

/-- The last character of a path made of names belongs to a name. -/
theorem getLast?_ofNames {names : List String} (h : ∀ n ∈ names, IsEntryName n) (hne : names ≠ []) :
    ∃ c, (ofNames names).text.toList.getLast? = some c ∧ c ≠ '/' := by
  obtain ⟨init, last, hlast⟩ := (List.eq_nil_or_concat names).resolve_left hne
  rw [List.concat_eq_append] at hlast
  have hname : IsEntryName last := h last (by simp [hlast])
  have hchars : last.toList ≠ [] := by simpa using hname.ne_empty
  have hend : (ofNames names).text.toList.getLast? = last.toList.getLast? := by
    rw [hlast]
    cases init with
    | nil => simp [ofNames]
    | cons n init =>
      rw [text_ofNames_append (List.cons_ne_nil _ _) (List.cons_ne_nil _ _)]
      simp [ofNames, List.getLast?_append, List.getLast?_cons, List.getLast?_eq_some_getLast hchars]
  refine ⟨last.toList.getLast hchars, hend.trans (List.getLast?_eq_some_getLast hchars), ?_⟩
  intro heq
  exact hname.no_separator (heq ▸ List.getLast_mem hchars)

theorem join_of_getLast? {p q : Path} {c : Char} (hq : q.isAbsolute = false) (h : p.text.toList.getLast? = some c)
    (hc : c ≠ '/') : p.join q = ⟨p.text ++ "/" ++ q.text⟩ := by
  simp [join, hq, h, hc]

/-- Going down by names and then by more names is going down by all of them. -/
theorem join_descend (p : Path) {names more : List String} (hnames : ∀ n ∈ names, IsEntryName n)
    (hmore : ∀ n ∈ more, IsEntryName n) (hne : more ≠ []) :
    (p.descend names).join (ofNames more) = p.descend (names ++ more) := by
  cases hempty : names with
  | nil => rw [List.nil_append, descend_of_ne_nil _ hne, descend]
  | cons n rest =>
    rw [← hempty]
    have hsome : names ≠ [] := hempty ▸ List.cons_ne_nil n rest
    rw [descend_of_ne_nil p hsome, descend_of_ne_nil p (by simp [hne])]
    obtain ⟨c, hc, hslash⟩ := getLast?_ofNames hnames hsome
    have hall : ∀ n ∈ names ++ more, IsEntryName n := fun n hn => (List.mem_append.1 hn).elim (hnames n) (hmore n)
    have hlast : (p.join (ofNames names)).text.toList.getLast? = some c := by
      simp only [join, isAbsolute_ofNames hnames]
      cases p.text.toList.getLast? with
      | none => simpa using hc
      | some d => by_cases hd : d = '/' <;> simp [hd, List.getLast?_append, List.getLast?_cons, hc]
    have htext : ofNames (names ++ more) = ⟨(ofNames names).text ++ "/" ++ (ofNames more).text⟩ := by
      have hchars := text_ofNames_append hsome hne
      apply congrArg Path.mk (String.toList_inj.1 (hchars.trans _))
      simp
    rw [join_of_getLast? (isAbsolute_ofNames hmore) hlast hslash]
    have habsolute := isAbsolute_ofNames hall
    rw [htext] at habsolute ⊢
    simp only [join, isAbsolute_ofNames hnames, habsolute]
    cases p.text.toList.getLast? with
    | none => rfl
    | some d => by_cases hd : d = '/' <;> simp [hd, String.append_assoc]

theorem descend_append (p : Path) {names more : List String} (hnames : ∀ n ∈ names, IsEntryName n)
    (hmore : ∀ n ∈ more, IsEntryName n) : (p.descend names).descend more = p.descend (names ++ more) := by
  cases hempty : more with
  | nil => simp [descend]
  | cons n rest =>
    rw [← hempty]
    have hne : more ≠ [] := hempty ▸ List.cons_ne_nil n rest
    rw [descend_of_ne_nil _ hne, join_descend p hnames hmore hne]

theorem isEntryName_of_componentOf {first : Bool} {s : List Char} {name : String} (hs : '/' ∉ s)
    (h : componentOf first s = some (.name name)) : IsEntryName name := by
  simp only [componentOf] at h
  split at h
  · cases h
  · rename_i hempty
    split at h
    · split at h <;> cases h
    · rename_i hhere
      split at h
      · cases h
      · rename_i hparent
        cases h
        have hne : ∀ t : String, (s == t.toList) = false → String.ofList s ≠ t := by
          rintro t ht rfl
          simp at ht
        exact ⟨hne "" (by simpa using hempty), hne "." (by simpa using hhere), hne ".." (by simpa using hparent),
          by simpa using hs⟩

/-- The last component of a path, if it is a name, may name an entry. -/
theorem isEntryName_of_fileName? {p : Path} {name : String} (h : p.fileName? = some name) :
    IsEntryName name := by
  have hmem : Component.name name ∈ p.components := by
    rw [fileName?] at h
    split at h
    · rename_i s hlast
      cases h
      exact List.mem_of_getLast? hlast
    · cases h
  have hsegment : ∃ first, ∃ s ∈ segments p.text.toList, componentOf first s = some (.name name) := by
    simp only [components] at hmem
    split at hmem
    · rcases List.mem_cons.1 hmem with hroot | hmem
      · cases hroot
      · obtain ⟨s, hs, hc⟩ := List.mem_filterMap.1 hmem
        exact ⟨_, s, hs, hc⟩
    · rcases List.mem_append.1 hmem with hmem | hmem
      · obtain ⟨s, hs, hc⟩ := List.mem_filterMap.1 hmem
        exact ⟨_, s, List.mem_of_mem_take hs, hc⟩
      · obtain ⟨s, hs, hc⟩ := List.mem_filterMap.1 hmem
        exact ⟨_, s, List.mem_of_mem_drop hs, hc⟩
  obtain ⟨first, s, hs, hc⟩ := hsegment
  exact isEntryName_of_componentOf (not_mem_of_mem_segments hs) hc

/-! ## Parents -/

theorem filterMap_dropWhile (segs : List (List Char)) :
    (segs.dropWhile fun s => !counts s).filterMap (componentOf false) = segs.filterMap (componentOf false) := by
  induction segs with
  | nil => rfl
  | cons s segs ih =>
    rw [List.dropWhile_cons]
    by_cases hs : counts s = true
    · simp [hs]
    · have hnone : componentOf false s = none := by simpa [counts] using hs
      simp [hs, ih, hnone]

theorem filterMap_segments_intercalate {segs : List (List Char)} (h : ∀ s ∈ segs, '/' ∉ s) :
    (segments (['/'].intercalate segs)).filterMap (componentOf false) = segs.filterMap (componentOf false) := by
  cases segs with
  | nil => rfl
  | cons s segs => rw [segments_intercalate h (List.cons_ne_nil _ _)]

theorem isAbsolute_of_segments {p : Path} {rest : List (List Char)} (h : segments p.text.toList = [] :: rest)
    (hrest : rest ≠ []) : p.isAbsolute = true := by
  rw [isAbsolute]
  cases htext : p.text.toList with
  | nil => simp [htext, segments, hrest.symm] at h
  | cons c text =>
    by_cases hc : c = '/'
    · simp [hc]
    · rw [htext, segments] at h
      simp only [beq_iff_eq, hc, if_false] at h
      split at h <;> cases h

/-- What is left of segments without the last one that counts. -/
theorem of_dropWhile_eq_cons {segs up : List (List Char)} {last : List Char}
    (h : (segs.reverse.dropWhile fun s => !counts s) = last :: up) :
    (∃ c, segs.filterMap (componentOf false) =
      (up.dropWhile fun s => !counts s).reverse.filterMap (componentOf false) ++ [c]) ∧
    ∀ s ∈ (up.dropWhile fun s => !counts s).reverse, s ∈ segs := by
  constructor
  · have hlast : counts last = true := by
      have hhead := List.head?_dropWhile_not (fun s => !counts s) segs.reverse
      simpa [h] using hhead
    obtain ⟨c, hc⟩ := Option.isSome_iff_exists.1 hlast
    have htrim := filterMap_dropWhile segs.reverse
    simp only [h, List.filterMap_cons, hc, List.filterMap_reverse] at htrim
    refine ⟨c, List.reverse_inj.1 ?_⟩
    simp [← htrim, filterMap_dropWhile]
  · intro s hs
    have hup : s ∈ up := (List.dropWhile_sublist _).subset (List.mem_reverse.1 hs)
    have hmem : s ∈ segs.reverse.dropWhile fun s => !counts s := h ▸ List.mem_cons_of_mem _ hup
    exact List.mem_reverse.1 ((List.dropWhile_sublist _).subset hmem)

theorem filterMap_of_dropWhile_eq_nil {segs : List (List Char)} (h : (segs.reverse.dropWhile fun s => !counts s) = []) :
    segs.filterMap (componentOf false) = [] := by
  have htrim := filterMap_dropWhile segs.reverse
  simpa [h] using htrim.symm

section

variable {p : Path} {first : List Char} {rest : List (List Char)} {init : List Component} {c : Component}

theorem exists_parent?_of_isAbsolute (habs : p.isAbsolute = true) (hsegs : segments p.text.toList = first :: rest)
    (h : p.parts = init ++ [c]) : ∃ q, p.parent? = some q ∧ q.lead = p.lead ∧ q.parts = init := by
  have hfirst : first = [] := by
    cases hne : first with
    | nil => rfl
    | cons d s => simp [isAbsolute_eq_false hsegs (hne ▸ List.cons_ne_nil d s)] at habs
  have hrest : rest.filterMap (componentOf false) = init ++ [c] := by
    rw [← h, parts, hsegs, hfirst]
    rfl
  cases hkeep : rest.reverse.dropWhile fun s => !counts s with
  | nil => simp [filterMap_of_dropWhile_eq_nil hkeep] at hrest
  | cons last up =>
    obtain ⟨⟨d, hparts⟩, hmem⟩ := of_dropWhile_eq_cons hkeep
    generalize hups : (up.dropWhile fun s => !counts s).reverse = ups at hparts hmem
    have hparent : p.parent? = some ⟨"/" ++ String.ofList (['/'].intercalate ups)⟩ := by
      simp [parent?, habs, hsegs, hkeep, hups]
    have hinit := (List.append_inj' (hparts.symm.trans hrest) rfl).1
    have hplain : ∀ s ∈ ups, '/' ∉ s :=
      fun s hs => not_mem_of_mem_segments (hsegs ▸ List.mem_cons_of_mem _ (hmem s hs))
    refine ⟨_, hparent, ?_, ?_⟩
    · rw [lead_eq_root_iff.2 habs, lead_eq_root_iff]
      simp [isAbsolute]
    · simp [parts, segments, componentOf, filterMap_segments_intercalate hplain, hinit]

theorem exists_parent?_of_relative (habs : p.isAbsolute = false) (hsegs : segments p.text.toList = first :: rest)
    (h : p.parts = init ++ [c]) : ∃ q, p.parent? = some q ∧ q.lead = p.lead ∧ q.parts = init := by
  rw [parts, hsegs] at h
  cases hkeep : rest.reverse.dropWhile fun s => !counts s with
  | nil =>
    -- The first segment is the only one that counts, and it is a name.
    rw [List.filterMap_cons, filterMap_of_dropWhile_eq_nil hkeep] at h
    have hfirst : ∃ d, componentOf false first = some d := by
      cases hd : componentOf false first with
      | none => simp [hd] at h
      | some d => exact ⟨d, rfl⟩
    obtain ⟨d, hd⟩ := hfirst
    have hempty : first ≠ [] := by
      intro heq
      simp [heq, componentOf] at hd
    have hhere : first ≠ ['.'] := by
      intro heq
      simp [heq, componentOf] at hd
    have hparent : p.parent? = some ⟨""⟩ := by simp [parent?, habs, hsegs, hkeep, hempty]
    have hlead : p.lead = [] := by simp [lead, habs, hsegs, hhere]
    rw [hd] at h
    have hinit : init = [] := (List.append_inj' (h.symm.trans (List.nil_append [d]).symm) rfl).1
    exact ⟨_, hparent, hlead.symm, hinit.symm⟩
  | cons last up =>
    obtain ⟨⟨d, hparts⟩, hmem⟩ := of_dropWhile_eq_cons hkeep
    generalize hups : (up.dropWhile fun s => !counts s).reverse = ups at hparts hmem
    have hplain : ∀ s ∈ first :: ups, '/' ∉ s := by
      intro s hs
      have hmem : s ∈ segments p.text.toList :=
        hsegs ▸ List.mem_cons.2 ((List.mem_cons.1 hs).imp_right (hmem s))
      exact not_mem_of_mem_segments hmem
    have hparent : ∃ q, p.parent? = some q ∧ segments q.text.toList = first :: ups :=
      ⟨⟨String.ofList (['/'].intercalate (first :: ups))⟩, by simp [parent?, habs, hsegs, hkeep, hups],
        by rw [String.toList_ofList, segments_intercalate hplain (List.cons_ne_nil _ _)]⟩
    have hempty : first ≠ [] := by
      intro heq
      have hrest : rest ≠ [] := by
        intro hnil
        simp [hnil] at hkeep
      rw [isAbsolute_of_segments (heq ▸ hsegs) hrest] at habs
      cases habs
    have hsplit : (first :: rest).filterMap (componentOf false) =
        (first :: ups).filterMap (componentOf false) ++ [d] := by
      rw [List.filterMap_cons, List.filterMap_cons, hparts]
      cases componentOf false first <;> rfl
    obtain ⟨q, hparent, hcut⟩ := hparent
    refine ⟨q, hparent, ?_, ?_⟩
    · rw [lead, lead, habs, isAbsolute_eq_false hcut hempty, hcut, hsegs]
      rfl
    · rw [parts, hcut]
      exact (List.append_inj' (hsplit.symm.trans h) rfl).1

/-- The parent of a path starts where the path does and has all its parts but the last. -/
theorem exists_parent? (h : p.parts = init ++ [c]) : ∃ q, p.parent? = some q ∧ q.lead = p.lead ∧ q.parts = init := by
  cases hsegs : segments p.text.toList with
  | nil => exact absurd hsegs (segments_ne_nil _)
  | cons first rest =>
    cases habs : p.isAbsolute with
    | true => exact exists_parent?_of_isAbsolute habs hsegs h
    | false => exact exists_parent?_of_relative habs hsegs h

theorem exists_parts_of_fileName? {name : String} (h : p.fileName? = some name) :
    ∃ init, p.parts = init ++ [.name name] := by
  rw [fileName?, components_eq] at h
  split at h
  · rename_i s hlast
    cases h
    rw [List.getLast?_append, Option.or_eq_some_iff] at hlast
    rcases hlast with hlast | ⟨-, hlast⟩
    · exact List.getLast?_eq_some_iff.1 hlast
    · rw [lead] at hlast
      split at hlast
      · simp at hlast
      · split at hlast <;> simp at hlast
  · cases h

/-- A file name joined to the parent of a path gives the parts of the path again, from the same start. -/
theorem join_parent? {name : String} (h : p.fileName? = some name) :
    ((p.parent?.getD ⟨""⟩).join (ofNames [name])).lead = p.lead ∧
      ((p.parent?.getD ⟨""⟩).join (ofNames [name])).parts = p.parts := by
  have hname : ∀ n ∈ [name], IsEntryName n := by simpa using isEntryName_of_fileName? h
  obtain ⟨init, hparts⟩ := exists_parts_of_fileName? h
  obtain ⟨q, hq, hlead, hinit⟩ := exists_parent? hparts
  rw [hq, Option.getD_some, lead_join_ofNames q hname, parts_join (isAbsolute_ofNames hname), parts_ofNames hname]
  exact ⟨hlead, by rw [hinit, hparts]; rfl⟩

end

/-! ## Order -/

theorem compare_self (c : Component) : c.compare c = .eq := by
  cases c with
  | name s => exact Std.compare_self
  | _ => rfl

theorem compareComponents_self (cs : List Component) : compareComponents cs cs = .eq := by
  induction cs with
  | nil => rfl
  | cons c cs ih =>
    rw [compareComponents, compare_self, ih]
    rfl

theorem compare_name_of_lt {a b : String} (h : a < b) : (Component.name a).compare (.name b) = .lt := by
  exact if_pos h

theorem compareComponents_of_lt {names names' : List String} (h : names < names') :
    compareComponents (names.map Component.name) (names'.map Component.name) = .lt := by
  induction names generalizing names' with
  | nil =>
    cases names' with
    | nil => cases h
    | cons => rfl
  | cons name names ih =>
    cases names' with
    | nil => cases h
    | cons name' names' =>
      rw [List.map_cons, List.map_cons, compareComponents]
      rcases List.cons_lt_cons_iff.1 h with hlt | ⟨rfl, hlt⟩
      · rw [compare_name_of_lt hlt]
        rfl
      · rw [compare_self, ih hlt]
        rfl

/-- Paths made of names in strict order are in strict order. -/
theorem pairwise_compare_ofNames {found : List (List String)} (hsorted : found.Pairwise (· < ·))
    (hnames : ∀ names ∈ found, ∀ n ∈ names, IsEntryName n) :
    (found.map ofNames).Pairwise fun p q => p.compare q = .lt := by
  rw [List.pairwise_map]
  refine hsorted.imp_of_mem ?_
  intro names names' hn hn' hlt
  rw [compare, components_ofNames (hnames names hn), components_ofNames (hnames names' hn')]
  exact compareComponents_of_lt hlt

theorem ne_of_compare_eq_lt {p q : Path} (h : p.compare q = .lt) : p ≠ q := by
  intro heq
  rw [heq, compare, compareComponents_self] at h
  cases h

end Path

end CallLineage
