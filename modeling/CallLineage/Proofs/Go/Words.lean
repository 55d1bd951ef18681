import CallLineage.Proofs.Go.Lines
import CallLineage.Proofs.Go.Reading
import CallLineage.Proofs.Go.Receivers
/-! Declared names are words.
A name in the tree of a text is what one rule of the grammar reads, and that rule takes a whole word. So the name of a
function is a word, and so is every name of a type that its receiver can have; no other node stands where they are
looked up. -/
namespace CallLineage.Go

theorem isWord_wordOf {text : List Char} (h : wordOf text ≠ "") : isWord (wordOf text) = true := by
  cases text with
  | nil => exact absurd rfl h
  | cons c r =>
    rw [wordOf] at h ⊢
    split
    · rename_i hstart
      simp [isWord, hstart, List.all_takeWhile]
    · rename_i hstart
      rw [if_neg hstart] at h
      exact absurd rfl h

theorem take_length_wordOf (text : List Char) : text.take (wordOf text).length = (wordOf text).toList := by
  cases text with
  | nil => rfl
  | cons c r =>
    rw [wordOf]
    split
    · simp only [String.length_ofList, List.length_cons, List.take_succ_cons, String.toList_ofList]
      rw [← List.prefix_iff_eq_take.1 (List.takeWhile_prefix isNameChar)]
    · rfl

/-! ## One node behind comments -/

/-- Comments, and behind them one node that is none and has the property. None of them plays a part yet. -/
inductive Forest.Single (P : Node → Prop) : Forest → Prop
  | of {comments : Forest} {n : Node} (remarks : ∀ c ∈ comments, c.isComment = true ∧ c.field = none)
      (noComment : n.isComment = false) (free : n.field = none) (holds : P n) : Single P (comments ++ [n])

namespace Forest

variable {P Q : Node → Prop} {f : Forest}

theorem Single.mono (h : Single P f) (hPQ : ∀ n, P n → Q n) : Single Q f := by
  cases h with
  | of remarks noComment free holds => exact .of remarks noComment free (hPQ _ holds)

theorem Single.isComment_or {m : Node} (h : Single P f) (hm : m ∈ f) : m.isComment = true ∨ P m := by
  cases h with
  | of remarks noComment free holds =>
    rcases List.mem_append.1 hm with hm | hm
    · exact .inl (remarks m hm).1
    · rw [List.mem_singleton.1 hm]
      exact .inr holds

/-- A node over a forest begins with the first node that is no comment. -/
theorem Single.branch {k : Kind} (hk : k ≠ .comment) (h : Single P f) (rest : Forest) :
    Single (fun m => ∃ p n, m = Node.branch k p (n :: rest) ∧ n.field = none ∧ P n) (Forest.branch k (f ++ rest)) := by
  cases h with
  | @of comments n remarks noComment free holds =>
    rw [List.append_assoc, List.singleton_append, branch_of_comments (fun c hc => (remarks c hc).1) noComment]
    exact .of remarks (by simp [Node.isComment, Node.branch, Node.kind, hk]) rfl ⟨_, n, rfl, free, holds⟩

theorem label_of_comments {comments : Forest} (field : Field) (n : Node) (hc : ∀ c ∈ comments, c.isComment = true)
    (hn : n.isComment = false) : label field (comments ++ [n]) = comments ++ [n.withField field] := by
  have hsame : comments.map (fun n => if n.isComment then n else n.withField field) = comments :=
    (List.map_congr_left fun c hc' => if_pos (hc c hc')).trans (List.map_id' comments)
  rw [label, List.map_append, hsame, List.map_singleton, hn]
  rfl

/-- Nodes with a part are passed over where another part is looked up. -/
theorem Single.find?_label_of_ne {field other : Field} (h : Single P f) (hne : other ≠ field) (rest : Forest) :
    (f.label other ++ rest).find? (fun c => c.field == some field) = rest.find? fun c => c.field == some field := by
  cases h with
  | @of comments n remarks noComment free holds =>
    have hnone : comments.find? (fun c => c.field == some field) = none :=
      List.find?_eq_none.2 fun c hc => by simp [(remarks c hc).2]
    rw [label_of_comments other n (fun c hc => (remarks c hc).1) noComment, List.append_assoc, List.find?_append, hnone]
    obtain ⟨k, _, p, t, b, cs⟩ := n
    simp [Node.withField, Node.field, hne]

theorem Single.exists_find?_label (h : Single P f) (field : Field) (rest : Forest) :
    ∃ n, P n ∧ (f.label field ++ rest).find? (fun c => c.field == some field) = some (n.withField field) := by
  cases h with
  | @of comments n remarks noComment free holds =>
    have hnone : comments.find? (fun c => c.field == some field) = none :=
      List.find?_eq_none.2 fun c hc => by simp [(remarks c hc).2]
    refine ⟨n, holds, ?_⟩
    rw [label_of_comments field n (fun c hc => (remarks c hc).1) noComment, List.append_assoc, List.find?_append, hnone]
    obtain ⟨k, _, p, t, b, cs⟩ := n
    simp [Node.withField, Node.field]

end Forest

theorem Cursor.field_of_mem_skipTrivia {lines : Bool} {limit n : Nat} {rest : List Char} {p : Position}
    {o : Nat} {x : Node} (h : x ∈ (skipTrivia lines limit n rest p o).1) : x.field = none := by
  induction rest generalizing n p o with
  | nil => cases n <;> cases h
  | cons y rest ih =>
    cases n with
    | succ n => exact ih h
    | zero =>
      rw [skipTrivia] at h
      split at h
      · exact ih h
      · split at h
        · cases h
        · rcases List.mem_cons.1 h with rfl | h
          · rfl
          · exact ih h

open Go.Parser

theorem single_take {k : Kind} (hk : k ≠ .comment) (n : Nat) (lines : Bool) :
    Yields (take k n lines) (Forest.Single fun m => m.kind = k) where
  of_run := by
    rintro c _ _ ⟨⟩
    exact .of (fun _ h => ⟨Cursor.isComment_of_mem_skipTrivia h, Cursor.field_of_mem_skipTrivia h⟩)
      (by simp [Node.isComment, Node.leaf, Node.kind, hk]) rfl rfl

theorem single_symbol (s : String) (lines : Bool) : Yields (symbol s lines) (Forest.Single fun m => m.kind = .token) :=
  .bind fun _ => .ite (single_take (k := .token) nofun ..) .refuse

theorem single_keyword (w : String) : Yields (keyword w) (Forest.Single fun m => m.kind = .token) :=
  .bind fun _ => .ite (single_take (k := .token) nofun ..) .refuse

/-- A name is the whole word that stands at the cursor. -/
theorem single_name {k : Kind} (hk : k ≠ .comment) :
    Yields (name k) (Forest.Single fun m => m.kind = k ∧ isWord m.text = true) where
  of_run := by
    intro c d f h
    obtain ⟨text, _, ha, h⟩ := bind_eq_ok.1 h
    obtain ⟨rfl, rfl⟩ := inspect_eq_ok.1 ha
    split at h
    · rename_i hahead
      cases h
      have hword : isWord (wordOf (c.ahead true)) = true := by
        apply isWord_wordOf
        rw [nameAhead, Bool.and_eq_true, bne_iff_ne] at hahead
        exact hahead.1
      refine .of (fun _ h => ⟨Cursor.isComment_of_mem_skipTrivia h, Cursor.field_of_mem_skipTrivia h⟩)
        (by simp [Node.isComment, Node.leaf, Node.kind, hk]) rfl ⟨rfl, ?_⟩
      have htake := take_length_wordOf (c.ahead true)
      rw [Cursor.ahead] at htake hword
      simp only [Node.text, Node.leaf, Cursor.ahead, htake, String.ofList_toList, hword]
    · cases h

/-! ## Types -/

namespace Node

def Worded (n : Node) : Prop := ∀ name, n.typeName? = some name → isWord name = true

theorem worded_of_other {n : Node} (h : n.kind ∉ [.typeIdentifier, .genericType, .pointerType, .parenthesizedType]) :
    n.Worded := by
  intro name hname
  rw [typeName?_of_other h] at hname
  cases hname

theorem worded_of_isComment {n : Node} (h : n.isComment = true) : n.Worded := by
  intro name hname
  rw [typeName?_of_isComment h] at hname
  cases hname

theorem typeName?_withField (field : Field) (n : Node) : (n.withField field).typeName? = n.typeName? := by
  obtain ⟨k, f, p, t, b, cs⟩ := n
  simp only [withField, typeName?, child?, children]

end Node

namespace Forest

variable {f : Forest}

def Worded (f : Forest) : Prop := ∀ n ∈ f, n.Worded

theorem Single.worded {P : Node → Prop} (h : Single P f) (hP : ∀ n, P n → n.Worded) : Worded f :=
  fun m hm => (h.isComment_or hm).elim Node.worded_of_isComment (hP m)

theorem Single.worded_token (h : Single (fun m => m.kind = .token) f) : Worded f :=
  h.worded fun n hn => Node.worded_of_other (by simp [hn])

theorem exists_of_mem_branch {k : Kind} {n : Node} (h : n ∈ Forest.branch k f) :
    n.isComment = true ∨ ∃ p cs, n = Node.branch k p cs ∧ cs ⊆ f := by
  rw [branch] at h
  have hcomment := List.all_eq_true.1 (List.all_takeWhile (p := Node.isComment) (l := f))
  split at h
  · exact .inl (hcomment n h)
  · rename_i m ms hrest
    rcases List.mem_append.1 h with h | h
    · exact .inl (hcomment n h)
    · exact .inr ⟨m.start, m :: ms, List.mem_singleton.1 h, hrest ▸ (List.dropWhile_sublist _).subset⟩

theorem worded_branch_other {k : Kind} (f : Forest)
    (hk : k ∉ [.typeIdentifier, .genericType, .pointerType, .parenthesizedType]) : Worded (Forest.branch k f) := by
  intro n hn
  rcases exists_of_mem_branch hn with hc | ⟨p, cs, rfl, -⟩
  · exact Node.worded_of_isComment hc
  · exact Node.worded_of_other hk

theorem worded_branch_layer {k : Kind} (hk : k = .pointerType ∨ k = .parenthesizedType) (hf : Worded f) :
    Worded (Forest.branch k f) := by
  intro n hn name hname
  rcases exists_of_mem_branch hn with hc | ⟨p, cs, rfl, hsubset⟩
  · exact Node.worded_of_isComment hc name hname
  · rw [Node.typeName?_of_isLayer (n := Node.branch k p cs) hk] at hname
    obtain ⟨inner, hinner, hname⟩ := Option.bind_eq_some_iff.1 hname
    exact hf inner (hsubset (List.mem_of_find?_eq_some hinner)) name hname

theorem Worded.append {f' : Forest} (h : Worded f) (h' : Worded f') : Worded (f ++ f') := by
  intro n hn
  exact (List.mem_append.1 hn).elim (h n) (h' n)

/-- The types among nodes that were given a part. -/
theorem Worded.of_mem_label {field : Field} {m : Node} (h : Worded f) (hm : m ∈ f.label field) : m.Worded := by
  obtain ⟨n, hn, rfl⟩ := List.mem_map.1 hm
  split
  · exact h n hn
  · intro name hname
    rw [Node.typeName?_withField] at hname
    exact h n hn name hname

theorem field_of_mem_label {field : Field} {m : Node} (hm : m ∈ f.label field) (hc : m.isComment = false) :
    m.field = some field := by
  obtain ⟨n, hn, rfl⟩ := List.mem_map.1 hm
  split at hc
  · rename_i hcomment
    rw [hcomment] at hc
    cases hc
  · rename_i hcomment
    rw [if_neg hcomment]
    cases n
    rfl

/-- The base of a type with arguments is looked up by its part, which no argument plays. -/
theorem worded_branch_generic {base : Forest} (hbase : Worded base) (arguments : Forest) :
    Worded (Forest.branch .genericType (base.label .type ++ arguments.label .typeArguments)) := by
  intro n hn name hname
  rcases exists_of_mem_branch hn with hc | ⟨p, cs, rfl, hsubset⟩
  · exact Node.worded_of_isComment hc name hname
  · rw [Node.typeName?_of_genericType rfl] at hname
    obtain ⟨m, hm, hname⟩ := Option.bind_eq_some_iff.1 hname
    split at hname
    · rename_i hkind
      cases hname
      have hfield : m.field = some .type := by simpa using List.find?_some hm
      rcases List.mem_append.1 (hsubset (List.mem_of_find?_eq_some hm)) with hm | hm
      · exact hbase.of_mem_label hm m.text (Node.typeName?_of_typeIdentifier hkind)
      · rw [field_of_mem_label hm (by simp [Node.isComment, hkind])] at hfield
        cases hfield
    · cases hname

theorem Single.worded_relabel {P : Node → Prop} (h : Single P f) (hP : ∀ n, P n → isWord n.text = true) :
    Worded (f.relabel .typeIdentifier) := by
  cases h with
  | @of comments n remarks noComment free holds =>
    intro m hm name hname
    obtain ⟨n', hn', rfl⟩ := List.mem_map.1 hm
    rcases List.mem_append.1 hn' with hn' | hn'
    · rw [if_pos (remarks n' hn').1] at hname
      exact Node.worded_of_isComment (remarks n' hn').1 name hname
    · rw [List.mem_singleton.1 hn', noComment] at hname
      obtain ⟨k, _, p, t, b, cs⟩ := n
      rw [← Option.some.inj (hname : some t = some name)]
      exact hP _ holds

end Forest

namespace Grammar

variable {g : Grammar}

theorem worded_namedTypeTail (newline : Bool) {first : Forest} {P : Node → Prop} (hfirst : Forest.Single P first)
    (hP : ∀ n, P n → isWord n.text = true) : Yields (namedTypeTail g newline first) Forest.Worded := by
  have hbase : ∀ base, Forest.Worded base → Yields (do
      if ← at? "[" (!newline) then
        let arguments ← typeArguments g
        return Forest.branch .genericType (base.label .type ++ arguments.label .typeArguments)
      return base) Forest.Worded := by
    intro base hbase
    refine .bind fun _ => .ite (.bind fun arguments => .pure ?_) (.pure hbase)
    exact Forest.worded_branch_generic hbase arguments
  refine .bind fun _ => .ite (.bind fun _ => .bind fun _ => hbase _ ?_) (hbase _ ?_)
  · exact Forest.worded_branch_other _ (by decide)
  · exact hfirst.worded_relabel hP

theorem worded_namedType (newline : Bool) : Yields (namedType g newline) Forest.Worded :=
  .andThen (single_name nofun) fun _ hfirst => worded_namedTypeTail newline hfirst fun _ hn => hn.2

theorem worded_other {k : Kind} (f : Forest)
    (hk : k ∉ [.typeIdentifier, .genericType, .pointerType, .parenthesizedType]) :
    Yields (pure (Forest.branch k f)) Forest.Worded :=
  .pure (Forest.worded_branch_other f hk)

theorem worded_arrayType (newline implicit : Bool) : Yields (arrayType g newline implicit) Forest.Worded := by
  refine .bind fun _ => .bind fun _ => .ite ?_ (.bind fun _ => .ite ?_ ?_)
  · exact .bind fun _ => .bind fun _ => worded_other _ (by decide)
  · exact .bind fun _ => .bind fun _ => .bind fun _ => worded_other _ (by decide)
  · exact .bind fun _ => .bind fun _ => .bind fun _ => worded_other _ (by decide)

theorem worded_channelType (newline : Bool) : Yields (channelType g newline) Forest.Worded := by
  refine .bind fun _ => .ite ?_ (.bind fun _ => .bind fun _ => .ite ?_ ?_)
  · exact .bind fun _ => .bind fun _ => .bind fun _ => worded_other _ (by decide)
  · exact .bind fun _ => .bind fun _ => worded_other _ (by decide)
  · exact .bind fun _ => .bind fun _ => worded_other _ (by decide)

theorem worded_structType : Yields (structType g) Forest.Worded :=
  .bind fun _ => .bind fun _ => .bind fun _ => .bind fun _ => worded_other _ (by decide)

theorem worded_interfaceType : Yields (interfaceType g) Forest.Worded :=
  .bind fun _ => .bind fun _ => .bind fun _ => .bind fun _ => worded_other _ (by decide)

theorem worded_mapType (newline : Bool) : Yields (mapType g newline) Forest.Worded :=
  .bind fun _ => .bind fun _ => .bind fun _ => .bind fun _ => .bind fun _ => worded_other _ (by decide)

theorem worded_functionType (newline : Bool) : Yields (functionType g newline) Forest.Worded :=
  .bind fun _ => .bind fun _ => worded_other _ (by decide)

/-- One case for each form of a type; pointers and parentheses hand on what the types inside them are. -/
theorem worded_type (hg : ∀ newline, Yields (g (.type newline)) Forest.Worded) (newline : Bool) :
    Yields (type g newline) Forest.Worded := by
  refine .bind fun text => ?_
  split
  · refine .andThen (single_symbol ..) fun left hleft => .andThen (hg false) fun inner hinner => ?_
    refine .andThen (single_symbol ..) fun right hright => .pure ?_
    exact Forest.worded_branch_layer (.inr rfl) ((hleft.worded_token.append hinner).append hright.worded_token)
  · refine .andThen (single_symbol ..) fun star hstar => .andThen (hg newline) fun inner hinner => .pure ?_
    exact Forest.worded_branch_layer (.inl rfl) (hstar.worded_token.append hinner)
  · exact .bind fun _ => .bind fun _ => worded_other _ (by decide)
  · exact worded_arrayType ..
  · exact worded_channelType _
  · split
    · exact worded_structType
    · exact worded_interfaceType
    · exact worded_mapType _
    · exact worded_channelType _
    · exact worded_functionType _
    · exact worded_namedType _

end Grammar

/-! ## Parameters -/

def Node.ParameterWorded (p : Node) : Prop :=
  p.kind = .parameterDeclaration → ∀ type, p.child? .type = some type → type.Worded

namespace Forest

def ParametersWorded (f : Forest) : Prop := ∀ p ∈ f, p.ParameterWorded

def Separates (f : Forest) : Prop := ∀ n ∈ f, n.field = none ∧ n.kind ≠ .parameterDeclaration

theorem Single.separates {f : Forest} (h : Single (fun m => m.kind = .token) f) : Separates f := by
  cases h with
  | of remarks noComment free holds =>
    intro n hn
    rcases List.mem_append.1 hn with hn | hn
    · have hkind : n.kind = .comment := by simpa [Node.isComment] using (remarks n hn).1
      exact ⟨(remarks n hn).2, by simp [hkind]⟩
    · rw [List.mem_singleton.1 hn]
      exact ⟨free, by simp [holds]⟩

theorem Separates.parametersWorded {f : Forest} (h : Separates f) : ParametersWorded f :=
  fun n hn hkind => absurd hkind (h n hn).2

theorem ParametersWorded.append {f f' : Forest} (h : ParametersWorded f) (h' : ParametersWorded f') :
    ParametersWorded (f ++ f') :=
  fun n hn => (List.mem_append.1 hn).elim (h n) (h' n)

theorem parametersWorded_branch_other {k : Kind} (f : Forest) (hk : k ≠ .parameterDeclaration) :
    ParametersWorded (Forest.branch k f) := by
  intro n hn hkind
  rcases mem_branch hn with hc | hk'
  · simp [Node.isComment, hkind] at hc
  · exact absurd (hk'.symm.trans hkind) hk

/-- The type of a parameter is looked up by its part, which nothing in front of it plays. -/
theorem parametersWorded_branch {front type : Forest} (hfront : ∀ m ∈ front, m.field ≠ some .type)
    (htype : Worded type) : ParametersWorded (Forest.branch .parameterDeclaration (front ++ type.label .type)) := by
  intro n hn hkind m hm
  rcases exists_of_mem_branch hn with hc | ⟨p, cs, rfl, hsubset⟩
  · simp [Node.isComment, hkind] at hc
  · have hfield : m.field = some .type := by simpa using List.find?_some hm
    rcases List.mem_append.1 (hsubset (List.mem_of_find?_eq_some hm)) with hm | hm
    · exact absurd hfield (hfront m hm)
    · exact htype.of_mem_label hm

theorem Single.field_of_mem_label {P : Node → Prop} {f : Forest} {field : Field} {m : Node} (h : Single P f)
    (hm : m ∈ f.label field) : m.field = none ∨ m.field = some field := by
  cases h with
  | @of comments n remarks noComment free holds =>
    rw [label_of_comments field n (fun c hc => (remarks c hc).1) noComment] at hm
    rcases List.mem_append.1 hm with hm | hm
    · exact .inl (remarks m hm).2
    · rw [List.mem_singleton.1 hm]
      cases n
      exact .inr rfl

end Forest

namespace Grammar

variable {g : Grammar}

theorem parametersWorded_unnamedParameter {type : Forest} (h : type.Worded) :
    (unnamedParameter type).ParametersWorded :=
  Forest.parametersWorded_branch (List.forall_mem_nil _) h

inductive ParameterEntry.Worded : ParameterEntry → Prop
  | lone {first : Forest} (isName : first.Single fun n => isWord n.text = true) : Worded (.lone first)
  | named {first type : Forest} (isName : first.Single fun n => isWord n.text = true) (isType : type.Worded) :
      Worded (.named first type)
  | complete {declaration : Forest} (parameters : declaration.ParametersWorded) : Worded (.complete declaration)

theorem worded_parameterEntry (hg : ∀ newline, Yields (g (.type newline)) Forest.Worded) :
    Yields (parameterEntry g) ParameterEntry.Worded := by
  have htail : ∀ {first : Forest}, (first.Single fun n => isWord n.text = true) →
      Yields (do return ParameterEntry.complete (unnamedParameter (← namedTypeTail g false first)))
        ParameterEntry.Worded := by
    intro first hfirst
    refine .andThen (worded_namedTypeTail false hfirst fun _ hn => hn) fun type htype => .pure ?_
    exact .complete (parametersWorded_unnamedParameter htype)
  refine .bind fun text => .ite ?_ (.ite ?_ ?_)
  · exact .bind fun _ => .bind fun _ => .pure (.complete (Forest.parametersWorded_branch_other _ nofun))
  · exact .andThen (hg false) fun type htype => .pure (.complete (parametersWorded_unnamedParameter htype))
  · refine .andThen (single_name (k := .identifier) nofun) fun first hfirst => .bind fun text => ?_
    have hname := hfirst.mono fun _ hn => hn.2
    refine .ite (.pure (.lone hname)) (.ite ?_ (.ite (htail hname) (.ite (.either ?_ (htail hname)) ?_)))
    · exact .bind fun _ => .bind fun _ => .pure (.complete (Forest.parametersWorded_branch_other _ nofun))
    · exact .andThen (hg false) fun type htype => .bind fun _ => .ite (.pure (.named hname htype)) .refuse
    · exact .andThen (hg false) fun type htype => .pure (.named hname htype)

theorem parametersWorded_groupParameters {entries : List (ParameterEntry × Forest)}
    (h : ∀ e ∈ entries, e.1.Worded ∧ e.2.Separates) {pending types : Forest}
    (hpending : ∀ m ∈ pending, m.field ≠ some .type) (htypes : types.ParametersWorded) :
    (groupParameters pending types entries).ParametersWorded := by
  induction entries generalizing pending types with
  | nil => exact htypes
  | cons entry entries ih =>
    obtain ⟨⟨hentry, hcomma⟩, hrest⟩ := List.forall_mem_cons.1 h
    obtain ⟨entry, comma⟩ := entry
    -- A name that waits for its type stands as a parameter of that name or as a type of its own.
    have hwaiting : ∀ {first : Forest}, (first.Single fun n => isWord n.text = true) →
        ∀ m ∈ pending ++ first.label .name, m.field ≠ some .type := by
      intro first hfirst m hm
      rcases List.mem_append.1 hm with hm | hm
      · exact hpending m hm
      · rcases hfirst.field_of_mem_label hm with hfield | hfield <;> simp [hfield]
    cases hentry with
    | lone isName =>
      refine ih hrest ?_ ((htypes.append ?_).append hcomma.parametersWorded)
      · intro m hm
        rcases List.mem_append.1 hm with hm | hm
        · exact hwaiting isName m hm
        · simp [(hcomma m hm).1]
      · exact parametersWorded_unnamedParameter (isName.worded_relabel fun _ hn => hn)
    | named isName isType =>
      refine ((Forest.parametersWorded_branch (hwaiting isName) isType).append hcomma.parametersWorded).append ?_
      exact ih hrest nofun nofun
    | complete parameters =>
      exact ((htypes.append parameters).append hcomma.parametersWorded).append (ih hrest nofun nofun)

theorem worded_parameterEntries (hg : ∀ newline, Yields (g (.type newline)) Forest.Worded) (fuel : Nat) :
    Yields (parameterEntries g fuel) fun entries => ∀ e ∈ entries, e.1.Worded ∧ e.2.Separates := by
  induction fuel with
  | zero => exact .pure nofun
  | succ fuel ih =>
    refine .andThen (worded_parameterEntry hg) fun entry hentry => .bind fun _ => .ite ?_ ?_
    · refine .andThen (single_symbol ..) fun comma hcomma => .bind fun _ => .ite ?_ ?_
      · exact .pure (List.forall_mem_singleton.2 ⟨hentry, hcomma.separates⟩)
      · refine .andThen ih fun entries hentries => .pure ?_
        exact List.forall_mem_cons.2 ⟨⟨hentry, hcomma.separates⟩, hentries⟩
    · exact .pure (List.forall_mem_singleton.2 ⟨hentry, nofun⟩)

theorem worded_parameters (hg : ∀ newline, Yields (g (.type newline)) Forest.Worded) :
    Yields (parameters g) (Forest.Single fun list => Forest.ParametersWorded list.children) := by
  refine .andThen (single_symbol ..) fun left hleft => ?_
  have hclose : ∀ {inner : Forest}, inner.ParametersWorded →
      Yields (do return Forest.branch .parameterList (left ++ inner ++ (← symbol ")")))
        (Forest.Single fun list => Forest.ParametersWorded list.children) := by
    intro inner hinner
    refine .andThen (single_symbol ..) fun right hright => .pure ?_
    rw [List.append_assoc]
    refine (hleft.branch (k := .parameterList) nofun (inner ++ right)).mono ?_
    rintro _ ⟨p, n, rfl, -, htoken⟩
    refine List.forall_mem_cons.2 ⟨?_, hinner.append hright.separates.parametersWorded⟩
    exact fun hkind => absurd (htoken.symm.trans hkind) nofun
  refine .bind fun _ => .bind fun _ => .ite (hclose nofun) (.ite ?_ (.bind fun _ => ?_))
  · exact .andThen (single_symbol ..) fun comma hcomma => hclose hcomma.separates.parametersWorded
  · exact .andThen (worded_parameterEntries hg _) fun entries hentries =>
      hclose (parametersWorded_groupParameters hentries nofun nofun)

/-- However deep the grammar is unrolled, types have no names but words. -/
theorem worded_unrolled_type (depth : Nat) (newline : Bool) :
    Yields (unrolled depth (.type newline)) Forest.Worded := by
  induction depth generalizing newline with
  | zero => exact .refuse
  | succ depth ih => exact worded_type ih newline

theorem worded_unrolled_parameters (depth : Nat) :
    Yields (unrolled depth .parameters) (Forest.Single fun list => Forest.ParametersWorded list.children) := by
  cases depth with
  | zero => exact .refuse
  | succ depth => exact worded_parameters (worded_unrolled_type depth)

end Grammar

/-! ## Declarations -/

/-- The name that is declared is a word, and so is the name of the receiver if it has one. -/
structure Node.DeclaresWords (n : Node) : Prop where
  name : ∀ m, n.child? .name = some m → isWord m.text = true
  receiver : n.kind = .methodDeclaration → ∀ r, n.receiver? = some r → isWord r = true

def Forest.DeclaresWords (f : Forest) : Prop := ∀ n ∈ f, n.isDeclaration = true → n.DeclaresWords

theorem Forest.Bare.declaresWords {f : Forest} (h : f.Bare) : f.DeclaresWords := by
  intro n hn hdeclaration
  rw [h n hn] at hdeclaration
  cases hdeclaration

theorem Forest.DeclaresWords.append {f f' : Forest} (h : f.DeclaresWords) (h' : f'.DeclaresWords) :
    Forest.DeclaresWords (f ++ f') :=
  fun n hn => (List.mem_append.1 hn).elim (h n) (h' n)

theorem Forest.Single.declaresWords {P : Node → Prop} {f : Forest} (h : f.Single P)
    (hP : ∀ n, P n → n.DeclaresWords) : f.DeclaresWords := by
  intro n hn hdeclaration
  rcases h.isComment_or hn with hc | hn
  · rw [bare_of_comments (f := [n]) (by simpa using hc) n (by simp)] at hdeclaration
    cases hdeclaration
  · exact hP n hn

theorem Node.text_withField (field : Field) (n : Node) : (n.withField field).text = n.text := by
  cases n
  rfl

theorem Node.children_withField (field : Field) (n : Node) : (n.withField field).children = n.children := by
  cases n
  rfl

namespace Grammar

theorem declaresWords_functionDeclaration (g : Grammar) :
    Yields (functionDeclaration g) Forest.DeclaresWords := by
  refine .andThen (single_keyword _) fun word hword => ?_
  refine .andThen (single_name (k := .identifier) nofun) fun first hfirst => ?_
  have hdeclares : ∀ rest, Yields (pure (Forest.branch .functionDeclaration (word ++ first.label .name ++ rest)))
      Forest.DeclaresWords := by
    intro rest
    rw [List.append_assoc]
    refine .pure ((hword.branch (k := .functionDeclaration) nofun _).declaresWords ?_)
    rintro _ ⟨p, n, rfl, hfree, -⟩
    refine ⟨fun m hm => ?_, nofun⟩
    obtain ⟨name, hname, hfind⟩ := hfirst.exists_find?_label .name rest
    rw [Node.child?, Node.branch, Node.children, List.find?_cons_of_neg (by simp [hfree]), hfind] at hm
    rw [← Option.some.inj hm, Node.text_withField]
    exact hname.2
  refine .bind fun _ => .ite ?_ ?_
  all_goals
    refine .bind fun _ => .bind fun _ => .bind fun _ => ?_
    simpa only [List.append_assoc] using hdeclares _

theorem declaresWords_methodDeclaration {g : Grammar}
    (hg : Yields (g .parameters) (Forest.Single fun list => Forest.ParametersWorded list.children)) :
    Yields (methodDeclaration g) Forest.DeclaresWords := by
  refine .andThen (single_keyword _) fun word hword => .andThen hg fun receiver hreceiver => ?_
  refine .andThen (single_name (k := .fieldIdentifier) nofun) fun first hfirst => ?_
  refine .bind fun shape => .bind fun body => ?_
  simp only [List.append_assoc]
  refine .pure ((hword.branch (k := .methodDeclaration) nofun _).declaresWords ?_)
  rintro _ ⟨p, n, rfl, hfree, -⟩
  refine ⟨fun m hm => ?_, fun _ r hr => ?_⟩
  · obtain ⟨name, hname, hfind⟩ := hfirst.exists_find?_label .name (shape ++ body)
    rw [Node.child?, Node.branch, Node.children, List.find?_cons_of_neg (by simp [hfree]),
      hreceiver.find?_label_of_ne (by decide), hfind] at hm
    rw [← Option.some.inj hm, Node.text_withField]
    exact hname.2
  · obtain ⟨list, hlist, hfind⟩ := hreceiver.exists_find?_label .receiver (first.label .name ++ (shape ++ body))
    rw [Node.receiver?_eq] at hr
    obtain ⟨type, htype, hr⟩ := Option.bind_eq_some_iff.1 hr
    obtain ⟨list', hlist', htype⟩ := Option.bind_eq_some_iff.1 htype
    obtain ⟨parameter, hparameter, htype⟩ := Option.bind_eq_some_iff.1 htype
    rw [Node.child?, Node.branch, Node.children, List.find?_cons_of_neg (by simp [hfree]), hfind] at hlist'
    rw [← Option.some.inj hlist', Node.namedChildren, Node.children_withField] at hparameter
    have hkind : parameter.kind = .parameterDeclaration := by simpa using List.find?_some hparameter
    exact hlist parameter (List.mem_filter.1 (List.mem_of_find?_eq_some hparameter)).1 hkind type htype r hr

theorem declaresWords_item (depth : Nat) : Yields (item (unrolled depth)) Forest.DeclaresWords := by
  have hmethod := declaresWords_methodDeclaration (worded_unrolled_parameters depth)
  refine .bind fun _ => ?_
  split
  · exact bare_packageClause.mono fun _ h => h.declaresWords
  · exact bare_importDeclaration.mono fun _ h => h.declaresWords
  · refine .bind fun _ => .ite hmethod (.either (declaresWords_functionDeclaration _) ?_)
    exact (bare_statement _).mono fun _ h => h.declaresWords
  · exact (bare_statement _).mono fun _ h => h.declaresWords

theorem declaresWords_itemEnd {more : Parser Forest} (hmore : Yields more Forest.DeclaresWords) (first : Bool)
    (start : Nat) {one : Forest} (hone : one.DeclaresWords) :
    Yields (itemEnd more first start one) Forest.DeclaresWords := by
  refine .bind fun _ => .ite ?_ (.bind fun _ => .bind fun _ => .ite ?_ .refuse)
  · refine .andThen bare_terminator fun t ht => .andThen hmore fun rest hrest => .pure ?_
    exact (hone.append ht.declaresWords).append hrest
  · exact .andThen hmore fun rest hrest => .pure (hone.append hrest)

theorem declaresWords_items (depth fuel : Nat) (first : Bool) :
    Yields (items (unrolled depth) fuel first) Forest.DeclaresWords := by
  induction fuel generalizing first with
  | zero => exact .pure nofun
  | succ fuel ih =>
    refine .andThen (Q := fun here => ∀ n ∈ here.1, n.isComment = true) ⟨?_⟩ fun here hhere => .ite (.pure ?_) ?_
    · rintro c d _ ⟨⟩ n hn
      exact Cursor.isComment_of_mem_skipTrivia hn
    · exact (Forest.bare_of_comments hhere).declaresWords
    · exact .andThen (declaresWords_item depth) fun one hone => declaresWords_itemEnd (ih false) first _ hone

end Grammar

theorem declaresWords_sourceTree (text : String) : Forest.DeclaresWords (sourceTree text).children := by
  simp only [sourceTree]
  split
  · rename_i hrun
    exact (Grammar.declaresWords_items _ _ _).of_run hrun
  · exact Forest.Bare.declaresWords (List.forall_mem_singleton.2 rfl)

structure Worded (d : Declaration) : Prop where
  name_eq : d.name = qualifiedName d.receiver d.function
  function : isWord d.function = true
  receiver : ∀ r, d.receiver = some r → isWord r = true

theorem worded_of_declaredNode? {path : Path} {text : String} {n : Node} {d : DeclaredNode}
    (hn : n ∈ (sourceTree text).namedChildren) (h : Source.declaredNode? path n = some d) : Worded d.declaration := by
  have hwords := declaresWords_sourceTree text n (List.mem_filter.1 hn).1 (Source.of_declaredNode? h).1
  obtain ⟨receiver, hreceiver, h⟩ := Option.bind_eq_some_iff.1 h
  obtain ⟨name, hname, h⟩ := Option.bind_eq_some_iff.1 h
  cases h
  refine ⟨rfl, hwords.name name hname, fun r hr => ?_⟩
  cases (hr : receiver = some r)
  rw [Node.declaredReceiver?] at hreceiver
  split at hreceiver
  · cases hreceiver
  · rename_i hkind
    obtain ⟨r', hr', hsome⟩ := Option.map_eq_some_iff.1 hreceiver
    cases hsome
    exact hwords.receiver hkind r hr'
  · cases hreceiver

end CallLineage.Go
