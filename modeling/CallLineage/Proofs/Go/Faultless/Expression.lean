import CallLineage.Proofs.Go.Lines
/-! Types and expressions are read without a fault.
No rule makes an error or missing node, and a node over others is marked only when it is a fault or one of them is
marked. So in everything that a rule answers there is neither a fault nor a mark: one lemma for each rule follows its
steps, given that the rules which it calls keep to this. -/
namespace CallLineage.Go

/-- Neither the node nor one below it is a fault or is marked faulty. -/
inductive Node.Faultless : Node → Prop
  | mk {k : Kind} {f : Option Field} {p : Position} {t : String} {cs : List Node} (noFault : k.isFault = false)
      (below : ∀ c ∈ cs, Faultless c) : Faultless (.mk k f p t false cs)

namespace Node.Faultless

variable {n : Node}

theorem withField (h : n.Faultless) (field : Field) : (n.withField field).Faultless := by
  cases h with
  | mk noFault below => exact .mk noFault below

theorem withKind {k : Kind} (hk : k.isFault = false) (h : n.Faultless) : (n.withKind k).Faultless := by
  cases h with
  | mk noFault below => exact .mk hk below

theorem leaf {k : Kind} (hk : k.isFault = false) (p : Position) (t : String) : (Node.leaf k p t).Faultless := by
  rw [Node.leaf, hk]
  exact .mk hk (List.forall_mem_nil _)

theorem faulty_eq (h : n.Faultless) : n.faulty = false := by
  cases h with
  | mk noFault below => rfl

theorem branch {k : Kind} (hk : k.isFault = false) (p : Position) {cs : List Node} (h : ∀ c ∈ cs, c.Faultless) :
    (Node.branch k p cs).Faultless := by
  have hany : cs.any Node.faulty = false := List.any_eq_false.2 fun c hc => by simp [(h c hc).faulty_eq]
  rw [Node.branch, hk, hany]
  exact .mk hk h

end Node.Faultless

namespace Forest

variable {f f' : Forest}

def Faultless (f : Forest) : Prop := ∀ n ∈ f, n.Faultless

@[simp] theorem faultless_nil : Faultless [] := List.forall_mem_nil _

@[simp] theorem faultless_append : Faultless (f ++ f') ↔ f.Faultless ∧ f'.Faultless := List.forall_mem_append

@[simp] theorem Faultless.label (h : f.Faultless) (field : Field) : (f.label field).Faultless := by
  intro m hm
  obtain ⟨n, hn, rfl⟩ := List.mem_map.1 hm
  split
  · exact h n hn
  · exact (h n hn).withField field

theorem Faultless.relabel {k : Kind} (hk : k.isFault = false) (h : f.Faultless) : (f.relabel k).Faultless := by
  intro m hm
  obtain ⟨n, hn, rfl⟩ := List.mem_map.1 hm
  split
  · exact h n hn
  · exact (h n hn).withKind hk

theorem Faultless.branch {k : Kind} (hk : k.isFault = false) (h : f.Faultless) : (Forest.branch k f).Faultless := by
  rw [Forest.branch]
  have hcomments : ∀ n ∈ f.takeWhile Node.isComment, n.Faultless :=
    fun n hn => h n ((List.takeWhile_sublist _).subset hn)
  split
  · exact hcomments
  · rename_i n ns hrest
    refine List.forall_mem_append.2 ⟨hcomments, ?_⟩
    rw [List.forall_mem_singleton]
    exact .branch hk _ fun c hc => h c ((List.dropWhile_sublist _).subset (hrest ▸ hc))

end Forest

open Go.Parser

/-! ## Tokens and lists -/

theorem Cursor.faultless_skipTrivia (lines : Bool) (limit n : Nat) (rest : List Char) (p : Position) (o : Nat) :
    Forest.Faultless (skipTrivia lines limit n rest p o).1 := by
  induction rest generalizing n p o with
  | nil => cases n <;> exact Forest.faultless_nil
  | cons x rest ih =>
    cases n with
    | succ n => exact ih n _ _
    | zero =>
      rw [skipTrivia]
      split
      · exact ih 0 _ _
      · split
        · exact Forest.faultless_nil
        · exact List.forall_mem_cons.2 ⟨.leaf rfl _ _, ih _ _ _⟩

namespace Parser

theorem faultless_take {k : Kind} (hk : k.isFault = false) {n : Nat} {lines : Bool} :
    Yields (take k n lines) Forest.Faultless where
  of_run := by
    rintro c _ _ ⟨⟩
    refine Forest.faultless_append.2 ⟨Cursor.faultless_skipTrivia lines _ 0 _ _ _, ?_⟩
    exact List.forall_mem_singleton.2 (.leaf hk _ _)

theorem faultless_symbol {s : String} {lines : Bool} : Yields (symbol s lines) Forest.Faultless :=
  .bind fun _ => .ite (faultless_take rfl) .refuse

theorem faultless_keyword {w : String} : Yields (keyword w) Forest.Faultless :=
  .bind fun _ => .ite (faultless_take rfl) .refuse

theorem faultless_name {k : Kind} (hk : k.isFault = false) : Yields (name k) Forest.Faultless :=
  .bind fun _ => .ite (faultless_take hk) .refuse

/-- A node over what has been read and what comes next. -/
theorem Yields.close {k : Kind} (hk : k.isFault = false) {f : Forest} (hf : f.Faultless) {p : Parser Forest}
    (hp : Yields p Forest.Faultless) : Yields (do return Forest.branch k (f ++ (← p))) Forest.Faultless :=
  .andThen hp fun _ hlast => .pure (.branch hk (Forest.faultless_append.2 ⟨hf, hlast⟩))

/-- What has been read, and what comes next. -/
theorem Yields.join {f : Forest} (hf : f.Faultless) {p : Parser Forest} (hp : Yields p Forest.Faultless) :
    Yields (do return f ++ (← p)) Forest.Faultless :=
  .andThen hp fun _ hlast => .pure (Forest.faultless_append.2 ⟨hf, hlast⟩)

/-- A node over an opening token, what comes next, and a closing token. -/
theorem Yields.enclose {k : Kind} (hk : k.isFault = false) {left : Forest} (hleft : left.Faultless) {close : String}
    {p : Parser Forest} (hp : Yields p Forest.Faultless) :
    Yields (do
      let inner ← p
      return Forest.branch k (left ++ inner ++ (← symbol close))) Forest.Faultless :=
  .andThen hp fun _ hinner => .close hk (Forest.faultless_append.2 ⟨hleft, hinner⟩) faultless_symbol

section

variable {step : Parser (Option Forest)} {item : Parser Forest}

theorem faultless_many (h : Yields step fun o => ∀ f ∈ o, Forest.Faultless f) :
    Yields (many step) Forest.Faultless := by
  have hloop : ∀ fuel, Yields (loop step fuel) Forest.Faultless := by
    intro fuel
    induction fuel with
    | zero => exact .pure Forest.faultless_nil
    | succ fuel ih =>
      refine .andThen h fun o ho => ?_
      cases o with
      | none => exact .pure Forest.faultless_nil
      | some f => exact .join (ho f rfl) ih
  exact .bind fun limit => hloop (limit + 1)

theorem faultless_separated {separator : String} {lines : Bool} (h : Yields item Forest.Faultless) :
    Yields (separated separator lines item) Forest.Faultless :=
  faultless_many (.bind fun _ => .ite
    (.andThen faultless_symbol fun _ hseparator => .andThen h fun _ hitem => .pure (by simp [*]))
    (.pure nofun))

/-- What follows the first item of a list with commas, of which the last one may stand before the closing token. -/
theorem faultless_furtherItems {close : String} (h : Yields item Forest.Faultless) :
    Yields (many do
      if ← at? "," then
        let comma ← symbol ","
        if ← at? close then return some comma
        return some (comma ++ (← item))
      else return none) Forest.Faultless := by
  refine faultless_many (.bind fun _ => .ite (.andThen faultless_symbol fun _ hcomma => .bind fun _ => .ite ?_ ?_)
    (.pure nofun))
  · exact .pure (by simp [*])
  · exact .andThen h fun _ hitem => .pure (by simp [*])

theorem faultless_commaList {lines : Bool} (h : Yields item Forest.Faultless) :
    Yields (commaList lines item) Forest.Faultless :=
  .andThen h fun _ hfirst => .join hfirst (faultless_separated h)

theorem faultless_terminator : Yields terminator Forest.Faultless :=
  .bind fun _ => .ite (faultless_take rfl) .refuse

theorem faultless_terminatedList {close : String} (h : Yields item Forest.Faultless) :
    Yields (terminatedList close item) Forest.Faultless := by
  refine .bind fun _ => .ite (.pure Forest.faultless_nil) (.andThen h fun _ hfirst => .join hfirst (faultless_many ?_))
  refine .bind fun _ => .ite (.pure nofun) (.bind fun _ => .ite ?_ (.pure nofun))
  refine .andThen faultless_terminator fun t ht => .bind fun _ => .ite (.pure (by simp [ht])) ?_
  exact .andThen h fun _ hitem => .pure (by simp [*])

end

end Parser

namespace Literal

theorem isFault_of_string? {text : List Char} {kind : Kind} {n : Nat} (h : string? text = some (kind, n)) :
    kind.isFault = false := by
  unfold string? at h
  split at h
  · obtain ⟨m, -, hm⟩ := Option.map_eq_some_iff.1 h
    cases hm
    rfl
  · split at h
    · obtain ⟨m, -, hm⟩ := Option.map_eq_some_iff.1 h
      cases hm
      rfl
    · cases h
  · cases h

theorem isFault_of_number? {text : List Char} {kind : Kind} {n : Nat} (h : number? text = some (kind, n)) :
    kind.isFault = false := by
  obtain ⟨m, -, hm⟩ := Option.map_eq_some_iff.1 h
  split at hm
  · cases hm
    rfl
  · split at hm
    · cases hm
      rfl
    · cases hm
      rfl

end Literal

namespace Grammar

theorem faultless_stringLiteral {lines : Bool} : Yields (stringLiteral lines) Forest.Faultless := by
  refine .bind fun text => ?_
  split
  · rename_i kind n hstring
    exact faultless_take (Literal.isFault_of_string? hstring)
  · exact .refuse

theorem faultless_fieldTag : Yields fieldTag Forest.Faultless :=
  .bind fun _ => .ite faultless_stringLiteral (.pure Forest.faultless_nil)

variable {g : Grammar} (hg : ∀ goal, Yields (g goal) Forest.Faultless)

include hg

/-! ## Types -/

theorem faultless_typeElement {newline : Bool} : Yields (typeElement g newline) Forest.Faultless :=
  .andThen (hg _) fun _ hfirst => .andThen (faultless_separated (hg _)) fun _ hrest => .pure (.branch rfl (by simp [*]))

theorem faultless_typeArguments : Yields (typeArguments g) Forest.Faultless :=
  .andThen faultless_symbol fun _ hleft => .andThen (faultless_typeElement hg) fun _ hfirst =>
    .andThen (faultless_furtherItems (faultless_typeElement hg)) fun _ hrest =>
    .close rfl (by simp [*]) faultless_symbol

theorem faultless_namedTypeTail {newline : Bool} {first : Forest} (hfirst : first.Faultless) :
    Yields (namedTypeTail g newline first) Forest.Faultless := by
  have hpackage : (first.relabel .packageIdentifier).Faultless := .relabel rfl hfirst
  refine .bind fun _ => .ite
    (.andThen faultless_symbol fun _ hpoint => .andThen (faultless_name rfl) fun _ hname => ?_) ?_
  -- qualified or not, the name is settled before type arguments are looked for
  all_goals
    refine .andThen (.pure ?_) fun base hbase => .bind fun _ => .ite
      (.andThen (faultless_typeArguments hg) fun _ htypes => .pure (.branch rfl (by simp [*]))) (.pure hbase)
  · exact .branch rfl (by simp [*])
  · exact .relabel rfl hfirst

theorem faultless_namedType {newline : Bool} : Yields (namedType g newline) Forest.Faultless :=
  .andThen (faultless_name rfl) fun _ hfirst => faultless_namedTypeTail hg hfirst

theorem faultless_arrayType {newline implicit : Bool} : Yields (arrayType g newline implicit) Forest.Faultless := by
  refine .andThen faultless_symbol fun _ hleft => .bind fun _ => .ite ?_ (.bind fun _ => .ite ?_ ?_)
  · exact .andThen faultless_symbol fun _ hright => .close rfl (by simp [*]) (hg _)
  · exact .andThen faultless_symbol fun _ hdots => .andThen faultless_symbol fun _ hright =>
      .close rfl (by simp [*]) (hg _)
  · exact .andThen (hg _) fun _ hlength => .andThen faultless_symbol fun _ hright => .close rfl (by simp [*]) (hg _)

theorem faultless_signature {newline : Bool} : Yields (signature g newline) Forest.Faultless :=
  .andThen (hg _) fun _ hparameters => .join hparameters
    (.bind fun _ => .ite (hg _) (.ite (hg _) (.pure Forest.faultless_nil)))

theorem faultless_structField : Yields (structField g) Forest.Faultless := by
  have hend : ∀ body : Forest, body.Faultless →
      Yields (do return Forest.branch .fieldDeclaration (body ++ (← fieldTag))) Forest.Faultless :=
    fun _ hbody => .close rfl hbody faultless_fieldTag
  refine .bind fun _ => .ite ?_ (.andThen (faultless_name rfl) fun first hfirst => .bind fun _ => .ite ?_ (.ite ?_
    (.ite ?_ ?_)))
  · exact .andThen faultless_symbol fun _ hstar => .andThen (faultless_namedType hg) fun _ htype =>
      .andThen (.pure (by simp [*])) hend
  · exact .andThen (faultless_separated (faultless_name rfl)) fun _ hmore => .andThen (hg _) fun _ htype =>
      .andThen (.pure (by simp [*])) hend
  · refine .andThen (.either (.andThen (hg _) fun _ htype => .bind fun _ => .ite (.pure ?_) .refuse) ?_) hend
    · simp [*]
    · exact .andThen (faultless_namedTypeTail hg hfirst) fun _ htype => .pure (by simp [*])
  · exact .andThen (faultless_namedTypeTail hg hfirst) fun _ htype => .andThen (.pure (by simp [*])) hend
  · exact .andThen (hg _) fun _ htype => .andThen (.pure (by simp [*])) hend

theorem faultless_structType : Yields (structType g) Forest.Faultless := by
  refine .andThen faultless_keyword fun _ hword => .andThen faultless_symbol fun _ hleft =>
    .andThen (faultless_terminatedList (faultless_structField hg)) fun _ hfields =>
    .andThen faultless_symbol fun _ hright => .pure (.branch rfl (Forest.faultless_append.2 ⟨hword, .branch rfl ?_⟩))
  simp [*]

theorem faultless_interfaceElement : Yields (interfaceElement g) Forest.Faultless :=
  .bind fun _ => .ite (.andThen (faultless_name rfl) fun _ hfirst => .close rfl (by simp [*]) (faultless_signature hg))
    (faultless_typeElement hg)

theorem faultless_interfaceType : Yields (interfaceType g) Forest.Faultless :=
  .andThen faultless_keyword fun _ hword => .andThen faultless_symbol fun _ hleft =>
    .andThen (faultless_terminatedList (faultless_interfaceElement hg)) fun _ helements =>
    .close rfl (by simp [*]) faultless_symbol

theorem faultless_mapType {newline : Bool} : Yields (mapType g newline) Forest.Faultless :=
  .andThen faultless_keyword fun _ hword => .andThen faultless_symbol fun _ hleft => .andThen (hg _) fun _ hkey =>
    .andThen faultless_symbol fun _ hright => .close rfl (by simp [*]) (hg _)

theorem faultless_channelType {newline : Bool} : Yields (channelType g newline) Forest.Faultless := by
  refine .bind fun _ => .ite ?_ (.andThen faultless_keyword fun _ hword => .bind fun _ => .ite ?_ ?_)
  · exact .andThen faultless_symbol fun _ harrow => .andThen faultless_keyword fun _ hword =>
      .close rfl (by simp [*]) (hg _)
  · exact .andThen faultless_symbol fun _ harrow => .close rfl (by simp [*]) (hg _)
  · exact .andThen (.pure Forest.faultless_nil) fun _ harrow => .close rfl (by simp [*]) (hg _)

theorem faultless_functionType {newline : Bool} : Yields (functionType g newline) Forest.Faultless :=
  .andThen faultless_keyword fun _ hword => .close rfl hword (faultless_signature hg)

theorem faultless_type {newline : Bool} : Yields (type g newline) Forest.Faultless := by
  refine .bind fun text => ?_
  split
  · exact .andThen faultless_symbol fun _ hleft => .andThen (hg _) fun _ hinner =>
      .close rfl (by simp [*]) faultless_symbol
  · exact .andThen faultless_symbol fun _ hstar => .close rfl hstar (hg _)
  · exact .andThen faultless_symbol fun _ htilde => .close rfl htilde (hg _)
  · exact faultless_arrayType hg
  · exact faultless_channelType hg
  · split
    · exact faultless_structType hg
    · exact faultless_interfaceType hg
    · exact faultless_mapType hg
    · exact faultless_channelType hg
    · exact faultless_functionType hg
    · exact faultless_namedType hg

omit hg in
theorem faultless_unnamedParameter {type : Forest} (h : type.Faultless) : (unnamedParameter type).Faultless :=
  .branch rfl (h.label _)

def ParameterEntry.Faultless : ParameterEntry → Prop
  | lone name => name.Faultless
  | named name type => name.Faultless ∧ type.Faultless
  | complete declaration => declaration.Faultless

theorem faultless_parameterEntry : Yields (parameterEntry g) ParameterEntry.Faultless := by
  refine .bind fun _ => .ite ?_ (.ite ?_ (.andThen (faultless_name rfl) fun first hfirst => .bind fun _ => .ite ?_
    (.ite ?_ (.ite ?_ (.ite (.either ?_ ?_) ?_)))))
  · exact .andThen faultless_symbol fun _ hdots => .andThen (hg _) fun _ htype => .pure (.branch rfl (by simp [*]))
  · exact .andThen (hg _) fun _ htype => .pure (faultless_unnamedParameter htype)
  · exact .pure hfirst
  · exact .andThen faultless_symbol fun _ hdots => .andThen (hg _) fun _ htype => .pure (.branch rfl (by simp [*]))
  · exact .andThen (faultless_namedTypeTail hg hfirst) fun _ htype => .pure (faultless_unnamedParameter htype)
  · exact .andThen (hg _) fun _ htype => .bind fun _ => .ite (.pure ⟨hfirst, htype⟩) .refuse
  · exact .andThen (faultless_namedTypeTail hg hfirst) fun _ htype => .pure (faultless_unnamedParameter htype)
  · exact .andThen (hg _) fun _ htype => .pure ⟨hfirst, htype⟩

omit hg in
theorem faultless_groupParameters {entries : List (ParameterEntry × Forest)}
    (h : ∀ e ∈ entries, e.1.Faultless ∧ e.2.Faultless) {pending types : Forest} (hpending : pending.Faultless)
    (htypes : types.Faultless) : (groupParameters pending types entries).Faultless := by
  -- a lone name is kept twice: it waits for a type that it shares, and counts as a type if none comes
  induction entries generalizing pending types with
  | nil => exact htypes
  | cons e entries ih =>
    obtain ⟨⟨hentry, hcomma⟩, hrest⟩ := List.forall_mem_cons.1 h
    obtain ⟨entry, comma⟩ := e
    have hnext := ih hrest Forest.faultless_nil Forest.faultless_nil
    cases entry with
    | lone first =>
      have hfirst : first.Faultless := hentry
      have htype := faultless_unnamedParameter (Forest.Faultless.relabel (k := .typeIdentifier) rfl hfirst)
      exact ih hrest (by simp [*]) (by simp [*])
    | named first type =>
      have hnamed : first.Faultless ∧ type.Faultless := hentry
      simp only [groupParameters, Forest.faultless_append]
      exact ⟨⟨.branch rfl (by simp [*]), hcomma⟩, hnext⟩
    | complete declaration =>
      simp only [groupParameters, Forest.faultless_append]
      exact ⟨⟨⟨htypes, hentry⟩, hcomma⟩, hnext⟩

theorem faultless_parameterEntries (fuel : Nat) :
    Yields (parameterEntries g fuel) fun entries => ∀ e ∈ entries, e.1.Faultless ∧ e.2.Faultless := by
  induction fuel with
  | zero => exact .pure (List.forall_mem_nil _)
  | succ fuel ih =>
    refine .andThen (faultless_parameterEntry hg) fun entry hentry => .bind fun _ => .ite ?_ ?_
    · refine .andThen faultless_symbol fun comma hcomma => .bind fun _ => .ite (.pure ?_)
        (.andThen ih fun rest hrest => ?_)
      · exact List.forall_mem_singleton.2 ⟨hentry, hcomma⟩
      · exact .pure (List.forall_mem_cons.2 ⟨⟨hentry, hcomma⟩, hrest⟩)
    · exact .pure (List.forall_mem_singleton.2 ⟨hentry, Forest.faultless_nil⟩)

theorem faultless_parameters : Yields (parameters g) Forest.Faultless := by
  refine .andThen faultless_symbol fun _ hleft => .bind fun _ => .bind fun _ => .ite ?_ (.ite ?_ (.bind fun _ => ?_))
  · exact .enclose rfl hleft (.pure Forest.faultless_nil)
  · exact .enclose rfl hleft faultless_symbol
  · refine .andThen (faultless_parameterEntries hg _) fun _ hentries => .enclose rfl hleft (.pure ?_)
    exact faultless_groupParameters hentries Forest.faultless_nil Forest.faultless_nil

/-! ## Expressions -/

theorem faultless_argument : Yields (argument g) Forest.Faultless :=
  .andThen (hg _) fun _ hvalue => .bind fun _ => .ite (.close rfl hvalue faultless_symbol) (.pure hvalue)

omit hg in
theorem faultless_closedList {close : String} {item : Parser Forest} (h : Yields item Forest.Faultless) :
    Yields (closedList close item) Forest.Faultless :=
  .andThen h fun _ hfirst => .join hfirst (faultless_furtherItems h)

theorem faultless_arguments : Yields (arguments g) Forest.Faultless :=
  .andThen faultless_symbol fun _ hleft => .bind fun _ => .ite (.enclose rfl hleft (.pure Forest.faultless_nil))
    (.enclose rfl hleft (faultless_closedList (faultless_argument hg)))

theorem faultless_typeFirstArguments : Yields (typeFirstArguments g) Forest.Faultless :=
  .andThen faultless_symbol fun _ hleft => .bind fun _ => .ite (.enclose rfl hleft (.pure Forest.faultless_nil))
    (.andThen (hg _) fun _ hfirst => .andThen (faultless_furtherItems (hg _)) fun _ hrest =>
      .enclose rfl hleft (.pure (by simp [*])))

theorem faultless_literalElement : Yields (literalElement g) Forest.Faultless := by
  refine .bind fun _ => .ite ?_ ?_
  all_goals exact .andThen (hg _) fun _ hinner => .pure (.branch rfl hinner)

theorem faultless_keyedElement : Yields (keyedElement g) Forest.Faultless :=
  .andThen (faultless_literalElement hg) fun _ hfirst => .bind fun _ => .ite
    (.andThen faultless_symbol fun _ hcolon => .close rfl (by simp [*]) (faultless_literalElement hg)) (.pure hfirst)

theorem faultless_literalValue : Yields (literalValue g) Forest.Faultless := by
  refine .andThen faultless_symbol fun _ hleft => .bind fun _ => .bind fun _ => .ite ?_ (.ite ?_ ?_)
  · exact .enclose rfl hleft (.pure Forest.faultless_nil)
  · exact .enclose rfl hleft faultless_symbol
  · exact .enclose rfl hleft (faultless_closedList (faultless_keyedElement hg))

section

variable {type : Forest} (htype : type.Faultless)

include htype

theorem faultless_compositeLiteral : Yields (compositeLiteral g type) Forest.Faultless :=
  .close rfl (htype.label _) (hg _)

theorem faultless_conversion : Yields (conversion g type) Forest.Faultless := by
  refine .andThen faultless_symbol fun _ hleft => .andThen (hg _) fun _ hvalue => .bind fun _ => .ite ?_ ?_
  · exact .andThen faultless_symbol fun _ hcomma => .andThen faultless_symbol fun _ hright =>
      .pure (.branch rfl (by simp [*]))
  · exact .andThen (.pure Forest.faultless_nil) fun _ hcomma => .andThen faultless_symbol fun _ hright =>
      .pure (.branch rfl (by simp [*]))

theorem faultless_instantiation : Yields (instantiation g type) Forest.Faultless :=
  .andThen faultless_symbol fun _ hleft => .andThen (faultless_closedList (hg _)) fun _ hinner =>
    .close rfl (by simp [*]) faultless_symbol

theorem faultless_typeOperandTail : Yields (typeOperandTail g type) Forest.Faultless := by
  refine .bind fun text => ?_
  split
  · exact .ite (faultless_compositeLiteral hg htype) .refuse
  · exact faultless_conversion hg htype
  · exact faultless_instantiation hg htype
  · exact .refuse

end

theorem faultless_functionOperand : Yields (functionOperand g) Forest.Faultless :=
  .andThen faultless_keyword fun _ hword => .andThen (faultless_signature hg) fun _ hshape => .bind fun _ => .ite
    (.close rfl (by simp [*]) (hg _)) (faultless_typeOperandTail hg (.branch rfl (by simp [*])))

omit hg in
theorem faultless_asTypeName {operand : Forest} (h : operand.Faultless) : (asTypeName operand).Faultless := by
  intro m hm
  obtain ⟨n, hn, rfl⟩ := List.mem_map.1 hm
  split
  · exact (h n hn).withKind rfl
  · split
    · exact (h n hn).withKind rfl
    · exact h n hn

theorem faultless_parenthesized : Yields (parenthesized g) Forest.Faultless :=
  .either
    (.andThen faultless_symbol fun _ hleft => .enclose rfl hleft (hg _))
    (.andThen (faultless_type hg) fun _ htype => faultless_typeOperandTail hg htype)

omit hg in
theorem isFault_of_predeclaredValue {word : String} {kind : Kind} (h : predeclaredValue word = some kind) :
    kind.isFault = false := by
  unfold predeclaredValue at h
  split at h <;> cases h <;> rfl

theorem faultless_operand {follow : Follow} : Yields (operand g follow) Forest.Faultless := by
  refine .bind fun text => ?_
  split
  · exact faultless_parenthesized hg
  · exact .andThen (faultless_arrayType hg) fun _ htype => faultless_typeOperandTail hg htype
  · exact .andThen (faultless_type hg) fun _ htype => faultless_typeOperandTail hg htype
  · split
    · exact faultless_take rfl
    · exact .refuse
  · refine .ite faultless_stringLiteral ?_
    split
    · rename_i kind n hnumber
      exact faultless_take (Literal.isFault_of_number? hnumber)
    · have hword : ∀ word : String, Yields (do
          let first ← name .identifier
          if takesType word && (← at? "(" (!follow.newline)) then
            return Forest.branch .callExpression (first.label .function ++ (← typeFirstArguments g))
          return first) Forest.Faultless :=
        fun _ => .andThen (faultless_name rfl) fun _ hfirst => .bind fun _ => .ite
          (.close rfl (hfirst.label _) (faultless_typeFirstArguments hg)) (.pure hfirst)
      have htype : Yields (do typeOperandTail g (← type g false)) Forest.Faultless :=
        .andThen (faultless_type hg) fun _ htype => faultless_typeOperandTail hg htype
      split
      · exact faultless_functionOperand hg
      · exact htype
      · exact htype
      · exact htype
      · exact htype
      · split
        · rename_i kind hvalue
          exact faultless_take (isFault_of_predeclaredValue hvalue)
        · exact hword _

theorem faultless_sliceBounds : Yields (sliceBounds g) Forest.Faultless :=
  .andThen (hg _) fun _ hstop => .bind fun _ => .ite
    (.andThen faultless_symbol fun _ hcolon => .join (by simp [*]) (hg _)) (.pure hstop)

theorem faultless_literalBeforeBlock {type : Forest} (htype : type.Faultless) :
    Yields (literalBeforeBlock g type) Forest.Faultless :=
  .andThen (faultless_compositeLiteral hg htype) fun _ hvalue => .bind fun _ => .ite (.pure hvalue) .refuse

theorem faultless_literalAfter {follow : Follow} {type : Forest} (htype : type.Faultless) :
    Yields (literalAfter g follow type) Forest.Faultless :=
  .ite (faultless_compositeLiteral hg htype) (.ite (faultless_literalBeforeBlock hg htype) .refuse)

section

variable {target : Forest} (htarget : target.Faultless)

include htarget

theorem faultless_indexOrSlice {lines : Bool} : Yields (indexOrSlice g target lines) Forest.Faultless := by
  refine .andThen faultless_symbol fun _ hleft => .bind fun _ => .ite (.andThen (.pure Forest.faultless_nil) ?_)
    (.andThen (hg _) ?_)
  -- the start of a slice may be left out; the rest is read alike
  all_goals
    refine fun _ hstart => .bind fun _ => .ite (.andThen faultless_symbol fun _ hcolon => .bind fun _ => .ite ?_ ?_)
      (.close rfl (by simp [*]) faultless_symbol)
    · exact .andThen (.pure Forest.faultless_nil) fun _ hstop => .andThen faultless_symbol fun _ hright =>
        .pure (.branch rfl (by simp [*]))
    · exact .andThen (faultless_sliceBounds hg) fun _ hstop => .andThen faultless_symbol fun _ hright =>
        .pure (.branch rfl (by simp [*]))

theorem faultless_bracketed {follow : Follow} : Yields (bracketed g follow target) Forest.Faultless := by
  have htype := faultless_asTypeName htarget
  refine .either (.ite .refuse_bind (.andThen (faultless_typeArguments hg) fun _ harguments => .bind fun _ =>
    .ite .refuse_bind (faultless_literalAfter hg (.branch rfl (by simp [*])))))
    (.either (faultless_indexOrSlice hg htarget) (.andThen (faultless_typeArguments hg) fun _ htypes => .bind fun _ =>
      .ite ?_ (.ite ?_ .refuse)))
  · exact .close rfl (by simp [*]) (faultless_arguments hg)
  · exact .pure (.branch rfl (by simp [*]))

theorem faultless_selection {lines : Bool} : Yields (selection g target lines) Forest.Faultless := by
  refine .andThen faultless_symbol fun _ hpoint => .bind fun _ => .ite ?_ ?_
  · exact .andThen faultless_symbol fun _ hleft => .andThen (hg _) fun _ hasserted =>
      .andThen faultless_symbol fun _ hright => .pure (.branch rfl (by simp [*]))
  · exact .andThen (faultless_name rfl) fun _ hselected => .pure (.branch rfl (by simp [*]))

end

theorem faultless_suffixes {follow : Follow} (fuel : Nat) {target : Forest} (htarget : target.Faultless) :
    Yields (suffixes g follow fuel target) Forest.Faultless := by
  induction fuel generalizing target with
  | zero => exact .pure htarget
  | succ fuel ih =>
    refine .bind fun text => ?_
    split
    · exact .andThen (faultless_arguments hg) fun _ hinner => ih (.branch rfl (by simp [*]))
    · exact .andThen (faultless_bracketed hg htarget) fun _ hvalue => ih hvalue
    · exact .bind fun _ => .ite (.pure htarget) (.andThen (faultless_selection hg htarget) fun _ hvalue => ih hvalue)
    · have htype := faultless_asTypeName htarget
      refine .ite (.pure htarget) (.ite (.andThen (faultless_compositeLiteral hg htype) fun _ hvalue => ih hvalue)
        (.ite (.andThen (.optional (faultless_literalBeforeBlock hg htype)) fun value hvalue => ?_) (.pure htarget)))
      cases value with
      | none => exact .pure htarget
      | some value => exact ih (hvalue value rfl)
    · exact .pure htarget

theorem faultless_unary {follow : Follow} : Yields (unary g follow) Forest.Faultless := by
  refine .bind fun _ => ?_
  split
  · exact .andThen faultless_symbol fun _ hfirst => .close rfl hfirst (hg _)
  · exact .andThen (faultless_operand hg) fun _ hfirst => .bind fun _ => faultless_suffixes hg _ hfirst

theorem faultless_expression {follow : Follow} : Yields (expression g follow) Forest.Faultless := by
  refine .andThen (faultless_unary hg) fun _ hfirst => .andThen (faultless_many ?_) fun rest hrest =>
    .ite (.pure hfirst) (.pure (.branch rfl (by simp [*])))
  refine .bind fun _ => ?_
  split
  · exact .pure nofun
  · exact .andThen faultless_symbol fun _ ho => .andThen (faultless_unary hg) fun _ hunary => .pure (by simp [*])

end Grammar

end CallLineage.Go
