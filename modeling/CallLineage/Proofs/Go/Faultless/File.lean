import CallLineage.Proofs.Go.Faultless.Expression
/-! Declarations, statements and whole files are read without a fault.
The lemmas on single rules are put together where the grammar is unrolled: what a rule calls has one level less. -/
namespace CallLineage.Go.Grammar

open Go.Parser

variable {g : Grammar} (hg : ∀ goal, Yields (g goal) Forest.Faultless)

include hg

/-! ## Declarations -/

theorem faultless_values : Yields (values g) Forest.Faultless :=
  .andThen (faultless_commaList (faultless_expression hg)) fun _ hvalues => .pure (.branch rfl hvalues)

theorem faultless_constSpec : Yields (constSpec g) Forest.Faultless := by
  refine .andThen (faultless_commaList (faultless_name rfl)) fun _ hnames => .bind fun _ => .ite ?_ (.ite ?_ ?_)
  · exact .andThen faultless_symbol fun _ hequals => .close rfl (by simp [*]) (faultless_values hg)
  · exact .andThen (hg _) fun _ htype => .andThen faultless_symbol fun _ hequals =>
      .close rfl (by simp [*]) (faultless_values hg)
  · exact .pure (.branch rfl hnames)

theorem faultless_varSpec : Yields (varSpec g) Forest.Faultless := by
  refine .andThen (faultless_commaList (faultless_name rfl)) fun _ hnames => .bind fun _ => .ite ?_
    (.andThen (hg _) fun _ htype => .bind fun _ => .ite ?_ ?_)
  · exact .andThen faultless_symbol fun _ hequals => .close rfl (by simp [*]) (faultless_values hg)
  · exact .andThen faultless_symbol fun _ hequals => .close rfl (by simp [*]) (faultless_values hg)
  · exact .pure (.branch rfl (by simp [*]))

section

omit hg

variable {spec : Parser Forest} (hspec : Yields spec Forest.Faultless)

include hspec

theorem faultless_groupedSpecs (fuel : Nat) (alone : Bool) :
    Yields (groupedSpecs spec fuel alone) Forest.Faultless := by
  induction fuel generalizing alone with
  | zero => exact .pure Forest.faultless_nil
  | succ fuel ih =>
    refine .bind fun _ => .ite (.pure Forest.faultless_nil) (.bind fun _ => .andThen hspec fun _ hfirst =>
      .bind fun _ => .ite ?_ (.bind fun _ => .ite ?_ (.join hfirst (ih false))))
    · exact .andThen faultless_terminator fun _ ht => .join (by simp [*]) (ih false)
    · exact .bind fun _ => .ite .refuse_bind (.pure hfirst)

theorem faultless_specOrGroup : Yields (specOrGroup spec) Forest.Faultless :=
  .bind fun _ => .ite (.andThen faultless_symbol fun _ hleft => .bind fun _ =>
    .andThen (faultless_groupedSpecs hspec _ true) fun _ hinner => .join (by simp [*]) faultless_symbol) hspec

end

theorem faultless_constDeclaration : Yields (constDeclaration g) Forest.Faultless :=
  .andThen faultless_keyword fun _ hword => .close rfl hword (faultless_specOrGroup (faultless_constSpec hg))

theorem faultless_varDeclaration : Yields (varDeclaration g) Forest.Faultless :=
  .andThen faultless_keyword fun _ hword => .close rfl hword (faultless_specOrGroup (faultless_varSpec hg))

theorem faultless_typeParameter : Yields (typeParameter g) Forest.Faultless :=
  .andThen (faultless_commaList (faultless_name rfl)) fun _ hnames => .close rfl hnames (faultless_typeElement hg)

theorem faultless_typeParameters : Yields (typeParameters g) Forest.Faultless :=
  .andThen faultless_symbol fun _ hleft => .enclose rfl hleft (faultless_closedList (faultless_typeParameter hg))

theorem faultless_typeBody {head : Forest} (hhead : head.Faultless) : Yields (typeBody g head) Forest.Faultless :=
  .bind fun _ => .ite (.andThen faultless_symbol fun _ hequals => .close rfl (by simp [*]) (hg _))
    (.close rfl hhead (hg _))

theorem faultless_typeSpec : Yields (typeSpec g) Forest.Faultless :=
  .andThen (faultless_name rfl) fun _ hfirst => .bind fun _ => .ite
    (.either (.close rfl hfirst (hg _))
      (.andThen (faultless_typeParameters hg) fun _ hparameters => faultless_typeBody hg (by simp [*])))
    (faultless_typeBody hg hfirst)

theorem faultless_typeDeclaration : Yields (typeDeclaration g) Forest.Faultless :=
  .andThen faultless_keyword fun _ hword => .bind fun _ => .ite
    (.andThen faultless_symbol fun _ hleft => .andThen (faultless_terminatedList (faultless_typeSpec hg))
      fun _ hinner => .close rfl (by simp [*]) faultless_symbol)
    (.close rfl hword (faultless_typeSpec hg))

/-! ## Statements -/

theorem faultless_leftSide {lead : Follow} : Yields (leftSide g lead) fun r => r.2.Faultless :=
  .andThen (faultless_expression hg) fun _ hfirst => .bind fun _ => .ite
    (.andThen faultless_symbol fun _ hcomma => .andThen (faultless_commaList (faultless_expression hg)) fun _ hrest =>
      .pure (.branch rfl (by simp [*])))
    (.pure hfirst)

theorem faultless_simpleTail {lead right : Follow} {several : Bool} {left : Forest} (hleft : left.Faultless) :
    Yields (simpleTail g lead right several left) fun r => r.2.Faultless := by
  refine .bind fun _ => .ite ?_ (.ite ?_ (.ite ?_ ?_))
  · exact .andThen faultless_symbol fun _ harrow => .andThen (faultless_expression hg) fun _ hvalue =>
      .pure (.branch rfl (by simp [*]))
  · exact .andThen faultless_symbol fun _ ho => .pure (.branch rfl (by simp [*]))
  · exact .andThen faultless_symbol fun _ ho => .pure (.branch rfl (by simp [*]))
  · split
    · refine .andThen faultless_symbol fun o ho => .andThen (faultless_commaList (faultless_expression hg)) fun assigned
        hassigned => ?_
      have hboth : (left ++ o ++ Forest.branch .expressionList assigned).Faultless :=
        Forest.faultless_append.2 ⟨by simp [*], .branch rfl hassigned⟩
      exact .ite (.pure (.branch rfl hboth)) (.pure (.branch rfl hboth))
    · exact .ite .refuse (.pure hleft)

theorem faultless_simpleStatement {lead right : Follow} :
    Yields (simpleStatement g lead right) fun r => r.2.Faultless :=
  .andThen (faultless_leftSide hg) fun _ hleft => faultless_simpleTail hg hleft

omit hg in
theorem faultless_wrapSimple {r : SimpleShape × Forest} (h : r.2.Faultless) : (wrapSimple r).Faultless := by
  rw [wrapSimple]
  split
  · exact .branch rfl h
  · exact h

theorem faultless_listedStatement : Yields (listedStatement g) Forest.Faultless := by
  refine .bind fun _ => .ite (.fallback ?_ (hg _)) (hg _)
  exact .andThen (faultless_name rfl) fun _ hlabel => .andThen faultless_symbol fun _ hcolon => .bind fun _ => .ite
    (.pure (by rintro _ ⟨⟩; exact .branch rfl (by simp [*]))) (.pure nofun)

theorem faultless_statementList : Yields (statementList g) Forest.Faultless := by
  refine .bind fun _ => .ite (.pure Forest.faultless_nil) (.andThen (faultless_listedStatement hg) fun _ hfirst =>
    .join hfirst (faultless_many (.bind fun _ => .ite (.andThen faultless_terminator fun _ ht => .bind fun _ =>
      .ite ?_ ?_) (.pure nofun))))
  · exact .pure (by simp [*])
  · exact .andThen (faultless_listedStatement hg) fun _ hstatement => .pure (by simp [*])

theorem faultless_block : Yields (block g) Forest.Faultless :=
  .andThen faultless_symbol fun _ hleft => .enclose rfl hleft (faultless_statementList hg)

theorem faultless_ifHead {literal : Bool} : Yields (ifHead g literal) Forest.Faultless := by
  refine .andThen faultless_keyword fun _ hword => .bind fun _ => .andThen (faultless_simpleStatement hg)
    fun first hfirst => .bind fun _ => .ite ?_ (.ite (.pure (by simp [*])) .failAt)
  have hwrapped := faultless_wrapSimple hfirst
  exact .andThen faultless_symbol fun _ hsemicolon => .join (by simp [*]) (faultless_expression hg)

theorem faultless_elsePart : Yields (elsePart g) Forest.Faultless :=
  .bind fun _ => .ite (.andThen faultless_keyword fun _ hword => .bind fun _ => .ite (.join hword (hg _))
    (.join hword (hg _))) (.pure Forest.faultless_nil)

theorem faultless_ifStatement : Yields (ifStatement g) Forest.Faultless :=
  .headed (fun _ => faultless_ifHead hg) fun _ hhead => .andThen (faultless_block hg) fun _ hconsequence =>
    .close rfl (by simp [*]) (faultless_elsePart hg)

theorem faultless_forClauseTail {literal : Bool} {start : Forest} (hstart : start.Faultless) :
    Yields (forClauseTail g literal start) Forest.Faultless := by
  refine .andThen faultless_symbol fun _ hfirst => .bind fun _ => .ite (.andThen (.pure Forest.faultless_nil) ?_)
    (.andThen (faultless_expression hg) ?_)
  all_goals
    refine fun _ hcondition => .andThen faultless_symbol fun _ hsecond => .bind fun _ => .ite
      (.close rfl (by simp [*]) (.pure Forest.faultless_nil))
      (.andThen (faultless_simpleStatement hg) fun _ hupdate => .close rfl (by simp [*]) (.pure ?_))
    exact faultless_wrapSimple hupdate

theorem faultless_rangeTail {literal : Bool} {left : Forest} (hleft : left.Faultless) :
    Yields (rangeTail g literal left) Forest.Faultless :=
  .andThen faultless_keyword fun _ hword => .close rfl (by simp [*]) (faultless_expression hg)

theorem faultless_forHead {literal : Bool} : Yields (forHead g literal) Forest.Faultless := by
  refine .andThen faultless_keyword fun _ hword => .bind fun _ => .ite (.pure hword) (.bind fun _ => .ite
    (.join hword (faultless_forClauseTail hg Forest.faultless_nil)) (.bind fun _ => .ite
    (.join hword (faultless_rangeTail hg Forest.faultless_nil)) (.bind fun _ => .andThen (faultless_leftSide hg)
      fun left hleft => .bind fun _ => .ite (.bind fun _ => .ite ?_ ?_) (.andThen (faultless_simpleTail hg hleft)
        fun first hfirst => .bind fun _ => .ite ?_ (.ite ?_ .failAt)))))
  · exact .andThen faultless_symbol fun _ ho => .join hword (faultless_rangeTail hg (by simp [*]))
  · exact .andThen faultless_symbol fun _ ho => .join hword (faultless_rangeTail hg (by simp [*]))
  · exact .join hword (faultless_forClauseTail hg (faultless_wrapSimple hfirst))
  · exact .pure (by simp [*])

theorem faultless_forStatement : Yields (forStatement g) Forest.Faultless :=
  .headed (fun _ => faultless_forHead hg) fun _ hhead => .close rfl hhead (faultless_block hg)

omit hg in
theorem faultless_typeGuard : Yields typeGuard Forest.Faultless :=
  .andThen faultless_symbol fun _ hpoint => .andThen faultless_symbol fun _ hleft =>
    .andThen faultless_keyword fun _ hword => .join (by simp [*]) faultless_symbol

omit hg in
theorem faultless_switchValue {start : Position} {first : SimpleShape × Forest} (hfirst : first.2.Faultless) :
    Yields (switchValue start first) fun r => r.2.Faultless := by
  refine .bind fun _ => .ite ?_ (.ite (.pure hfirst) .failAt)
  exact .andThen faultless_typeGuard fun _ hguard => .pure (by simp [*])

theorem faultless_switchHead {literal : Bool} : Yields (switchHead g literal) fun r => r.2.Faultless := by
  refine .andThen faultless_keyword fun _ hword => .bind fun _ => .ite (.pure hword) (.bind fun _ =>
    .andThen (faultless_simpleStatement hg) fun _ hfirst => .bind fun _ => .ite ?_ ?_)
  · have hwrapped := faultless_wrapSimple hfirst
    refine .andThen faultless_symbol fun _ hsemicolon => .bind fun _ => .ite (.pure (by simp [*])) (.bind fun _ =>
      .andThen (faultless_simpleStatement hg) fun _ hsecond => .andThen (faultless_switchValue hsecond)
        fun _ hvalue => ?_)
    exact .pure (by simp [*])
  · exact .andThen (faultless_switchValue hfirst) fun _ hvalue => .pure (by simp [*])

theorem faultless_defaultCase : Yields (defaultCase g) Forest.Faultless :=
  .andThen faultless_keyword fun _ hword => .andThen faultless_symbol fun _ hcolon =>
    .close rfl (by simp [*]) (faultless_statementList hg)

section

variable {kind : Kind} (hkind : kind.isFault = false) {labels : Parser Forest}
  (hlabels : Yields labels Forest.Faultless)

include hkind hlabels

theorem faultless_labelledCase : Yields (labelledCase g kind labels) Forest.Faultless :=
  .andThen faultless_keyword fun _ hword => .andThen hlabels fun _ hhead => .andThen faultless_symbol fun _ hcolon =>
    .close hkind (by simp [*]) (faultless_statementList hg)

theorem faultless_caseBlock : Yields (caseBlock g kind labels) Forest.Faultless := by
  refine .andThen faultless_symbol fun _ hleft => .andThen (faultless_many (.bind fun _ => .ite ?_ (.bind fun _ =>
    .ite ?_ (.pure nofun)))) fun _ hcases => .join (by simp [*]) faultless_symbol
  · exact .andThen (faultless_labelledCase hg hkind hlabels) fun _ hcase => .pure (by simp [*])
  · exact .andThen (faultless_defaultCase hg) fun _ hcase => .pure (by simp [*])

end

theorem faultless_switchStatement : Yields (switchStatement g) Forest.Faultless := by
  refine .headed (fun _ => faultless_switchHead hg) fun head hhead => .ite ?_ ?_
  · exact .andThen (faultless_caseBlock hg rfl (faultless_commaList (hg _))) fun _ hcases =>
      .pure (.branch rfl (by simp [*]))
  · exact .andThen (faultless_caseBlock hg rfl (faultless_commaList (faultless_expression hg))) fun _ hcases =>
      .pure (.branch rfl (by simp [*]))

theorem faultless_communication : Yields (communication g) Forest.Faultless := by
  refine .andThen (faultless_leftSide hg) fun left hleft => .bind fun _ => .ite ?_ (.bind fun _ => .ite ?_
    (.bind fun _ => .ite ?_ (.ite .refuse_bind (.pure (.branch rfl hleft)))))
  all_goals exact .andThen faultless_symbol fun _ ho => .close rfl (by simp [*]) (faultless_expression hg)

theorem faultless_selectStatement : Yields (selectStatement g) Forest.Faultless :=
  .andThen faultless_keyword fun _ hword => .close rfl hword (faultless_caseBlock hg rfl (faultless_communication hg))

theorem faultless_returnStatement : Yields (returnStatement g) Forest.Faultless :=
  .andThen faultless_keyword fun _ hword => .bind fun _ => .ite (.close rfl hword (faultless_values hg))
    (.pure (.branch rfl hword))

omit hg in
theorem faultless_jumpStatement {kind : Kind} (hkind : kind.isFault = false) {w : String} :
    Yields (jumpStatement kind w) Forest.Faultless :=
  .andThen faultless_keyword fun _ hword => .bind fun _ => .ite (.close hkind hword (faultless_name rfl))
    (.pure (.branch hkind hword))

theorem faultless_keywordStatement {kind : Kind} (hkind : kind.isFault = false) {w : String} :
    Yields (keywordStatement g kind w) Forest.Faultless :=
  .andThen faultless_keyword fun _ hword => .close hkind hword (faultless_expression hg)

omit hg in
theorem faultless_gotoStatement : Yields gotoStatement Forest.Faultless :=
  .andThen faultless_keyword fun _ hword => .close rfl hword (faultless_name rfl)

theorem faultless_labeledStatement : Yields (labeledStatement g) Forest.Faultless :=
  .andThen (faultless_name rfl) fun _ hlabel => .andThen faultless_symbol fun _ hcolon =>
    .close rfl (by simp [*]) (hg _)

theorem faultless_statement : Yields (statement g) Forest.Faultless := by
  refine .bind fun text => ?_
  split
  · exact faultless_block hg
  · exact faultless_take rfl
  · split
    · exact faultless_constDeclaration hg
    · exact faultless_varDeclaration hg
    · exact faultless_typeDeclaration hg
    · exact faultless_returnStatement hg
    · exact faultless_keywordStatement hg rfl
    · exact faultless_keywordStatement hg rfl
    · exact faultless_ifStatement hg
    · exact faultless_forStatement hg
    · exact faultless_switchStatement hg
    · exact faultless_selectStatement hg
    · exact faultless_take rfl
    · exact faultless_jumpStatement rfl
    · exact faultless_jumpStatement rfl
    · exact faultless_gotoStatement
    · exact .bind fun _ => .ite (faultless_labeledStatement hg) (.andThen (faultless_simpleStatement hg)
        fun _ hsimple => .pure (faultless_wrapSimple hsimple))

/-! ## Files -/

omit hg in
theorem faultless_packageClause : Yields packageClause Forest.Faultless :=
  .andThen faultless_keyword fun _ hword => .close rfl hword (faultless_name rfl)

omit hg in
theorem faultless_importSpec : Yields importSpec Forest.Faultless := by
  refine .bind fun _ => .ite ?_ (.ite ?_ ?_)
  · exact .andThen (faultless_take rfl) fun _ hfirst => .close rfl hfirst faultless_stringLiteral
  · exact .andThen (faultless_name rfl) fun _ hfirst => .close rfl hfirst faultless_stringLiteral
  · exact .andThen (.pure Forest.faultless_nil) fun _ hfirst => .close rfl hfirst faultless_stringLiteral

omit hg in
theorem faultless_importDeclaration : Yields importDeclaration Forest.Faultless := by
  refine .andThen faultless_keyword fun _ hword => .bind fun _ => .ite (.andThen faultless_symbol fun _ hleft =>
    .andThen (faultless_terminatedList faultless_importSpec) fun _ hspecs => .andThen faultless_symbol fun _ hright =>
    .pure (.branch rfl (Forest.faultless_append.2 ⟨hword, .branch rfl ?_⟩))) (.close rfl hword faultless_importSpec)
  simp [*]

theorem faultless_functionBody : Yields (functionBody g) Forest.Faultless :=
  .bind fun _ => .ite (hg _) (.pure Forest.faultless_nil)

theorem faultless_functionDeclaration : Yields (functionDeclaration g) Forest.Faultless := by
  refine .andThen faultless_keyword fun _ hword => .andThen (faultless_name rfl) fun _ hfirst => .bind fun _ => .ite
    (.andThen (faultless_typeParameters hg) ?_) (.andThen (.pure Forest.faultless_nil) ?_)
  all_goals
    exact fun _ htypes => .andThen (faultless_signature hg) fun _ hshape =>
      .close rfl (by simp [*]) (faultless_functionBody hg)

theorem faultless_methodDeclaration : Yields (methodDeclaration g) Forest.Faultless :=
  .andThen faultless_keyword fun _ hword => .andThen (hg _) fun _ hreceiver =>
    .andThen (faultless_name rfl) fun _ hfirst => .andThen (faultless_signature hg) fun _ hshape =>
    .close rfl (by simp [*]) (faultless_functionBody hg)

theorem faultless_item : Yields (item g) Forest.Faultless := by
  refine .bind fun text => ?_
  split
  · exact faultless_packageClause
  · exact faultless_importDeclaration
  · exact .bind fun _ => .ite (faultless_methodDeclaration hg)
      (.either (faultless_functionDeclaration hg) (faultless_statement hg))
  · exact faultless_statement hg

theorem faultless_rules (goal : Goal) : Yields (rules g goal) Forest.Faultless := by
  cases goal with
  | type newline => exact faultless_type hg
  | parameters => exact faultless_parameters hg
  | expression follow => exact faultless_expression hg
  | unary follow => exact faultless_unary hg
  | literalValue => exact faultless_literalValue hg
  | block => exact faultless_block hg
  | statement => exact faultless_statement hg
  | ifStatement => exact faultless_ifStatement hg

omit hg in
theorem faultless_itemEnd {more : Parser Forest} (hmore : Yields more Forest.Faultless) {first : Bool} {start : Nat}
    {one : Forest} (hone : one.Faultless) : Yields (itemEnd more first start one) Forest.Faultless :=
  .bind fun _ => .ite (.andThen faultless_terminator fun _ ht => .join (by simp [*]) hmore)
    (.bind fun _ => .bind fun _ => .ite (.join hone hmore) .refuse)

theorem faultless_items (fuel : Nat) (first : Bool) : Yields (items g fuel first) Forest.Faultless := by
  induction fuel generalizing first with
  | zero => exact .pure Forest.faultless_nil
  | succ fuel ih =>
    have hcomments : Yields (inspect (·.trivia true)) fun here => here.1.Faultless :=
      .inspect fun c => Cursor.faultless_skipTrivia true c.limit 0 c.rest c.position c.offset
    exact .andThen hcomments fun _ hhere => .ite (.pure hhere)
      (.andThen (faultless_item hg) fun _ hone => faultless_itemEnd (ih false) hone)

omit hg in
theorem faultless_unrolled (depth : Nat) (goal : Goal) : Yields (unrolled depth goal) Forest.Faultless := by
  induction depth generalizing goal with
  -- at the bottom nothing is read, so nothing faulty is
  | zero => exact .refuse
  | succ depth ih => exact faultless_rules ih goal

end CallLineage.Go.Grammar
