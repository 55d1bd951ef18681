import CallLineage.Proofs.Go.Canonical.Writing
/-! The bodies of canonical functions as the grammar reads them. -/
namespace CallLineage.Go.Canonical

open Go.Parser

/-! ## Expressions -/

def lead : Follow := { newline := true, assign := true, send := true }

section

variable {line : Nat} {blanks rest : List Char} {g : Grammar}

theorem longestSymbol_eq_none {symbols : List String} {text : List Char}
    (h : ∀ s ∈ symbols, startsWith s text = false) : longestSymbol symbols text = none := by
  rw [longestSymbol]
  induction symbols with
  | nil => rfl
  | cons s symbols ih =>
    rw [List.foldl_cons, h s List.mem_cons_self]
    exact ih fun s' hs' => h s' (List.mem_cons_of_mem _ hs')

/-- A name is an operand of its own. -/
theorem reads_operand (i : Ident) (hb : blanks.all (Cursor.isTrivial true) = true) (hr : endsWord rest = true)
    (ht : Cursor.beginsToken false rest = true) :
    Reads (Grammar.operand g lead) line (blanks ++ i.text.toList) rest
      (Forest.IsLeaf (line + blanks.count '\n') .identifier i.text) := by
  have hword := wordOf_append i.isWord_text hr
  refine Reads.ahead (.token hb (beginsToken_of_isWord i.isWord_text)) ?_
  split
  case h_5 =>
    rw [i.quoteAhead_eq, i.number?_eq, hword]
    simp only [Bool.false_eq_true, if_false]
    split
    case h_6 =>
      -- No keyword and no predeclared value: the name stands for itself, and takes no type.
      rw [i.predeclaredValue_eq]
      refine (Reads.name blanks i.isWord_text i.not_keyword hb hr).andThen fun first hfirst => ?_
      refine Reads.at? _ (.here ht) rfl ?_
      rw [i.takesType_eq, Bool.false_and, if_neg Bool.false_ne_true]
      exact .pure hfirst
    all_goals exact absurd (by decide) (‹_› ▸ i.not_keyword)
  all_goals exact absurd ‹_› (i.append_ne (by decide) _ _)

/-- Nothing is passed in a canonical call. -/
theorem reads_arguments : Reads (Grammar.arguments g) line "()".toList rest
    fun f => (∃ p cs, f = [Node.branch .argumentList p cs]) ∧ Sound [] f := by
  refine Reads.bind (s := "(".toList) (t := ")".toList) (.symbol [] rfl rfl) fun left hleft => ?_
  refine Reads.at? true (.here rfl) rfl ?_
  simp only [if_true, pure_bind_eq, List.append_nil]
  refine Reads.andThen (.symbol [] rfl rfl) fun right hright => .pure ⟨?_, ?_⟩
  · obtain ⟨p, -, hp⟩ := branch_of_leaf hleft nofun .argumentList right
    exact ⟨p, _, hp⟩
  · exact ((Sound.leaf hleft rfl).append (.leaf hright rfl)).branch rfl

inductive Callee : String → Forest → Prop
  | plain (p : Position) (t : String) : Callee t [Node.leaf .identifier p t]
  | selected (p q r : Position) (x t : String) : Callee (x ++ "." ++ t)
      [Node.branch .selectorExpression p [(Node.leaf .identifier p x).withField .operand, Node.leaf .token q ".",
        (Node.leaf .fieldIdentifier r t).withField .selected]]

/-- The call of what has been named. -/
theorem Callee.sound {name : String} {target inner : Forest} (h : Callee name target)
    (hinner : ∃ p cs, inner = [Node.branch .argumentList p cs]) (hs : Sound [] inner) :
    Sound [name] (Forest.branch .callExpression (target.label .function ++ inner)) := by
  obtain ⟨q, cs, rfl⟩ := hinner
  cases h with
  | plain p =>
    have hleaf : Sound [] [Node.leaf .identifier p name] := .leaf ⟨p, rfl, rfl⟩ rfl
    exact ((hleaf.label .function).append hs).call rfl
  | selected p q r x t =>
    have hx : Sound [] [Node.leaf .identifier p x] := .leaf ⟨p, rfl, rfl⟩ rfl
    have hpoint : Sound [] [Node.leaf .token q "."] := .leaf ⟨q, rfl, rfl⟩ rfl
    have ht : Sound [] [Node.leaf .fieldIdentifier r t] := .leaf ⟨r, rfl, rfl⟩ rfl
    have hselector : Sound [] (Forest.branch .selectorExpression _) :=
      (((hx.label .operand).append hpoint).append (ht.label .selected)).branch rfl
    exact ((hselector.label .function).append hs).call rfl

theorem reads_selection {lines : Bool} (p : Position) (x : String) (i : Ident) (hr : endsWord rest = true) :
    Reads (Grammar.selection g [Node.leaf .identifier p x] lines) line (".".toList ++ i.text.toList) rest
      (Callee (x ++ "." ++ i.text)) := by
  refine Reads.bind (.symbol [] rfl rfl) fun point hpoint => ?_
  refine Reads.at? false (.here (beginsToken_of_isWord i.isWord_text)) (i.startsWith_eq (by decide) _) ?_
  rw [if_neg Bool.false_ne_true]
  refine (Reads.name [] i.isWord_text i.not_keyword rfl hr).andThen fun selected hselected => .pure ?_
  obtain ⟨q, -, rfl⟩ := hpoint
  obtain ⟨r, -, rfl⟩ := hselected
  exact .selected p q r x i.text

/-- Before a line end nothing more is read. -/
theorem reads_suffixes_end {target : Forest} {Q : Forest → Prop} (fuel : Nat)
    (ht : Q target) : Reads (Grammar.suffixes g lead (fuel + 1) target) line [] ('\n' :: rest) Q := by
  refine Reads.ahead (.here rfl) ?_
  exact .pure ht

theorem reads_suffixes_call {name : String} {target : Forest} (fuel : Nat)
    (ht : Callee name target) :
    Reads (Grammar.suffixes g lead (fuel + 2) target) line "()".toList ('\n' :: rest) (Sound [name]) := by
  refine Reads.ahead (.here rfl) ?_
  refine reads_arguments.andThen fun inner hinner => ?_
  exact reads_suffixes_end fuel (ht.sound hinner.1 hinner.2)

/-- A selected name is not the guard of a type switch. -/
theorem reads_guardAhead {lines : Bool} {q : Bool → Parser Forest} {text tail : List Char} {Q : Forest → Prop}
    (i : Ident) (htext : text ++ rest = '.' :: (i.text.toList ++ tail)) (h : Reads (q false) line text rest Q) :
    Reads (Grammar.guardAhead lines >>= q) line text rest Q := by
  refine Reads.look false (fun c hc => ?_) h
  rw [htext] at hc
  have htrivia : c.trivia lines = ([], c) := Cursor.trivia_of_beginsToken (hc.rest ▸ rfl)
  have hnext : (c.skip 1).rest = i.text.toList ++ tail := hc.next.rest
  have hparen : (c.skip 1).trivia true = ([], c.skip 1) :=
    Cursor.trivia_of_beginsToken (hnext ▸ beginsToken_of_isWord i.isWord_text)
  have hleft : startsWith "(" (i.text.toList ++ tail) = false := i.startsWith_eq (by decide) _
  simp only [htrivia, hc.rest, i.dotAhead_eq, if_true, hparen, hnext, hleft, Bool.false_and]

theorem reads_suffixes_selected (fuel : Nat) (p : Position) (x : String) (i : Ident) :
    Reads (Grammar.suffixes g lead (fuel + 3) [Node.leaf .identifier p x]) line
      ((".".toList ++ i.text.toList) ++ "()".toList) ('\n' :: rest) (Sound [x ++ "." ++ i.text]) := by
  refine Reads.ahead (.here rfl) ?_
  have hsplit : ".".toList ++ i.text.toList ++ "()".toList ++ '\n' :: rest =
      '.' :: (i.text.toList ++ ("()".toList ++ '\n' :: rest)) := List.append_assoc ..
  refine reads_guardAhead i hsplit ?_
  rw [hsplit, i.dotAhead_eq, if_neg (by decide)]
  refine Reads.bind (reads_selection p x i rfl) fun target ht => ?_
  exact reads_suffixes_call fuel ht

def Call.first : Call → Ident
  | plain f => f
  | selected x _ => x

def Call.tail : Call → List Char
  | plain _ => "()".toList
  | selected _ f => ".".toList ++ f.text.toList ++ "()".toList

theorem Call.toList_text (call : Call) : call.text.toList = call.first.text.toList ++ call.tail := by
  cases call <;> simp [Call.text, Call.first, Call.tail]

theorem Call.endsWord_tail (call : Call) (rest : List Char) : endsWord (call.tail ++ rest) = true := by
  cases call <;> rfl

theorem Call.beginsToken_tail (call : Call) (lines : Bool) (rest : List Char) :
    Cursor.beginsToken lines (call.tail ++ rest) = true := by
  cases call <;> rfl

theorem Call.two_le_length_tail (call : Call) : 2 ≤ call.tail.length := by
  cases call <;> simp [Call.tail]

theorem Call.sees (call : Call) (hb : blanks.all (Cursor.isTrivial true) = true) :
    Cursor.Sees true (blanks ++ call.text.toList ++ rest) (call.first.text.toList ++ (call.tail ++ rest)) := by
  rw [call.toList_text, List.append_assoc, List.append_assoc]
  exact .blanks hb (.here (beginsToken_of_isWord call.first.isWord_text))

theorem reads_suffixes (call : Call) {fuel : Nat} (hfuel : 2 ≤ fuel) (p : Position) :
    Reads (Grammar.suffixes g lead (fuel + 1) [Node.leaf .identifier p call.first.text]) line call.tail
      ('\n' :: rest) (Sound [call.target]) := by
  obtain ⟨fuel, rfl⟩ := Nat.exists_eq_add_of_le' hfuel
  cases call with
  | plain f => exact reads_suffixes_call (fuel + 1) (.plain p f.text)
  | selected x f => exact reads_suffixes_selected fuel p x.text f

theorem reads_unary (call : Call) (hb : blanks.all (Cursor.isTrivial true) = true) :
    Reads (Grammar.unary g lead) line (blanks ++ call.text.toList) ('\n' :: rest) (Sound [call.target]) := by
  have hnone :
      longestSymbol Grammar.unaryOperators (call.first.text.toList ++ (call.tail ++ '\n' :: rest)) = none := by
    refine longestSymbol_eq_none fun s hs => call.first.startsWith_eq ?_ _
    revert s
    decide
  refine Reads.ahead (call.sees hb) ?_
  rw [hnone, call.toList_text, ← List.append_assoc]
  refine Reads.bind (reads_operand call.first hb (call.endsWord_tail _) (call.beginsToken_tail _ _)) ?_
  rintro _ ⟨p, -, rfl⟩
  exact Reads.limit fun n hn => reads_suffixes call (Nat.le_trans call.two_le_length_tail hn) p

/-- A call is an expression that a line end closes. -/
theorem reads_expression (call : Call) (hb : blanks.all (Cursor.isTrivial true) = true) :
    Reads (Grammar.expression g lead) line (blanks ++ call.text.toList) ('\n' :: rest) (Sound [call.target]) := by
  refine (reads_unary call hb).andThen fun first hfirst => ?_
  refine Reads.andThen (P := (· = [])) (Reads.many fun fuel _ => Reads.loop_end ?_) ?_
  · exact Reads.ahead (.here rfl) (.pure rfl)
  · rintro _ rfl
    exact .pure hfirst

theorem reads_simpleStatement {right : Follow} (call : Call) (hb : blanks.all (Cursor.isTrivial true) = true) :
    Reads (Grammar.simpleStatement g lead right) line (blanks ++ call.text.toList) ('\n' :: rest)
      fun s => s.1 = .expression ∧ Sound [call.target] s.2 := by
  have hleft : Reads (Grammar.leftSide g lead) line (blanks ++ call.text.toList) ('\n' :: rest)
      fun s => s.1 = false ∧ Sound [call.target] s.2 := by
    refine (reads_expression call hb).andThen fun first hfirst => ?_
    exact Reads.at? false (.here rfl) rfl (.pure ⟨rfl, hfirst⟩)
  refine hleft.andThen ?_
  rintro ⟨several, left⟩ ⟨rfl, h⟩
  refine Reads.ahead (.here rfl) ?_
  exact .pure ⟨rfl, h⟩

/-! ## Statements -/

/-- A call is not a label. -/
theorem reads_labelAhead {q : Bool → Parser Forest} {Q : Forest → Prop} (call : Call)
    (hb : blanks.all (Cursor.isTrivial true) = true)
    (h : Reads (q false) line (blanks ++ call.text.toList) ('\n' :: rest) Q) :
    Reads (Grammar.labelAhead >>= q) line (blanks ++ call.text.toList) ('\n' :: rest) Q := by
  refine Reads.look false (fun c hc => ?_) h
  have hfirst := call.first.isWord_text
  rw [call.toList_text, List.append_assoc, List.append_assoc] at hc
  have ht := hc.skip
  have hafter : Cursor.ahead _ false = call.tail ++ '\n' :: rest := ht.skip.ahead (.here (call.beginsToken_tail ..))
  have hcolon : startsWith ":" (call.tail ++ '\n' :: rest) = false := by cases call <;> rfl
  simp only [hc.trivia hb (beginsToken_of_isWord hfirst), ht.rest, wordOf_append hfirst (call.endsWord_tail _),
    ← String.length_toList, hafter, hcolon, Bool.and_false, Bool.false_and]

theorem reads_statement (call : Call) (hb : blanks.all (Cursor.isTrivial true) = true) :
    Reads (Grammar.statement g) line (blanks ++ call.text.toList) ('\n' :: rest) (Sound [call.target]) := by
  have hword := wordOf_append call.first.isWord_text (call.endsWord_tail ('\n' :: rest))
  refine Reads.ahead (call.sees hb) ?_
  split
  case h_3 =>
    rw [hword]
    split
    case h_15 =>
      refine reads_labelAhead call hb ?_
      refine (reads_simpleStatement call hb).andThen fun s hs => .pure ?_
      rw [Grammar.wrapSimple, if_pos hs.1]
      exact hs.2.branch rfl
    all_goals exact absurd (by decide) (‹_› ▸ call.first.not_keyword)
  all_goals exact absurd ‹_› (call.first.append_ne (by decide) _ _)

variable {g' : Grammar}

theorem reads_listedStatement (hg : g .statement = Grammar.statement g') (call : Call)
    (hb : blanks.all (Cursor.isTrivial true) = true) :
    Reads (Grammar.listedStatement g) line (blanks ++ call.text.toList) ('\n' :: rest) (Sound [call.target]) := by
  refine reads_labelAhead call hb ?_
  rw [hg]
  exact reads_statement call hb

theorem reads_terminator : Reads terminator line ['\n'] rest (Forest.IsLeaf line .token "\n") := by
  refine Reads.atTerminator? true (.here rfl) rfl ?_
  exact Reads.take [] (s := "\n") rfl rfl

/-- No list of statements ends before a name. -/
theorem Call.listEndAhead_eq (call : Call) (rest : List Char) :
    Grammar.listEndAhead (call.first.text.toList ++ (call.tail ++ rest)) = false := by
  rw [Grammar.listEndAhead, wordOf_append call.first.isWord_text (call.endsWord_tail rest)]
  · have hkeyword := call.first.not_keyword
    simp only [Bool.or_eq_false_iff, beq_eq_false_iff_ne]
    constructor
    all_goals
      intro h
      exact absurd (by decide) (h ▸ hkeyword)
  · obtain ⟨x, r, hi, -⟩ := call.first.exists_cons
    simp [hi]
  · exact fun _ => call.first.append_ne (by decide) _ _

theorem Line.toList_text (l : Line) : l.text.toList = l.indent ++ l.call.text.toList := by
  simp [Line.text]

theorem Line.trivial_indent (l : Line) (lines : Bool) : l.indent.all (Cursor.isTrivial lines) = true := by
  refine List.all_eq_true.2 fun x hx => ?_
  have h := List.all_eq_true.1 l.blank x hx
  rw [Bool.or_eq_true, beq_iff_eq, beq_iff_eq] at h
  rcases h with rfl | rfl <;> cases lines <;> rfl

/-- The lines of a body, each after the end of the line before it. -/
def bodyText (body : List Line) : List Char := body.flatMap fun l => '\n' :: l.text.toList

theorem exists_bodyText (body : List Line) (rest : List Char) :
    ∃ r, bodyText body ++ ['\n'] ++ rest = '\n' :: r := by
  cases body with
  | nil => exact ⟨rest, rfl⟩
  | cons l body => exact ⟨_, rfl⟩

theorem reads_furtherStatement (hg : g .statement = Grammar.statement g') (l : Line) :
    Reads (Grammar.furtherStatement g) line ('\n' :: l.text.toList) ('\n' :: rest)
      fun o => ∃ f, o = some f ∧ Sound [l.call.target] f := by
  have hindent := l.trivial_indent true
  rw [l.toList_text]
  refine Reads.atTerminator? true (.here rfl) rfl ?_
  refine Reads.bind (s := ['\n']) reads_terminator fun t ht => ?_
  refine Reads.ahead (l.call.sees hindent) ?_
  rw [l.call.listEndAhead_eq, if_neg Bool.false_ne_true]
  exact (reads_listedStatement hg l.call hindent).andThen fun f hf => .pure ⟨_, rfl, (Sound.leaf ht rfl).append hf⟩

/-- The calls after the first one, and the line end before the closing brace. -/
theorem reads_furtherStatements (hg : g .statement = Grammar.statement g') (body : List Line) {fuel : Nat}
    (hfuel : (bodyText body ++ ['\n']).length ≤ fuel) :
    Reads (Parser.loop (Grammar.furtherStatement g) (fuel + 1)) line (bodyText body ++ ['\n']) ('\x7d' :: rest)
      (Sound (body.map fun l => l.call.target)) := by
  induction body generalizing fuel line with
  | nil =>
    cases fuel with
    | zero => cases hfuel
    | succ fuel =>
      -- The last line end is a round of its own, and the brace ends the next one.
      refine Reads.loop_step (s := ['\n']) (t := []) ?_ (Reads.loop_end ?_) ?_ (P := Sound [])
      · refine Reads.atTerminator? true (.here rfl) rfl ?_
        refine reads_terminator.andThen fun t ht => ?_
        refine Reads.ahead (.here rfl) ?_
        exact .pure ⟨t, rfl, .leaf ht rfl⟩
      · exact Reads.atTerminator? false (.here rfl) rfl (.pure rfl)
      · rintro t _ ht rfl
        rwa [List.append_nil]
  | cons l body ih =>
    have hsplit : bodyText (l :: body) ++ ['\n'] = ('\n' :: l.text.toList) ++ (bodyText body ++ ['\n']) :=
      List.append_assoc ..
    rw [hsplit] at hfuel ⊢
    cases fuel with
    | zero => cases hfuel
    | succ fuel =>
      have hless : (bodyText body ++ ['\n']).length ≤ fuel := by
        simp only [List.length_append, List.length_cons] at hfuel ⊢
        omega
      obtain ⟨r, hr⟩ := exists_bodyText body ('\x7d' :: rest)
      refine Reads.loop_step (P := Sound [l.call.target]) ?_ (ih hless) fun f f' hf hf' => hf.append hf'
      rw [hr]
      exact reads_furtherStatement hg l

theorem reads_statementList (hg : g .statement = Grammar.statement g') (l : Line) (body : List Line) :
    Reads (Grammar.statementList g) line (bodyText (l :: body) ++ ['\n']) ('\x7d' :: rest)
      (Sound ((l :: body).map fun l => l.call.target)) := by
  have hindent : ('\n' :: l.indent).all (Cursor.isTrivial true) = true := l.trivial_indent true
  have hsplit : bodyText (l :: body) ++ ['\n'] =
      (('\n' :: l.indent) ++ l.call.text.toList) ++ (bodyText body ++ ['\n']) := by
    simp [bodyText, l.toList_text]
  obtain ⟨r, hr⟩ := exists_bodyText body ('\x7d' :: rest)
  have hnext : Cursor.Sees true
      (('\n' :: l.indent) ++ l.call.text.toList ++ (bodyText body ++ ['\n']) ++ '\x7d' :: rest)
      (l.call.first.text.toList ++ (l.call.tail ++ '\n' :: r)) := by
    rw [List.append_assoc _ (bodyText body ++ _), hr]
    exact l.call.sees hindent
  rw [hsplit]
  refine Reads.ahead hnext ?_
  rw [l.call.listEndAhead_eq, if_neg Bool.false_ne_true]
  refine Reads.bind (P := Sound [l.call.target]) ?_ fun first hfirst => ?_
  · rw [hr]
    exact reads_listedStatement hg l.call hindent
  · refine (Reads.many fun fuel hfuel => reads_furtherStatements hg body hfuel).andThen fun more hmore => ?_
    exact .pure (hfirst.append hmore)

/-- A body in braces. -/
theorem reads_block (blanks : List Char) (hg : g .statement = Grammar.statement g') (body : List Line)
    (hb : blanks.all (Cursor.isTrivial true) = true) :
    Reads (Grammar.block g) line (blanks ++ "\x7b".toList ++ (bodyText body ++ "\n\x7d".toList)) rest
      (Sound (body.map fun l => l.call.target)) := by
  refine Reads.bind (.symbol blanks hb rfl) fun left hleft => ?_
  cases body with
  | nil =>
    refine Reads.bind (s := []) (P := Sound []) ?_ fun inner hinner => ?_
    · exact Reads.ahead (.blank rfl (.here rfl)) (.pure .nil)
    · refine (Reads.symbol ['\n'] (s := "\x7d") rfl rfl).andThen fun right hright => .pure ?_
      exact (((Sound.leaf hleft rfl).append hinner).append (.leaf hright rfl)).branch rfl
  | cons l body =>
    have hsplit : bodyText (l :: body) ++ "\n\x7d".toList = bodyText (l :: body) ++ ['\n'] ++ "\x7d".toList := by
      rw [List.append_assoc]
      rfl
    rw [hsplit]
    refine Reads.bind (reads_statementList hg l body) fun inner hinner => ?_
    refine (Reads.symbol [] (s := "\x7d") rfl rfl).andThen fun right hright => .pure ?_
    have hall := ((Sound.leaf hleft rfl).append hinner).append (.leaf hright rfl)
    rw [List.append_nil] at hall
    exact hall.branch rfl

end

end CallLineage.Go.Canonical
