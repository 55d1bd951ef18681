import CallLineage.Proofs.Go.Canonical.Body
/-! Canonical functions, methods and files as the grammar reads them. -/
namespace CallLineage.Go.Canonical

open Go.Parser

section

variable {line : Nat} {blanks rest : List Char} {g g' : Grammar}

/-! ## Parameters and receivers -/

theorem reads_noParameters : Reads (Grammar.parameters g) line "()".toList rest (Sound []) := by
  refine Reads.bind (s := "(".toList) (t := ")".toList) (.symbol [] rfl rfl) fun left hleft => ?_
  refine Reads.at? true (.here rfl) rfl (Reads.at? false (.here rfl) rfl ?_)
  simp only [if_true, pure_bind_eq, List.append_nil]
  refine Reads.andThen (.symbol [] rfl rfl) fun right hright => .pure ?_
  exact ((Sound.leaf hleft rfl).append (.leaf hright rfl)).branch rfl

inductive NamesType : String → Forest → Prop
  | plain (p : Position) (t : String) : NamesType t [Node.leaf .typeIdentifier p t]
  | pointer (p q : Position) (t : String) :
      NamesType t [Node.branch .pointerType p [Node.leaf .token p "*", Node.leaf .typeIdentifier q t]]

theorem reads_type (blanks : List Char) (i : Ident) (hb : blanks.all (Cursor.isTrivial true) = true) :
    Reads (Grammar.type g false) line (blanks ++ i.text.toList) (")".toList ++ rest)
      fun f => ∃ p, f = [Node.leaf .typeIdentifier p i.text] := by
  have hword : wordOf (i.text.toList ++ (")".toList ++ rest)) = i.text := wordOf_append i.isWord_text rfl
  refine Reads.ahead (.token hb (beginsToken_of_isWord i.isWord_text)) ?_
  split
  case h_6 =>
    rw [hword]
    split
    case h_6 =>
      refine (Reads.name blanks i.isWord_text i.not_keyword hb rfl).andThen ?_
      rintro _ ⟨p, -, rfl⟩
      have hdot : Grammar.dotAhead (")".toList ++ rest) = false := rfl
      refine Reads.ahead (.here rfl) ?_
      simp only [List.nil_append, hdot, Bool.false_eq_true, if_false, pure_bind_eq]
      exact Reads.at? false (.here rfl) rfl (.pure ⟨p, rfl⟩)
    all_goals exact absurd (by decide) (‹_› ▸ i.not_keyword)
  all_goals exact absurd ‹_› (i.append_ne (by decide) _ _)

def Receiver.typeText (r : Receiver) : List Char :=
  (if r.pointer then " *" else " ").toList ++ r.type.text.toList

/-- The name of a receiver's type, after a star if that is a pointer. -/
theorem reads_receiverType (hg : g (.type false) = Grammar.type g' false) (r : Receiver) :
    Reads (Grammar.type g false) line r.typeText (")".toList ++ rest) (NamesType r.type.text) := by
  rw [Receiver.typeText]
  cases r.pointer with
  | false =>
    refine (reads_type [' '] r.type rfl).mono ?_
    rintro _ ⟨p, rfl⟩
    exact .plain p _
  | true =>
    refine Reads.ahead (.blank rfl (.here rfl)) ?_
    refine Reads.bind (.symbol [' '] rfl rfl) fun star hstar => ?_
    rw [hg]
    refine (reads_type [] r.type rfl).andThen ?_
    obtain ⟨q, -, rfl⟩ := hstar
    rintro _ ⟨p, rfl⟩
    exact .pure (.pointer q p _)

/-- What comes after the name of a receiver is read as its type. -/
theorem Receiver.sees_type (r : Receiver) (rest : List Char) : ∃ next,
    Cursor.Sees true (r.typeText ++ rest) next ∧
      (next.head? == some ',' || next.head? == some ')') = false ∧ startsWith "..." next = false ∧
      Grammar.dotAhead next = false ∧ (next.head? == some '[') = false := by
  rw [Receiver.typeText]
  cases r.pointer with
  | false =>
    refine ⟨r.type.text.toList ++ rest, .blank rfl (.here (beginsToken_of_isWord r.type.isWord_text)), ?_⟩
    have hpoint : startsWith "." (r.type.text.toList ++ rest) = false := r.type.startsWith_eq (by decide) _
    have hpoints : startsWith "..." (r.type.text.toList ++ rest) = false := r.type.startsWith_eq (by decide) _
    refine ⟨?_, hpoints, ?_, r.type.head?_beq (by decide) _⟩
    · rw [r.type.head?_beq (by decide), r.type.head?_beq (by decide), Bool.or_false]
    · rw [Grammar.dotAhead, hpoint, Bool.false_and]
  | true => exact ⟨'*' :: (r.type.text.toList ++ rest), .blank rfl (.here rfl), rfl, rfl, rfl, rfl⟩

theorem reads_parameterEntry {g'' : Grammar} (hg : g (.type false) = Grammar.type g' false)
    (hg' : g' (.type false) = Grammar.type g'' false) (r : Receiver) :
    Reads (Grammar.parameterEntry g) line (r.name.text.toList ++ r.typeText) (")".toList ++ rest)
      fun e => ∃ p type, e = .named [Node.leaf .identifier p r.name.text] type ∧ NamesType r.type.text type := by
  have hends : endsWord (r.typeText ++ (")".toList ++ rest)) = true := by
    rw [Receiver.typeText]
    cases r.pointer <;> rfl
  obtain ⟨next, hnext, hclose, hpoints, hdot, hbracket⟩ := r.sees_type (")".toList ++ rest)
  have hfirst : Cursor.Sees true (r.name.text.toList ++ r.typeText ++ (")".toList ++ rest))
      (r.name.text.toList ++ (r.typeText ++ (")".toList ++ rest))) := by
    rw [List.append_assoc]
    exact .here (beginsToken_of_isWord r.name.isWord_text)
  refine Reads.ahead hfirst ?_
  rw [r.name.startsWith_eq (by decide), nameAhead_append r.name.isWord_text r.name.not_keyword hends]
  refine Reads.bind (.name [] r.name.isWord_text r.name.not_keyword rfl hends) ?_
  rintro _ ⟨p, -, rfl⟩
  refine Reads.ahead hnext ?_
  rw [hclose, hpoints, hdot, hbracket, hg]
  exact (reads_receiverType hg' r).andThen fun type htype => .pure ⟨p, type, rfl, htype⟩

def parameterType? (n : Node) : Option String := do
  let parameter ← n.namedChildren.find? fun m => m.kind == .parameterDeclaration
  let type ← parameter.child? .type
  type.typeName?

/-- The parameter that a receiver is. -/
theorem NamesType.sound {t : String} {type : Forest} (h : NamesType t type) (p : Position) (name : String) :
    ∃ q cs, Grammar.groupParameters [] [] [(.named [Node.leaf .identifier p name] type, [])] =
        [Node.branch .parameterDeclaration q cs] ∧
      Sound [] [Node.branch .parameterDeclaration q cs] ∧
      ((Node.branch .parameterDeclaration q cs).child? .type).bind Node.typeName? = some t := by
  have hname : Sound [] [Node.leaf .identifier p name] := .leaf ⟨p, rfl, rfl⟩ rfl
  cases h with
  | plain q =>
    have htype : Sound [] [Node.leaf .typeIdentifier q t] := .leaf ⟨q, rfl, rfl⟩ rfl
    exact ⟨_, _, rfl, ((hname.label .name).append (htype.label .type)).branch rfl, rfl⟩
  | pointer q r =>
    have hstar : Sound [] [Node.leaf .token q "*"] := .leaf ⟨q, rfl, rfl⟩ rfl
    have htype : Sound [] [Node.leaf .typeIdentifier r t] := .leaf ⟨r, rfl, rfl⟩ rfl
    have hpointer : Sound [] (Forest.branch .pointerType _) := (hstar.append htype).branch rfl
    exact ⟨_, _, rfl, ((hname.label .name).append (hpointer.label .type)).branch rfl, rfl⟩

theorem Receiver.toList_text (r : Receiver) :
    r.text.toList = "(".toList ++ (r.name.text.toList ++ r.typeText ++ ")".toList) := by
  simp [Receiver.text, Receiver.typeText]

theorem reads_receiver {g'' : Grammar} (hg : g (.type false) = Grammar.type g' false)
    (hg' : g' (.type false) = Grammar.type g'' false) (r : Receiver) :
    Reads (Grammar.parameters g) line (" ".toList ++ r.text.toList) rest
      fun f => ∃ p cs, f = [Node.branch .parameterList p cs] ∧ Sound [] f ∧
        parameterType? (Node.branch .parameterList p cs) = some r.type.text := by
  have htoken : Cursor.beginsToken true (r.name.text.toList ++ r.typeText ++ ")".toList ++ rest) = true := by
    rw [List.append_assoc, List.append_assoc]
    exact beginsToken_of_isWord r.name.isWord_text
  have hstart : ∀ s : String, (s.toList.head?.any fun y => !y.isAlpha) = true →
      startsWith s (r.name.text.toList ++ r.typeText ++ ")".toList ++ rest) = false := by
    intro s hs
    rw [List.append_assoc, List.append_assoc]
    exact r.name.startsWith_eq hs _
  rw [r.toList_text, ← List.append_assoc]
  refine Reads.bind (.symbol [' '] rfl rfl) fun left hleft => ?_
  -- Neither the end of the list nor a comma follows: there is an entry.
  refine Reads.at? false (.here htoken) (hstart _ (by decide)) ?_
  refine Reads.at? false (.here htoken) (hstart _ (by decide)) ?_
  simp only [Bool.false_eq_true, if_false, pure_bind_eq]
  refine Reads.limit fun n _ => ?_
  have hentries : Reads (Grammar.parameterEntries g (n + 1)) (line + (" ".toList ++ "(".toList).count '\n')
      (r.name.text.toList ++ r.typeText) (")".toList ++ rest) fun es =>
        ∃ p type, es = [(.named [Node.leaf .identifier p r.name.text] type, [])] ∧ NamesType r.type.text type := by
    refine (reads_parameterEntry hg hg' r).andThen ?_
    rintro _ ⟨p, type, rfl, htype⟩
    exact Reads.at? false (.here rfl) rfl (.pure ⟨p, type, rfl, htype⟩)
  refine Reads.bind hentries ?_
  rintro _ ⟨p, type, rfl, htype⟩
  obtain ⟨q, cs, hgroup, hsound, hnamed⟩ := htype.sound p r.name.text
  rw [hgroup]
  refine (Reads.symbol [] rfl rfl).andThen fun right hright => .pure ?_
  have hall := ((Sound.leaf hleft rfl).append hsound).append (.leaf hright rfl)
  obtain ⟨o, -, rfl⟩ := hleft
  obtain ⟨o', -, rfl⟩ := hright
  exact ⟨o, _, rfl, hall.branch rfl, hnamed⟩

/-! ## Declarations -/

structure IsDeclaration (receiver : Option String) (name : String) (line : Nat) (calls : List String) (n : Node) :
    Prop where
  receiver : n.declaredReceiver? = some receiver
  name : (n.child? .name).map Node.text = some name
  line : n.start.line = line
  sound : Sound calls [n]
  ends : Grammar.endsFile n.kind = true

theorem reads_signature (hg : g .parameters = Grammar.parameters g') :
    Reads (Grammar.signature g true) line "()".toList (" \x7b".toList ++ rest) (Sound []) := by
  rw [Grammar.signature, hg]
  refine reads_noParameters.andThen fun f hf => ?_
  refine Reads.andThen (P := (· = [])) ?_ ?_
  · exact Reads.ahead (.blank rfl (.here rfl)) (.pure rfl)
  · rintro _ rfl
    rw [List.append_nil]
    exact .pure hf

theorem reads_functionBody {g'' : Grammar} (hg : g .block = Grammar.block g')
    (hg' : g' .statement = Grammar.statement g'') (body : List Line) :
    Reads (Grammar.functionBody g) line (" \x7b".toList ++ (bodyText body ++ "\n\x7d".toList)) rest
      (Sound (body.map fun l => l.call.target)) := by
  refine Reads.at? true (.blank rfl (.here rfl)) rfl ?_
  rw [if_pos rfl, hg]
  exact reads_block [' '] hg' body rfl

def Function.tailText (f : Function) : List Char :=
  " ".toList ++ f.name.text.toList ++ ("()".toList ++ (" \x7b".toList ++ (bodyText f.body ++ "\n\x7d".toList)))

theorem reads_functionDeclaration (f : Function) (depth : Nat) (hb : blanks.all (Cursor.isTrivial true) = true) :
    Reads (Grammar.functionDeclaration (Grammar.unrolled (depth + 3))) line
      (blanks ++ "func".toList ++ f.tailText) rest
      fun forest => ∃ n, forest = [n] ∧ IsDeclaration none f.name.text (line + blanks.count '\n') f.calls n := by
  refine Reads.bind (.keyword blanks (by decide) hb rfl) fun word hword => ?_
  refine Reads.bind (.name [' '] f.name.isWord_text f.name.not_keyword rfl rfl) fun first hfirst => ?_
  refine Reads.at? false (.here rfl) rfl ?_
  simp only [Bool.false_eq_true, if_false, pure_bind_eq]
  refine Reads.bind (reads_signature rfl) fun shape hshape => ?_
  refine (reads_functionBody rfl rfl f.body).andThen fun body hbody => .pure ?_
  have hname := (Sound.leaf hfirst rfl).label .name
  have hall := ((((Sound.leaf hword rfl).append hname).append .nil).append hshape).append hbody
  obtain ⟨p, hp, rfl⟩ := hword
  obtain ⟨q, -, rfl⟩ := hfirst
  exact ⟨_, rfl, rfl, rfl, hp, hall.branch rfl, rfl⟩

theorem reads_methodDeclaration (f : Function) (r : Receiver) (depth : Nat)
    (hb : blanks.all (Cursor.isTrivial true) = true) :
    Reads (Grammar.methodDeclaration (Grammar.unrolled (depth + 4))) line
      (blanks ++ "func".toList ++ (" ".toList ++ r.text.toList ++ f.tailText)) rest
      fun forest => ∃ n, forest = [n] ∧
        IsDeclaration (some r.type.text) f.name.text (line + blanks.count '\n') f.calls n := by
  refine Reads.bind (.keyword blanks (by decide) hb rfl) fun word hword => ?_
  refine Reads.bind (reads_receiver rfl rfl r) fun receiver hreceiver => ?_
  refine Reads.bind (.name [' '] f.name.isWord_text f.name.not_keyword rfl rfl) fun first hfirst => ?_
  refine Reads.bind (reads_signature rfl) fun shape hshape => ?_
  refine (reads_functionBody rfl rfl f.body).andThen fun body hbody => .pure ?_
  obtain ⟨q, cs, rfl, hsound, htype⟩ := hreceiver
  have hname := (Sound.leaf hfirst rfl).label .name
  have hall := ((((Sound.leaf hword rfl).append (hsound.label .receiver)).append hname).append hshape).append hbody
  obtain ⟨p, hp, rfl⟩ := hword
  obtain ⟨o, -, rfl⟩ := hfirst
  exact ⟨_, rfl, congrArg (Option.map some) htype, rfl, hp, hall.branch rfl, rfl⟩

/-- A method has its receiver between the keyword and its name. -/
theorem reads_isMethodHead (f : Function) (r : Receiver) (depth : Nat)
    (hb : blanks.all (Cursor.isTrivial true) = true) {q : Bool → Parser Forest} {Q : Forest → Prop}
    (h : Reads (q true) line (blanks ++ "func".toList ++ (" ".toList ++ r.text.toList ++ f.tailText)) rest Q) :
    Reads (Grammar.isMethodHead (Grammar.unrolled (depth + 4)) >>= q) line
      (blanks ++ "func".toList ++ (" ".toList ++ r.text.toList ++ f.tailText)) rest Q := by
  have htext : blanks ++ "func".toList ++ (" ".toList ++ r.text.toList ++ f.tailText) ++ rest =
      blanks ++ "func".toList ++ (" ".toList ++ r.text.toList ++ (" ".toList ++ f.name.text.toList)) ++
        ("()".toList ++ (" \x7b".toList ++ (bodyText f.body ++ "\n\x7d".toList)) ++ rest) := by
    simp [Function.tailText]
  refine Reads.foresees htext ?_ h
  refine Reads.bind (.keyword blanks (by decide) hb rfl) fun _ _ => ?_
  refine Reads.bind (reads_receiver rfl rfl r) fun _ _ => ?_
  refine (Reads.name [' '] f.name.isWord_text f.name.not_keyword rfl rfl).andThen fun _ _ => ?_
  exact Reads.at? true (.here rfl) rfl (.pure rfl)

/-- A function has its name behind the keyword. -/
theorem reads_isMethodHead_function (f : Function) (depth : Nat)
    (hb : blanks.all (Cursor.isTrivial true) = true) {q : Bool → Parser Forest} {Q : Forest → Prop}
    (h : Reads (q false) line (blanks ++ "func".toList ++ f.tailText) rest Q) :
    Reads (Grammar.isMethodHead (Grammar.unrolled (depth + 4)) >>= q) line
      (blanks ++ "func".toList ++ f.tailText) rest Q := by
  have hname : ∃ r, f.tailText ++ rest = ' ' :: (f.name.text.toList ++ r) := by
    rw [Function.tailText, List.append_assoc, List.append_assoc]
    exact ⟨_, rfl⟩
  obtain ⟨r, hr⟩ := hname
  refine Reads.foresees_of_refuses ?_ h
  rw [List.append_assoc, hr]
  refine Refuses.andThen (.keyword blanks (by decide) hb rfl) fun _ _ => ?_
  -- The attempt at a receiver fails at its parenthesis.
  have hsees : Cursor.Sees true (' ' :: (f.name.text.toList ++ r)) (f.name.text.toList ++ r) :=
    .blank rfl (.here (beginsToken_of_isWord f.name.isWord_text))
  exact Refuses.bind (Refuses.bind (.symbol hsees (f.name.startsWith_eq (by decide) r)))

/-! ## Items -/

def Function.text (f : Function) : List Char := f.head.toList ++ (bodyText f.body ++ "\n\x7d".toList)

theorem Function.text_eq (f : Function) :
    f.text = "func".toList ++ (((f.receiver.map fun r => " ".toList ++ r.text.toList).getD []) ++ f.tailText) := by
  cases hr : f.receiver <;> simp [Function.text, Function.head, Function.tailText, hr]

theorem reads_item_function (f : Function) (depth : Nat) (hb : blanks.all (Cursor.isTrivial true) = true) :
    Reads (Grammar.item (Grammar.unrolled (depth + 4))) line (blanks ++ f.text) rest
      fun forest => ∃ n, forest = [n] ∧
        IsDeclaration (f.receiver.map fun r => r.type.text) f.name.text (line + blanks.count '\n') f.calls n := by
  have hsees : ∀ tail,
      Cursor.Sees true (blanks ++ "func".toList ++ tail ++ rest) ("func".toList ++ (tail ++ rest)) := by
    intro tail
    rw [List.append_assoc _ tail]
    exact .token hb rfl
  rw [f.text_eq, ← List.append_assoc]
  cases f.receiver with
  | none =>
    refine Reads.ahead (hsees _) ?_
    rw [wordOf_append (by decide) rfl]
    exact reads_isMethodHead_function f depth hb (reads_functionDeclaration f (depth + 1) hb).either
  | some r =>
    refine Reads.ahead (hsees _) ?_
    rw [wordOf_append (by decide) rfl]
    exact reads_isMethodHead f r depth hb (reads_methodDeclaration f r depth hb)

theorem reads_packageClause (i : Ident) (hr : endsWord rest = true) :
    Reads (Grammar.item g) line ("package".toList ++ (" ".toList ++ i.text.toList)) rest
      fun forest => ∃ n, forest = [n] ∧ n.kind = .packageClause ∧ Sound [] [n] := by
  have hword : wordOf ("package".toList ++ (" ".toList ++ i.text.toList ++ rest)) = "package" :=
    wordOf_append (by decide) rfl
  refine Reads.ahead (.here rfl) ?_
  rw [List.append_assoc, hword]
  refine Reads.bind (.keyword [] (by decide) rfl rfl) fun word hword => ?_
  refine (Reads.name [' '] i.isWord_text i.not_keyword rfl hr).andThen fun first hfirst => .pure ?_
  have hall := (Sound.leaf hword rfl).append (.leaf hfirst rfl)
  obtain ⟨p, -, rfl⟩ := hword
  exact ⟨_, rfl, rfl, hall.branch rfl⟩

/-- Functions, each after the end of a line and its empty lines. -/
def functionsText (fs : List Function) : List Char := fs.flatMap fun f => List.replicate (f.gap + 1) '\n' ++ f.text

inductive DeclareAll : Nat → List Function → List Node → Prop
  | nil (line : Nat) : DeclareAll line [] []
  | cons {line : Nat} {f : Function} {fs : List Function} {n : Node} {ns : List Node}
      (head : IsDeclaration (f.receiver.map fun r => r.type.text) f.name.text (line + f.gap + 1) f.calls n)
      (tail : DeclareAll (line + f.lines.length) fs ns) : DeclareAll line (f :: fs) (n :: ns)

theorem trivial_newlines (k : Nat) : (List.replicate k '\n').all (Cursor.isTrivial true) = true := by
  rw [List.all_replicate]
  split <;> rfl

theorem Function.beginsToken_text (f : Function) :
    f.text ≠ [] ∧ ∀ r, Cursor.beginsToken true (f.text ++ r) = true := by
  rw [f.text_eq]
  exact ⟨List.cons_ne_nil _ _, fun _ => rfl⟩

theorem Ident.count_newline (i : Ident) : i.text.toList.count '\n' = 0 := by
  rw [List.count_eq_zero]
  intro hmem
  have h := i.plain
  cases hi : i.text.toList with
  | nil => simp [hi] at hmem
  | cons x r =>
    rw [hi, isPlain, Bool.and_eq_true, List.all_eq_true] at h
    rw [hi] at hmem
    rcases List.mem_cons.1 hmem with rfl | hr
    · exact absurd h.1 (by decide)
    · exact absurd (h.2 _ hr) (by decide)

theorem Line.count_newline (l : Line) : l.text.toList.count '\n' = 0 := by
  have hindent : l.indent.count '\n' = 0 := by
    rw [List.count_eq_zero]
    exact fun hmem => absurd (List.all_eq_true.1 l.blank _ hmem) (by decide)
  have hcall : l.call.text.toList.count '\n' = 0 := by
    cases l.call <;> simp [Call.text, Ident.count_newline]
  rw [l.toList_text, List.count_append, hindent, hcall]

theorem Function.count_newline_head (f : Function) : f.head.toList.count '\n' = 0 := by
  rw [Function.head]
  cases f.receiver with
  | none => simp [Ident.count_newline]
  | some r => cases hp : r.pointer <;> simp [Receiver.text, Ident.count_newline, hp]

theorem count_newline_bodyText (body : List Line) : (bodyText body).count '\n' = body.length := by
  induction body with
  | nil => rfl
  | cons l body ih =>
    have hsplit : bodyText (l :: body) = '\n' :: l.text.toList ++ bodyText body := rfl
    rw [hsplit, List.count_append, List.count_cons_self, l.count_newline, ih, List.length_cons]
    omega

/-- A function takes as many lines as it is written in. -/
theorem Function.count_newline (f : Function) :
    (List.replicate f.gap '\n' ++ f.text).count '\n' + 1 = f.lines.length := by
  have hend : "\n\x7d".toList.count '\n' = 1 := by decide
  rw [Function.text, Function.lines, List.count_append, List.count_append, List.count_append,
    List.count_replicate_self, f.count_newline_head, count_newline_bodyText, hend]
  simp
  omega

theorem kind_of_endsFile {n : Node} (h : Grammar.endsFile n.kind = true) :
    n.isNamed = true ∧ n.isComment = false := by
  rw [Node.isNamed, Node.isComment, bne_iff_ne, beq_eq_false_iff_ne]
  constructor
  all_goals
    intro hk
    rw [hk] at h
    cases h

/-- Nodes without faults, of which those that are not tokens satisfy `S`. -/
structure Lists (S : List Node → Prop) (f : Forest) : Prop where
  named : S (f.filter Node.isNamed)
  sound : ∀ n ∈ f, n.faulty = false

structure IsItem (n : Node) : Prop where
  faulty : n.faulty = false
  ends : Grammar.endsFile n.kind = true

theorem Lists.cons {S S' : List Node → Prop} {n : Node} {t f : Forest} (hn : IsItem n) (ht : Lists (· = []) t)
    (hf : Lists S f) (hS : ∀ ns, S ns → S' (n :: ns)) : Lists S' ([n] ++ t ++ f) where
  named := by
    rw [List.filter_append, List.filter_append, ht.named, List.filter_cons_of_pos (kind_of_endsFile hn.ends).1]
    exact hS _ hf.named
  sound := by
    simp only [List.forall_mem_append, List.forall_mem_singleton]
    exact ⟨⟨hn.faulty, ht.sound⟩, hf.sound⟩

theorem IsDeclaration.isItem {receiver : Option String} {name : String} {calls : List String} {n : Node}
    (h : IsDeclaration receiver name line calls n) : IsItem n :=
  ⟨(h.sound.clean n List.mem_cons_self).2, h.ends⟩

section

variable {more : Parser Forest} {first : Bool} {start : Nat} {n : Node} {S S' : List Node → Prop}

/-- The end of a line closes an item. -/
theorem reads_itemEnd {t : List Char} (hn : IsItem n) (hmore : Reads more (line + 1) t rest (Lists S))
    (hS : ∀ ns, S ns → S' (n :: ns)) :
    Reads (Grammar.itemEnd more first start [n]) line ('\n' :: t) rest (Lists S') := by
  refine Reads.atTerminator? true (.here rfl) rfl ?_
  refine Reads.bind (s := ['\n']) reads_terminator ?_
  rintro _ ⟨p, -, rfl⟩
  have hterminator : Lists (· = []) [Node.leaf .token p "\n"] := ⟨rfl, List.forall_mem_singleton.2 rfl⟩
  exact hmore.andThen fun f hf => .pure (.cons hn hterminator hf hS)

/-- So does the end of the file. -/
theorem reads_itemEnd_last (hn : IsItem n) (hmore : Reads more line [] [] (Lists S))
    (hS : ∀ ns, S ns → S' (n :: ns)) :
    Reads (Grammar.itemEnd more first start [n]) line [] [] (Lists S') := by
  have hhead : Forest.head? [n] = some n := by
    rw [Forest.head?, List.find?_cons_of_pos]
    rw [(kind_of_endsFile hn.ends).2]
    rfl
  have haccept : ∀ bytes, Grammar.acceptsUnterminated first bytes n.kind true = true := by
    simp [Grammar.acceptsUnterminated, hn.ends]
  refine Reads.atTerminator? false (.here rfl) rfl ?_
  refine Reads.inspect (P := fun _ => True) (fun _ _ => trivial) fun offset _ => ?_
  refine Reads.ahead (.here rfl) ?_
  simp only [hhead, Option.map_some, Option.getD_some, List.append_nil, List.isEmpty_nil, haccept, if_true]
  exact hmore.andThen fun f hf => .pure (.cons hn ⟨rfl, nofun⟩ hf hS)

end

/-- Blanks before the end of a text are left. -/
theorem reads_items_end {fuel l : Nat} (hfuel : 0 < fuel) (first : Bool)
    (hb : blanks.all (Cursor.isTrivial true) = true) :
    Reads (Grammar.items g fuel first) line [] blanks (Lists (DeclareAll l [])) := by
  obtain ⟨fuel, rfl⟩ := Nat.exists_eq_add_of_lt hfuel
  rw [Nat.zero_add]
  refine Reads.inspect (P := fun here => here.1 = [] ∧ here.2.rest = []) (fun c hc => ?_) ?_
  · have hc' : c.At line (blanks ++ []) := by rwa [List.append_nil]
    rw [hc'.trivia hb rfl]
    exact ⟨rfl, hc'.skip.rest⟩
  · rintro ⟨_, here⟩ ⟨rfl, h⟩
    dsimp only
    rw [h]
    exact .pure ⟨.nil l, nofun⟩

/-- An item with the functions behind it. The line end after the last of them belongs to it, and any further ones are
left. -/
theorem reads_items {line : Nat} {blanks text : List Char} {P : Node → Prop} {S : List Node → Prop}
    (fs : List Function) (trailing depth fuel : Nat) (first : Bool) (hfuel : fs.length < fuel)
    (hb : blanks.all (Cursor.isTrivial true) = true)
    (ht : text ≠ [] ∧ ∀ r, Cursor.beginsToken true (text ++ r) = true)
    (hitem : Reads (Grammar.item (Grammar.unrolled (depth + 4))) line (blanks ++ text)
      (functionsText fs ++ List.replicate trailing '\n') fun f => ∃ n, f = [n] ∧ P n)
    (hP : ∀ n, P n → IsItem n)
    (hS : ∀ n ns, P n → DeclareAll (line + (blanks ++ text).count '\n') fs ns → S (n :: ns)) :
    Reads (Grammar.items (Grammar.unrolled (depth + 4)) (fuel + 1) first) line
      (blanks ++ text ++ (functionsText fs ++ (List.replicate trailing '\n').take 1))
      ((List.replicate trailing '\n').drop 1) (Lists S) := by
  have hrest : functionsText fs ++ (List.replicate trailing '\n').take 1 ++ (List.replicate trailing '\n').drop 1 =
      functionsText fs ++ List.replicate trailing '\n' := by
    rw [List.append_assoc, List.take_append_drop]
  refine Reads.inspect (P := fun here => here.2.rest ≠ []) (fun c hc => ?_) fun here hhere => ?_
  · rw [List.append_assoc, hrest, List.append_assoc] at hc
    rw [hc.trivia hb (ht.2 _), hc.skip.rest]
    simp [ht.1]
  · rw [List.isEmpty_eq_false_iff.2 hhere, if_neg Bool.false_ne_true]
    refine Reads.bind (hrest ▸ hitem) ?_
    rintro _ ⟨n, rfl, hn⟩
    have hn' := hP n hn
    -- The recursion is on the functions behind the item: the next of them takes the place of the item.
    cases fs with
    | nil =>
      cases trailing with
      | zero => exact reads_itemEnd_last hn' (reads_items_end hfuel false rfl) fun ns => hS n ns hn
      | succ k =>
        exact reads_itemEnd (t := []) hn' (reads_items_end hfuel false (trivial_newlines k)) fun ns => hS n ns hn
    | cons f fs =>
      obtain ⟨fuel, rfl⟩ := Nat.exists_eq_add_of_lt hfuel
      have hsplit : functionsText (f :: fs) ++ (List.replicate trailing '\n').take 1 =
          '\n' :: (List.replicate f.gap '\n' ++ f.text ++
            (functionsText fs ++ (List.replicate trailing '\n').take 1)) := by
        simp [functionsText, List.replicate_succ]
      have hgap := trivial_newlines f.gap
      rw [hsplit]
      refine reads_itemEnd (S := DeclareAll (line + (blanks ++ text).count '\n') (f :: fs)) hn' ?_
        fun ns => hS n ns hn
      refine reads_items fs trailing depth _ false ?_ hgap f.beginsToken_text (reads_item_function f depth hgap)
        (fun _ h => h.isItem) fun m ns hm hns => .cons ?_ ?_
      · simp only [List.length_cons]
        omega
      · rw [List.count_replicate_self] at hm
        rwa [Nat.add_assoc, Nat.add_comm f.gap, ← Nat.add_assoc]
      · have hline : line + (blanks ++ text).count '\n' + 1 + (List.replicate f.gap '\n' ++ f.text).count '\n' =
            line + (blanks ++ text).count '\n' + f.lines.length := by
          rw [← f.count_newline]
          omega
        rwa [hline] at hns

end

/-! ## Files -/

theorem toList_intercalate_cons (l : String) (ls : List String) :
    (String.intercalate "\n" (l :: ls)).toList = l.toList ++ ls.flatMap fun m => '\n' :: m.toList := by
  induction ls generalizing l with
  | nil => simp
  | cons m ls ih =>
    rw [String.intercalate_cons_cons, String.toList_append, String.toList_append, ih, List.flatMap_cons,
      List.append_assoc]
    rfl

theorem flatMap_replicate (k : Nat) :
    ((List.replicate k "").flatMap fun m => '\n' :: m.toList) = List.replicate k '\n' := by
  induction k with
  | zero => rfl
  | succ k ih =>
    rw [List.replicate_succ, List.flatMap_cons, ih, List.replicate_succ]
    rfl

theorem Function.flatMap_lines (f : Function) :
    (f.lines.flatMap fun m => '\n' :: m.toList) = List.replicate (f.gap + 1) '\n' ++ f.text := by
  rw [Function.lines, List.flatMap_append, List.flatMap_append, flatMap_replicate, Function.text,
    List.replicate_succ']
  simp [bodyText, List.flatMap_map]

theorem File.toList_text (f : File) :
    f.text.toList = "package".toList ++ (" ".toList ++ f.package.text.toList) ++
      (functionsText f.functions ++ List.replicate f.trailing '\n') := by
  have hfunctions : ((f.functions.flatMap Function.lines).flatMap fun m => '\n' :: m.toList) =
      functionsText f.functions := by
    rw [List.flatMap_assoc, functionsText]
    exact congrArg (List.flatMap · f.functions) (funext Function.flatMap_lines)
  rw [File.text, File.lines, List.cons_append, toList_intercalate_cons, List.flatMap_append, hfunctions,
    flatMap_replicate]
  simp

theorem endsWord_functionsText (fs : List Function) (k : Nat) :
    endsWord (functionsText fs ++ List.replicate k '\n') = true := by
  cases fs with
  | nil => cases k <;> rfl
  | cons f fs =>
    rw [functionsText, List.flatMap_cons, List.replicate_succ]
    rfl

theorem length_le_functionsText (fs : List Function) : fs.length ≤ (functionsText fs).length := by
  induction fs with
  | nil => exact Nat.le_refl _
  | cons f fs ih =>
    rw [functionsText, List.flatMap_cons, ← functionsText, List.length_append, List.length_append,
      List.length_replicate, List.length_cons]
    omega

def File.packageText (f : File) : List Char := "package".toList ++ (" ".toList ++ f.package.text.toList)

theorem File.packageText_eq (f : File) :
    f.packageText = "package".toList ++ (" ".toList ++ f.package.text.toList) := rfl

theorem File.count_newline_packageText (f : File) : f.packageText.count '\n' = 0 := by
  simp [File.packageText_eq, Ident.count_newline]

theorem File.length_packageText (f : File) : 7 ≤ f.packageText.length := by
  rw [File.packageText_eq, List.length_append]
  exact Nat.le_add_right 7 _

def IsFile (f : File) (ns : List Node) : Prop :=
  ∃ n ns', ns = n :: ns' ∧ n.kind = .packageClause ∧ DeclareAll 1 f.functions ns'

theorem reads_file (f : File) {limit : Nat} (hlimit : f.text.toList.length ≤ limit) :
    ∃ s t, f.text.toList = s ++ t ∧
      Reads (Grammar.items (Grammar.unrolled (limit + 1)) (limit + 1) true) 1 s t (Lists (IsFile f)) := by
  have hlength := length_le_functionsText f.functions
  have hword := f.length_packageText
  rw [f.toList_text, ← f.packageText_eq] at hlimit ⊢
  simp only [List.length_append] at hlimit
  -- The keyword alone makes the text longer than the levels of grammar that a method needs.
  have hdepth : limit + 1 = limit - 3 + 4 := by omega
  have hreads : Reads (Grammar.items (Grammar.unrolled (limit - 3 + 4)) (limit + 1) true) 1
      ([] ++ f.packageText ++ (functionsText f.functions ++ (List.replicate f.trailing '\n').take 1))
      ((List.replicate f.trailing '\n').drop 1) (Lists (IsFile f)) := by
    refine reads_items f.functions f.trailing (limit - 3) limit true (by omega) rfl
      ⟨List.cons_ne_nil _ _, fun _ => rfl⟩ (reads_packageClause f.package (endsWord_functionsText ..)) ?_ ?_
    · rintro n ⟨hk, hs⟩
      exact ⟨(hs.clean n List.mem_cons_self).2, by rw [hk]; rfl⟩
    · rintro n ns ⟨hk, -⟩ hns
      rw [List.nil_append, f.count_newline_packageText] at hns
      exact ⟨n, ns, rfl, hk, hns⟩
  rw [← hdepth] at hreads
  refine ⟨_, _, ?_, hreads⟩
  rw [List.nil_append, List.append_assoc, List.append_assoc, List.take_append_drop]

/-- The tree of a canonical file has no fault. -/
theorem sourceTree_text (f : File) :
    (sourceTree f.text).firstFault? = none ∧ IsFile f (sourceTree f.text).namedChildren := by
  have hlimit : f.text.toList.length ≤ f.text.length := Nat.le_of_eq String.length_toList
  obtain ⟨s, t, hsplit, hreads⟩ := reads_file f hlimit
  have hat : (Cursor.ofString f.text).At 1 (s ++ t) := ⟨hsplit, rfl, hsplit ▸ hlimit⟩
  have hstart : Grammar.startOf f.text = Cursor.ofString f.text := by
    have hhead : ((Cursor.ofString f.text).rest.head? == some '\uFEFF') = false := by
      have hrest : (Cursor.ofString f.text).rest = f.text.toList := rfl
      rw [hrest, f.toList_text]
      rfl
    rw [Grammar.startOf, hhead, if_neg Bool.false_ne_true]
  obtain ⟨nodes, d, hrun, -, hnodes⟩ := hreads _ hat
  have htree : sourceTree f.text = Node.branch .sourceFile ⟨1, 1⟩ nodes := by
    have hlimit : (Cursor.ofString f.text).limit = f.text.length := rfl
    simp only [sourceTree, hstart, hlimit, hrun]
  rw [htree]
  refine ⟨?_, hnodes.named⟩
  have hfaulty : nodes.any Node.faulty = false := by
    rw [List.any_eq_false]
    exact fun n hn => by simp [hnodes.sound n hn]
  simp [Node.branch, Node.firstFault?, Kind.isFault, hfaulty]

/-! ## Declarations of a file -/

theorem IsDeclaration.declaredNode? {receiver : Option String} {name : String} {line : Nat} {calls : List String}
    {n : Node} (h : IsDeclaration receiver name line calls n) (path : Path) :
    Source.declaredNode? path n = some ⟨.of receiver name path line, n⟩ := by
  obtain ⟨m, hm, rfl⟩ := Option.map_eq_some_iff.1 h.name
  simp [Source.declaredNode?, h.receiver, hm, h.line]

/-- The declarations read from nodes are those that were written, with the same calls. -/
theorem DeclareAll.declared {line : Nat} {fs : List Function} {ns : List Node} (h : DeclareAll line fs ns)
    (path : Path) :
    (ns.filterMap (Source.declaredNode? path)).map (fun d => d.declaration) = File.declarationsAfter path line fs ∧
      (ns.filterMap (Source.declaredNode? path)).map (fun d => (d.declaration.name, d.node.targets)) =
        fs.map fun f => (f.qualified, f.calls) := by
  induction h with
  | nil => exact ⟨rfl, rfl⟩
  | cons head tail ih =>
    have htargets := head.sound.targets
    rw [Node.targetsIn_cons, Node.targetsIn, Node.preorderAll, List.filter_nil, List.filterMap_nil, List.append_nil]
      at htargets
    rw [List.filterMap_cons_some (head.declaredNode? path)]
    simp only [List.map_cons, ih.1, ih.2, htargets]
    exact ⟨rfl, rfl⟩

theorem IsFile.declared {f : File} {ns : List Node} (h : IsFile f ns) (path : Path) :
    (ns.filterMap (Source.declaredNode? path)).map (fun d => d.declaration) = f.declarations path ∧
      (ns.filterMap (Source.declaredNode? path)).map (fun d => (d.declaration.name, d.node.targets)) =
        f.functions.map fun f => (f.qualified, f.calls) := by
  obtain ⟨n, ns, rfl, hk, hns⟩ := h
  have hnone : Source.declaredNode? path n = none := by
    rw [Source.declaredNode?, Node.declaredReceiver?, hk]
    rfl
  rw [List.filterMap_cons_none hnone]
  exact hns.declared path

end CallLineage.Go.Canonical
