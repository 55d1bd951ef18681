import CallLineage.Proofs.Calls
import CallLineage.Proofs.Go.Reading
/-! Sources in canonical form.
A canonical file is a package clause and functions and methods whose bodies have one call in each line. Everything
that it declares and calls can be said from how it was written. -/
namespace CallLineage.Go.Canonical

open Go.Parser

/-! ## Writing -/

def isPlain : List Char → Bool
  | [] => false
  | x :: r => x.isAlpha && r.all fun y => y.isAlphanum || y == '_'

/-- Words that do not stand for themselves where a name may come. -/
def reserved : List String := keywords ++ ["new", "make", "nil", "true", "false", "iota"]

structure Ident where
  text : String
  plain : isPlain text.toList = true
  free : text ∉ reserved

inductive Call
  | plain (function : Ident)
  | selected (operand function : Ident)

structure Line where
  indent : List Char
  blank : indent.all (fun x => x == ' ' || x == '\t') = true
  call : Call

structure Receiver where
  name : Ident
  pointer : Bool
  type : Ident

/-- A function or a method, with the number of empty lines in front of it. -/
structure Function where
  gap : Nat
  receiver : Option Receiver
  name : Ident
  body : List Line

/-- A file, with the number of line ends after its last function. -/
structure File where
  package : Ident
  functions : List Function
  trailing : Nat

def Call.text : Call → String
  | plain f => f.text ++ "()"
  | selected x f => x.text ++ "." ++ f.text ++ "()"

def Call.target : Call → String
  | plain f => f.text
  | selected x f => x.text ++ "." ++ f.text

def Line.text (l : Line) : String := String.ofList l.indent ++ l.call.text

def Receiver.text (r : Receiver) : String :=
  "(" ++ r.name.text ++ (if r.pointer then " *" else " ") ++ r.type.text ++ ")"

namespace Function

def qualified (f : Function) : String := qualifiedName (f.receiver.map fun r => r.type.text) f.name.text

def calls (f : Function) : List String := f.body.map fun l => l.call.target

def head (f : Function) : String :=
  "func " ++ ((f.receiver.map fun r => r.text ++ " ").getD "") ++ f.name.text ++ "() \x7b"

def lines (f : Function) : List String :=
  List.replicate f.gap "" ++ f.head :: f.body.map Line.text ++ ["\x7d"]

end Function

namespace File

def lines (f : File) : List String :=
  ("package " ++ f.package.text) :: f.functions.flatMap Function.lines ++ List.replicate f.trailing ""

def text (f : File) : String := String.intercalate "\n" f.lines

def declarationsAfter (path : Path) : Nat → List Function → List Declaration
  | _, [] => []
  | line, f :: fs =>
    .of (f.receiver.map fun r => r.type.text) f.name.text path (line + f.gap + 1)
      :: declarationsAfter path (line + f.lines.length) fs

/-- What the file declares; the package clause is its first line. -/
def declarations (f : File) (path : Path) : List Declaration := declarationsAfter path 1 f.functions

end File

/-- Two functions with a pointer receiver and two indentations. -/
example : ∃ f : File,
    f.text = "package p\n\nfunc A() \x7b\n\x7d\nfunc (t *T) M() \x7b\n\tA()\n  T.M()\n\x7d\n" ∧
      (f.declarations ⟨"a.go"⟩).map (fun d => (d.name, d.line)) = [("A", 3), ("T.M", 5)] ∧
      f.functions.map Function.calls = [[], ["A", "T.M"]] :=
  ⟨⟨⟨"p", by decide, by decide⟩,
    [⟨1, none, ⟨"A", by decide, by decide⟩, []⟩,
      ⟨0, some ⟨⟨"t", by decide, by decide⟩, true, ⟨"T", by decide, by decide⟩⟩, ⟨"M", by decide, by decide⟩,
        [⟨['\t'], by decide, .plain ⟨"A", by decide, by decide⟩⟩,
          ⟨[' ', ' '], by decide, .selected ⟨"T", by decide, by decide⟩ ⟨"M", by decide, by decide⟩⟩]⟩], 1⟩,
    by decide⟩

/-! ## Names -/

theorem isAlpha_cases {x : Char} (hx : x.isAlpha = true) : 65 ≤ x.toNat ∧ x.toNat < 123 ∧ x.toNat ≠ 96 := by
  delta Char.isAlpha Char.isUpper Char.isLower at hx
  simp only [Bool.or_eq_true, Bool.and_eq_true, decide_eq_true_eq] at hx
  have h : x.toNat = x.val.toNat := rfl
  simp only [ge_iff_le, UInt32.le_iff_toNat_le] at hx
  rw [h]
  simp at hx
  omega

theorem isNameStart_of_isAlpha {x : Char} (hx : x.isAlpha = true) : isNameStart x = true := by
  obtain ⟨-, hlt, -⟩ := isAlpha_cases hx
  rw [isNameStart, if_pos (by omega), hx, Bool.true_or]

theorem isNameChar_of_plain {x : Char} (hx : (x.isAlphanum || x == '_') = true) : isNameChar x = true := by
  rw [Char.isAlphanum, Bool.or_eq_true, Bool.or_eq_true] at hx
  rcases hx with (hx | hx) | hx
  · rw [isNameChar, isNameStart_of_isAlpha hx, Bool.true_or]
  · have hlt : x.toNat < 0x80 := by
      simp only [Char.isDigit, Bool.and_eq_true, decide_eq_true_eq, UInt32.le_iff_toNat_le] at hx
      have hval : x.toNat = x.val.toNat := rfl
      have hnine : '9'.val.toNat = 57 := rfl
      omega
    rw [isNameChar, if_pos hlt, hx, Bool.or_true]
  · rw [beq_iff_eq.1 hx]
    decide

theorem startsWith_of_isAlpha {s : String} {x : Char} {r : List Char}
    (hs : (s.toList.head?.any fun y => !y.isAlpha) = true) (hx : x.isAlpha = true) :
    startsWith s (x :: r) = false := by
  rw [startsWith]
  cases hy : s.toList with
  | nil => simp [hy] at hs
  | cons y t =>
    have hne : y ≠ x := by
      rintro rfl
      simp [hy, hx] at hs
    simp [List.isPrefixOf, hne]

theorem number?_of_isAlpha {x : Char} {r : List Char} (hx : x.isAlpha = true) : Literal.number? (x :: r) = none := by
  have hdigit : x.isDigit = false := by
    obtain ⟨hge, -, -⟩ := isAlpha_cases hx
    rw [Bool.eq_false_iff]
    intro h
    simp only [Char.isDigit, Bool.and_eq_true, decide_eq_true_eq, UInt32.le_iff_toNat_le] at h
    have hval : x.toNat = x.val.toNat := rfl
    have hnine : '9'.val.toNat = 57 := rfl
    omega
  have hzero : x ≠ '0' := by
    rintro rfl
    exact absurd hx (by decide)
  have hpoint : x ≠ '.' := by
    rintro rfl
    exact absurd hx (by decide)
  simp [Literal.number?, Literal.based?, Literal.decimal?, Literal.plainOctal?, Literal.decimalFloat?,
    Literal.hexFloat?, Literal.digits?, Literal.imaginary?, Literal.longest, hdigit, hzero, hpoint]

namespace Ident

theorem exists_cons (i : Ident) : ∃ x r, i.text.toList = x :: r ∧ x.isAlpha = true := by
  have h := i.plain
  cases hi : i.text.toList with
  | nil => simp [hi, isPlain] at h
  | cons x r =>
    rw [hi, isPlain, Bool.and_eq_true] at h
    exact ⟨x, r, rfl, h.1⟩

theorem isWord_text (i : Ident) : isWord i.text = true := by
  have h := i.plain
  rw [isWord]
  cases hi : i.text.toList with
  | nil => simp [hi, isPlain] at h
  | cons x r =>
    rw [hi, isPlain, Bool.and_eq_true, List.all_eq_true] at h
    rw [Bool.and_eq_true, List.all_eq_true]
    exact ⟨isNameStart_of_isAlpha h.1, fun y hy => isNameChar_of_plain (h.2 y hy)⟩

theorem not_keyword (i : Ident) : i.text ∉ keywords := fun h => i.free (List.mem_append_left _ h)

theorem takesType_eq (i : Ident) : Grammar.takesType i.text = false := by
  have h := i.free
  simp only [reserved, List.mem_append, List.mem_cons, not_or] at h
  simp [Grammar.takesType, h.2]

/-- A name begins with a letter. -/
theorem append_ne (i : Ident) {y : Char} (hy : y.isAlpha = false) (rest tail : List Char) :
    i.text.toList ++ rest ≠ y :: tail := by
  obtain ⟨x, r, hi, hx⟩ := i.exists_cons
  rw [hi, List.cons_append]
  rintro ⟨⟩
  exact Bool.false_ne_true (hy.symm.trans hx)

theorem head?_beq (i : Ident) {y : Char} (hy : y.isAlpha = false) (rest : List Char) :
    ((i.text.toList ++ rest).head? == some y) = false := by
  rw [beq_eq_false_iff_ne]
  intro h
  obtain ⟨tail, htail⟩ := List.head?_eq_some_iff.1 h
  exact i.append_ne hy rest tail htail

theorem startsWith_eq (i : Ident) {s : String} (hs : (s.toList.head?.any fun y => !y.isAlpha) = true)
    (rest : List Char) : startsWith s (i.text.toList ++ rest) = false := by
  obtain ⟨x, r, hi, hx⟩ := i.exists_cons
  rw [hi]
  exact startsWith_of_isAlpha hs hx

theorem number?_eq (i : Ident) (rest : List Char) : Literal.number? (i.text.toList ++ rest) = none := by
  obtain ⟨x, r, hi, hx⟩ := i.exists_cons
  rw [hi]
  exact number?_of_isAlpha hx

theorem quoteAhead_eq (i : Ident) (rest : List Char) : Grammar.quoteAhead (i.text.toList ++ rest) = false := by
  obtain ⟨x, r, hi, hx⟩ := i.exists_cons
  obtain ⟨hge, -, hne⟩ := isAlpha_cases hx
  have hquote : x ≠ '"' := by
    rintro rfl
    exact absurd hx (by decide)
  simp [hi, Grammar.quoteAhead, hquote, hne]

theorem dotAhead_eq (i : Ident) (rest : List Char) : Grammar.dotAhead ('.' :: (i.text.toList ++ rest)) = true := by
  obtain ⟨x, r, hi, hx⟩ := i.exists_cons
  have hpoint : '.' ≠ x := by
    rintro rfl
    exact absurd hx (by decide)
  simp [Grammar.dotAhead, startsWith, hi, List.isPrefixOf, hpoint]

theorem predeclaredValue_eq (i : Ident) : Grammar.predeclaredValue i.text = none := by
  have h := i.free
  simp only [reserved, List.mem_append, List.mem_cons, not_or] at h
  simp [Grammar.predeclaredValue, h.2]

end Ident

/-! ## Forests -/

/-- Nodes without faults and comments, and what the calls in them refer to. -/
structure Sound (calls : List String) (f : Forest) : Prop where
  clean : ∀ n ∈ f, n.isComment = false ∧ n.faulty = false
  targets : Node.targetsIn f = calls

theorem targetsIn_append (f f' : Forest) : Node.targetsIn (f ++ f') = Node.targetsIn f ++ Node.targetsIn f' := by
  induction f with
  | nil => rfl
  | cons n f ih => rw [List.cons_append, Node.targetsIn_cons, Node.targetsIn_cons, ih, List.append_assoc]

def isSilent (kind : Kind) : Bool := kind != .callExpression && kind != .comment && !kind.isFault

theorem branch_cons {kind : Kind} {n : Node} {f : Forest} (hn : n.isComment = false) :
    Forest.branch kind (n :: f) = [Node.branch kind n.start (n :: f)] := by
  simp [Forest.branch, hn]

/-- A node that begins with a token begins where that token does. -/
theorem branch_of_leaf {line : Nat} {kind : Kind} {text : String} {left : Forest}
    (h : Forest.IsLeaf line kind text left) (hk : kind ≠ .comment) (k : Kind) (f : Forest) :
    ∃ p : Position, p.line = line ∧ Forest.branch k (left ++ f) = [Node.branch k p (left ++ f)] := by
  obtain ⟨p, hp, rfl⟩ := h
  exact ⟨p, hp, branch_cons (beq_false_of_ne hk)⟩

theorem targets_branch {kind : Kind} (hk : kind ≠ .callExpression) (p : Position) (f : Forest) :
    (Node.branch kind p f).targets = Node.targetsIn f := by
  rw [Node.branch, Node.targets_mk, beq_false_of_ne hk]
  rfl

theorem targets_withField (field : Field) (n : Node) : (n.withField field).targets = n.targets := by
  obtain ⟨k, f, p, t, b, cs⟩ := n
  rw [Node.withField, Node.targets_mk, Node.targets_mk]
  rfl

namespace Sound

theorem nil : Sound [] [] := ⟨nofun, rfl⟩

theorem append {xs ys : List String} {f f' : Forest} (h : Sound xs f) (h' : Sound ys f') :
    Sound (xs ++ ys) (f ++ f') where
  clean n hn := (List.mem_append.1 hn).elim (h.clean n) (h'.clean n)
  targets := by rw [targetsIn_append, h.targets, h'.targets]

theorem any_faulty {xs : List String} {f : Forest} (h : Sound xs f) : f.any Node.faulty = false := by
  rw [List.any_eq_false]
  exact fun n hn => by simp [(h.clean n hn).2]

theorem leaf {line : Nat} {kind : Kind} {text : String} {f : Forest} (hf : Forest.IsLeaf line kind text f)
    (hk : isSilent kind = true) : Sound [] f := by
  obtain ⟨p, -, rfl⟩ := hf
  simp only [isSilent, Bool.and_eq_true, bne_iff_ne, Bool.not_eq_true'] at hk
  refine ⟨?_, ?_⟩
  · rintro _ (_ | ⟨_, ⟨⟩⟩)
    exact ⟨beq_false_of_ne hk.1.2, hk.2⟩
  · rw [Node.targetsIn_cons, Node.leaf, Node.targets_mk, beq_false_of_ne hk.1.1]
    rfl

theorem branch {xs : List String} {f : Forest} {kind : Kind} (h : Sound xs f) (hk : isSilent kind = true) :
    Sound xs (Forest.branch kind f) := by
  cases f with
  | nil => exact h
  | cons n f =>
    simp only [isSilent, Bool.and_eq_true, bne_iff_ne, Bool.not_eq_true'] at hk
    rw [branch_cons (h.clean n List.mem_cons_self).1]
    refine ⟨?_, ?_⟩
    · rintro _ (_ | ⟨_, ⟨⟩⟩)
      exact ⟨beq_false_of_ne hk.1.2, Bool.or_eq_false_iff.2 ⟨hk.2, any_faulty h⟩⟩
    · rw [Node.targetsIn_cons, targets_branch hk.1.1, h.targets]
      exact List.append_nil _

theorem call {name : String} {n : Node} {f : Forest} (h : Sound [] (n :: f))
    (ht : (Node.branch .callExpression n.start (n :: f)).target? = some name) :
    Sound [name] (Forest.branch .callExpression (n :: f)) := by
  rw [branch_cons (h.clean n List.mem_cons_self).1]
  refine ⟨?_, ?_⟩
  · rintro _ (_ | ⟨_, ⟨⟩⟩)
    exact ⟨rfl, any_faulty h⟩
  · rw [Node.targetsIn_cons, Node.branch, Node.targets_mk, h.targets, ← Node.branch, ht]
    rfl

theorem label {xs : List String} {f : Forest} (h : Sound xs f) (field : Field) : Sound xs (Forest.label field f) := by
  have hlabel : Forest.label field f = f.map (Node.withField field) := by
    refine List.map_congr_left fun n hn => ?_
    rw [(h.clean n hn).1]
    rfl
  rw [hlabel]
  refine ⟨?_, ?_⟩
  · intro m hm
    obtain ⟨⟨k, f', p, t, b, cs⟩, hn, rfl⟩ := List.mem_map.1 hm
    exact h.clean (.mk k f' p t b cs) hn
  · have htargets : ∀ f : Forest, Node.targetsIn (f.map (Node.withField field)) = Node.targetsIn f := by
      intro f
      induction f with
      | nil => rfl
      | cons n f ih => rw [List.map_cons, Node.targetsIn_cons, Node.targetsIn_cons, targets_withField, ih]
    rw [htargets, h.targets]

end Sound

end CallLineage.Go.Canonical
