import CallLineage.Go.Grammar.Basic
/-! What a reader takes from a text that is known.
`Parser.Reads` says that a reader takes exactly one part of a text, whatever the place of that part; its rules follow
the combinators, so the reading of a whole text is put together from the readings of its tokens. Blanks belong to the
token behind them, because readers pass over them first. -/
namespace CallLineage.Go

namespace Cursor

/-- The cursor stands in the given line, before the given text. -/
structure At (c : Cursor) (line : Nat) (text : List Char) : Prop where
  rest : c.rest = text
  line : c.position.line = line
  bound : text.length ≤ c.limit

theorem At.next {c : Cursor} {line : Nat} {x : Char} {text : List Char} (h : c.At line (x :: text)) :
    c.next.At (line + [x].count '\n') text := by
  obtain ⟨hrest, hline, hbound⟩ := h
  have hnext : c.next = ⟨text, c.position.after x, c.offset + x.utf8Size, c.limit⟩ := by rw [Cursor.next, hrest]
  rw [hnext]
  refine ⟨rfl, ?_, Nat.le_of_succ_le hbound⟩
  by_cases hx : x = '\n' <;> simp [Position.after, hx, hline]

theorem At.skip {c : Cursor} {line : Nat} {text rest : List Char} (h : c.At line (text ++ rest)) :
    (c.skip text.length).At (line + text.count '\n') rest := by
  induction text generalizing c line with
  | nil => exact h
  | cons x text ih =>
    have hstep := ih (At.next h)
    rw [Nat.add_assoc, ← List.count_append] at hstep
    exact hstep

/-- The characters that are passed over; with `lines` those are all blanks, and else line ends are tokens. -/
def isTrivial (lines : Bool) (x : Char) : Bool := isBlank x && (lines || x != '\n')

def beginsToken (lines : Bool) : List Char → Bool
  | [] => true
  | x :: _ => !isTrivial lines x && x != '/'

theorem comment?_of_ne {x : Char} (hx : x ≠ '/') (r : List Char) : comment? (x :: r) = none := by
  rw [comment?]
  · rintro _ ⟨⟩
    exact hx rfl
  · rintro _ ⟨⟩
    exact hx rfl

theorem trivia_of_trivial {lines : Bool} {c : Cursor} {x : Char} {r : List Char} (h : c.rest = x :: r)
    (hx : isTrivial lines x = true) : c.trivia lines = c.next.trivia lines := by
  rw [trivia, trivia, Cursor.next, h, skipTrivia]
  exact if_pos hx

theorem trivia_of_beginsToken {lines : Bool} {c : Cursor} (h : beginsToken lines c.rest = true) :
    c.trivia lines = ([], c) := by
  obtain ⟨rest, p, o, limit⟩ := c
  cases rest with
  | nil => rfl
  | cons x r =>
    simp only [beginsToken, Bool.and_eq_true, Bool.not_eq_true', bne_iff_ne] at h
    have hx : ¬(isBlank x && (lines || x != '\n')) = true := by
      rw [← isTrivial, h.1]
      exact Bool.false_ne_true
    rw [trivia, skipTrivia, if_neg hx, comment?_of_ne h.2]

/-- Behind the blanks at the head of a text, the next token begins another one. -/
inductive Sees (lines : Bool) : List Char → List Char → Prop
  | here {text : List Char} (h : beginsToken lines text = true) : Sees lines text text
  | blank {x : Char} {text ahead : List Char} (hx : isTrivial lines x = true) (h : Sees lines text ahead) :
      Sees lines (x :: text) ahead

theorem Sees.blanks {lines : Bool} {blanks text ahead : List Char} (hb : blanks.all (isTrivial lines) = true)
    (h : Sees lines text ahead) : Sees lines (blanks ++ text) ahead := by
  induction blanks with
  | nil => exact h
  | cons x blanks ih =>
    rw [List.all_cons, Bool.and_eq_true] at hb
    exact .blank hb.1 (ih hb.2)

theorem Sees.token {lines : Bool} {blanks token rest : List Char} (hb : blanks.all (isTrivial lines) = true)
    (ht : beginsToken lines (token ++ rest) = true) : Sees lines (blanks ++ token ++ rest) (token ++ rest) := by
  rw [List.append_assoc]
  exact .blanks hb (.here ht)

theorem At.ahead {c : Cursor} {line : Nat} {lines : Bool} {text ahead : List Char} (hc : c.At line text)
    (h : Sees lines text ahead) : c.ahead lines = ahead := by
  induction h generalizing c line with
  | here h =>
    rw [Cursor.ahead, trivia_of_beginsToken (hc.rest ▸ h)]
    exact hc.rest
  | blank hx h ih =>
    rw [Cursor.ahead, trivia_of_trivial hc.rest hx]
    exact ih (At.next hc)

/-- Blanks are passed over. -/
theorem At.trivia {c : Cursor} {line : Nat} {lines : Bool} {blanks text : List Char}
    (h : c.At line (blanks ++ text)) (hb : blanks.all (isTrivial lines) = true) (ht : beginsToken lines text = true) :
    c.trivia lines = ([], c.skip blanks.length) := by
  induction blanks generalizing c line with
  | nil => exact trivia_of_beginsToken (h.rest ▸ ht)
  | cons x blanks ih =>
    rw [List.all_cons, Bool.and_eq_true] at hb
    rw [trivia_of_trivial h.rest hb.1, ih (At.next h) hb.2]
    rfl

end Cursor

def Forest.IsLeaf (line : Nat) (kind : Kind) (text : String) (f : Forest) : Prop :=
  ∃ p : Position, p.line = line ∧ f = [Node.leaf kind p text]

namespace Parser

variable {α β : Type}

@[simp] theorem pure_bind_eq (a : α) (f : α → Parser β) : (pure a >>= f) = f a := rfl

/-- In the given line and before `text ++ rest`, the reader takes `text` and answers something that `Q` holds of. -/
def Reads (p : Parser α) (line : Nat) (text rest : List Char) (Q : α → Prop) : Prop :=
  ∀ c : Cursor, c.At line (text ++ rest) →
    ∃ a d, p.run c = .ok (a, d) ∧ d.At (line + text.count '\n') rest ∧ Q a

namespace Reads

variable {line : Nat} {text rest : List Char} {Q R : α → Prop}

theorem pure {a : α} (h : Q a) : Reads (pure a) line [] rest Q :=
  fun c hc => ⟨a, c, rfl, hc, h⟩

theorem mono {p : Parser α} (h : Reads p line text rest Q) (hQ : ∀ a, Q a → R a) : Reads p line text rest R := by
  intro c hc
  obtain ⟨a, d, hrun, hd, ha⟩ := h c hc
  exact ⟨a, d, hrun, hd, hQ a ha⟩

theorem bind {p : Parser β} {q : β → Parser α} {P : β → Prop} {s t : List Char}
    (hp : Reads p line s (t ++ rest) P) (hq : ∀ b, P b → Reads (q b) (line + s.count '\n') t rest Q) :
    Reads (p >>= q) line (s ++ t) rest Q := by
  intro c hc
  obtain ⟨b, d, hrun, hd, hb⟩ := hp c (List.append_assoc .. ▸ hc)
  obtain ⟨a, e, hrun', he, ha⟩ := hq b hb d hd
  refine ⟨a, e, ?_, ?_, ha⟩
  · simp only [Bind.bind, hrun, hrun']
  · rwa [List.count_append, ← Nat.add_assoc]

/-- What is read last. -/
theorem andThen {p : Parser β} {q : β → Parser α} {P : β → Prop}
    (hp : Reads p line text rest P) (hq : ∀ b, P b → Reads (q b) (line + text.count '\n') [] rest Q) :
    Reads (p >>= q) line text rest Q := by
  have h := bind (t := []) hp hq
  rwa [List.append_nil] at h

/-- A look at the cursor does not move it. -/
theorem inspect {f : Cursor → β} {q : β → Parser α} {P : β → Prop}
    (hP : ∀ c : Cursor, c.At line (text ++ rest) → P (f c)) (hq : ∀ b, P b → Reads (q b) line text rest Q) :
    Reads (inspect f >>= q) line text rest Q :=
  fun c hc => hq (f c) (hP c hc) c hc

theorem look {f : Cursor → β} {q : β → Parser α} (b : β)
    (hb : ∀ c : Cursor, c.At line (text ++ rest) → f c = b) (hq : Reads (q b) line text rest Q) :
    Reads (Parser.inspect f >>= q) line text rest Q :=
  inspect (P := (· = b)) hb fun _ h => h ▸ hq

theorem either {p q : Parser α} (h : Reads p line text rest Q) : Reads (either p q) line text rest Q := by
  intro c hc
  obtain ⟨a, d, hrun, hd, ha⟩ := h c hc
  exact ⟨a, d, by simp only [Parser.either, hrun], hd, ha⟩

/-- The limit is no less than the length of what is read. -/
theorem limit {q : Nat → Parser α} (h : ∀ n, text.length ≤ n → Reads (q n) line text rest Q) :
    Reads (Parser.inspect Cursor.limit >>= q) line text rest Q :=
  inspect (fun _ hc => Nat.le_trans (List.length_append ▸ Nat.le_add_right _ _) hc.bound) h

theorem many {step : Parser (Option Forest)} {Q : Forest → Prop}
    (h : ∀ fuel, text.length ≤ fuel → Reads (loop step (fuel + 1)) line text rest Q) :
    Reads (many step) line text rest Q :=
  limit h

theorem loop_end {step : Parser (Option Forest)} {fuel : Nat} (h : Reads step line [] rest (· = none)) :
    Reads (loop step (fuel + 1)) line [] rest (· = []) := by
  refine andThen h ?_
  rintro _ rfl
  exact pure rfl

theorem loop_step {step : Parser (Option Forest)} {fuel : Nat} {P Q R : Forest → Prop} {s t : List Char}
    (h : Reads step line s (t ++ rest) fun o => ∃ f, o = some f ∧ P f)
    (hloop : Reads (loop step fuel) (line + s.count '\n') t rest Q) (hR : ∀ f f', P f → Q f' → R (f ++ f')) :
    Reads (loop step (fuel + 1)) line (s ++ t) rest R := by
  refine bind h ?_
  rintro _ ⟨f, rfl, hf⟩
  exact andThen hloop fun f' hf' => pure (hR f f' hf hf')

/-! ### Looking at the next token -/

variable {next : List Char} {lines : Bool} {q : Bool → Parser α}

theorem ahead {q : List Char → Parser α} (hs : Cursor.Sees lines (text ++ rest) next)
    (h : Reads (q next) line text rest Q) : Reads (ahead lines >>= q) line text rest Q :=
  look next (fun _ hc => hc.ahead hs) h

theorem at? {s : String} (b : Bool) (hs : Cursor.Sees lines (text ++ rest) next) (hb : startsWith s next = b)
    (h : Reads (q b) line text rest Q) : Reads (at? s lines >>= q) line text rest Q :=
  look (f := fun c => startsWith s (c.ahead lines)) b (fun _ hc => hc.ahead hs ▸ hb) h

theorem atTerminator? (b : Bool) (hs : Cursor.Sees false (text ++ rest) next) (hb : isTerminator next = b)
    (h : Reads (q b) line text rest Q) : Reads (atTerminator? >>= q) line text rest Q :=
  look (f := fun c => isTerminator (c.ahead false)) b (fun _ hc => hc.ahead hs ▸ hb) h

/-! ### Tokens -/

theorem take (blanks : List Char) {kind : Kind} {s : String} (hb : blanks.all (Cursor.isTrivial lines) = true)
    (ht : Cursor.beginsToken lines (s.toList ++ rest) = true) :
    Reads (take kind s.length lines) line (blanks ++ s.toList) rest
      (Forest.IsLeaf (line + blanks.count '\n') kind s) := by
  intro c hc
  rw [List.append_assoc] at hc
  have htrivia := hc.trivia hb ht
  have hd := hc.skip
  refine ⟨_, _, rfl, ?_, (c.trivia lines).2.position, ?_, ?_⟩
  · rw [htrivia, ← String.length_toList, List.count_append, ← Nat.add_assoc]
    exact hd.skip
  · rw [htrivia]
    exact hd.line
  · simp only [htrivia, List.nil_append, hd.rest, ← String.length_toList, List.take_left, String.ofList_toList]

theorem symbol (blanks : List Char) {s : String} (hb : blanks.all (Cursor.isTrivial lines) = true)
    (ht : Cursor.beginsToken lines (s.toList ++ rest) = true) :
    Reads (symbol s lines) line (blanks ++ s.toList) rest (Forest.IsLeaf (line + blanks.count '\n') .token s) := by
  refine ahead (.token hb ht) ?_
  have hs : startsWith s (s.toList ++ rest) = true := List.isPrefixOf_iff_prefix.2 (List.prefix_append ..)
  rw [if_pos hs]
  exact take blanks hb ht

end Reads

def Refuses (p : Parser α) (line : Nat) (text : List Char) : Prop :=
  ∀ c : Cursor, c.At line text → ∃ e, p.run c = .error e

namespace Refuses

variable {line : Nat} {text : List Char}

theorem symbol {s : String} {lines : Bool} {next : List Char} (hs : Cursor.Sees lines text next)
    (hn : startsWith s next = false) : Refuses (symbol s lines) line text := by
  intro c hc
  have hahead := hc.ahead hs
  refine ⟨(c.trivia true).2.position, ?_⟩
  simp only [Parser.symbol, Bind.bind, Parser.ahead, inspect, hahead, hn, Bool.false_eq_true, if_false, refuse]

theorem bind {p : Parser β} {q : β → Parser α} (h : Refuses p line text) : Refuses (p >>= q) line text := by
  intro c hc
  obtain ⟨e, he⟩ := h c hc
  exact ⟨e, by simp only [Bind.bind, he]⟩

/-- The second reader fails after what the first one took. -/
theorem andThen {p : Parser β} {q : β → Parser α} {P : β → Prop} {s t : List Char} (hp : Reads p line s t P)
    (hq : ∀ b, P b → Refuses (q b) (line + s.count '\n') t) : Refuses (p >>= q) line (s ++ t) := by
  intro c hc
  obtain ⟨b, d, hrun, hd, hb⟩ := hp c hc
  obtain ⟨e, he⟩ := hq b hb d hd
  exact ⟨e, by simp only [Bind.bind, hrun, he]⟩

end Refuses

namespace Reads

variable {line : Nat} {text rest : List Char} {Q : α → Prop} {p : Parser Bool} {q : Bool → Parser α}

theorem foresees {b : Bool} {s t : List Char} (htext : text ++ rest = s ++ t) (hp : Reads p line s t (· = b))
    (h : Reads (q b) line text rest Q) : Reads (foresees p >>= q) line text rest Q := by
  refine look b (fun c hc => ?_) h
  rw [htext] at hc
  obtain ⟨a, d, hrun, -, rfl⟩ := hp c hc
  simp only [hrun]

theorem foresees_of_refuses (hp : Refuses p line (text ++ rest)) (h : Reads (q false) line text rest Q) :
    Reads (Parser.foresees p >>= q) line text rest Q := by
  refine look false (fun c hc => ?_) h
  obtain ⟨e, he⟩ := hp c hc
  simp only [he]

end Reads

end Parser

/-! ## Words -/

/-- A name or a keyword: it begins as names do, and goes on as they do. -/
def isWord (w : String) : Bool :=
  match w.toList with
  | [] => false
  | x :: r => isNameStart x && r.all isNameChar

def endsWord : List Char → Bool
  | [] => true
  | x :: _ => !isNameChar x

theorem wordOf_append {w : String} {rest : List Char} (hw : isWord w = true) (hr : endsWord rest = true) :
    wordOf (w.toList ++ rest) = w := by
  rw [isWord] at hw
  split at hw
  · cases hw
  · rename_i x r hx
    rw [Bool.and_eq_true] at hw
    have htake : (r ++ rest).takeWhile isNameChar = r := by
      rw [List.takeWhile_append_of_pos (List.all_eq_true.1 hw.2)]
      cases rest with
      | nil => simp
      | cons y rest =>
        have hy : isNameChar y = false := by simpa [endsWord] using hr
        simp [hy]
    rw [hx, List.cons_append, wordOf, if_pos hw.1, htake, ← hx, String.ofList_toList]

theorem nameAhead_append {w : String} {rest : List Char} (hw : isWord w = true) (hk : w ∉ keywords)
    (hr : endsWord rest = true) : nameAhead (w.toList ++ rest) = true := by
  have hempty : w ≠ "" := by
    rintro rfl
    exact absurd hw (by decide)
  simp [nameAhead, wordOf_append hw hr, hempty, hk]

theorem beginsToken_of_isWord {w : String} {rest : List Char} {lines : Bool} (hw : isWord w = true) :
    Cursor.beginsToken lines (w.toList ++ rest) = true := by
  rw [isWord] at hw
  split at hw
  · cases hw
  · rename_i x r hx
    rw [Bool.and_eq_true] at hw
    have hblank : Cursor.isBlank x = false := by
      rw [Bool.eq_false_iff]
      intro hb
      simp only [Cursor.isBlank, Bool.or_eq_true, beq_iff_eq] at hb
      rcases hb with ((((rfl | rfl) | rfl) | rfl) | rfl) | rfl <;> exact absurd hw.1 (by decide)
    have hslash : x ≠ '/' := by
      rintro rfl
      exact absurd hw.1 (by decide)
    simp [hx, Cursor.beginsToken, Cursor.isTrivial, hblank, hslash]

namespace Parser.Reads

variable {line : Nat} {rest : List Char} {w : String}

theorem keyword (blanks : List Char) (hw : isWord w = true) (hb : blanks.all (Cursor.isTrivial true) = true)
    (hr : endsWord rest = true) :
    Reads (keyword w) line (blanks ++ w.toList) rest (Forest.IsLeaf (line + blanks.count '\n') .token w) := by
  refine ahead (.token hb (beginsToken_of_isWord hw)) ?_
  rw [wordOf_append hw hr, beq_self_eq_true, if_pos rfl]
  exact take blanks hb (beginsToken_of_isWord hw)

theorem name (blanks : List Char) {kind : Kind} (hw : isWord w = true) (hk : w ∉ keywords)
    (hb : blanks.all (Cursor.isTrivial true) = true) (hr : endsWord rest = true) :
    Reads (name kind) line (blanks ++ w.toList) rest (Forest.IsLeaf (line + blanks.count '\n') kind w) := by
  refine ahead (.token hb (beginsToken_of_isWord hw)) ?_
  rw [if_pos (nameAhead_append hw hk hr), wordOf_append hw hr]
  exact take blanks hb (beginsToken_of_isWord hw)

end Parser.Reads

end CallLineage.Go
