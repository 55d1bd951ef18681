import CallLineage.Go.Resolution
/-! The declarations of a file stand in the order of their lines.
No rule of the grammar moves back, and a declaration begins at the keyword that its rule reads first; no other rule of
the top level gives a node that counts as a declaration. -/
namespace CallLineage.Go

namespace Cursor

theorem line_le_next (c : Cursor) : c.position.line ≤ c.next.position.line := by
  rw [next]
  split
  · exact Nat.le_refl _
  · simp only [Position.after]
    split
    · exact Nat.le_succ _
    · exact Nat.le_refl _

theorem Reaches.line_le {c d : Cursor} (h : c.Reaches d) : c.position.line ≤ d.position.line := by
  obtain ⟨n, rfl⟩ := h
  induction n generalizing c with
  | zero => exact Nat.le_refl _
  | succ n ih => exact Nat.le_trans c.line_le_next ih

theorem isComment_of_mem_skipTrivia {lines : Bool} {limit n : Nat} {rest : List Char} {p : Position}
    {o : Nat} {x : Node} (h : x ∈ (skipTrivia lines limit n rest p o).1) : x.isComment = true := by
  induction rest generalizing n p o with
  | nil => cases n <;> cases h
  | cons y rest ih =>
    cases n with
    | succ n => exact ih h
    | zero =>
      rw [skipTrivia] at h
      split at h
      · exact ih h
      · split at h
        · cases h
        · rcases List.mem_cons.1 h with rfl | h
          · rfl
          · exact ih h

end Cursor

namespace Parser

variable {α β : Type}

theorem bind_eq_ok {p : Parser α} {q : α → Parser β} {c e : Cursor} {b : β} :
    (p >>= q).run c = .ok (b, e) ↔ ∃ a d, p.run c = .ok (a, d) ∧ (q a).run d = .ok (b, e) := by
  simp only [bind]
  constructor
  · intro h
    split at h
    · rename_i a d hp
      exact ⟨a, d, hp, h⟩
    · cases h
  · rintro ⟨a, d, hp, hq⟩
    rw [hp]
    exact hq

theorem inspect_eq_ok {f : Cursor → α} {c d : Cursor} {a : α} :
    (inspect f).run c = .ok (a, d) ↔ f c = a ∧ c = d := by
  simp [inspect]

@[simp] theorem run_at? (s : String) (lines : Bool) (c : Cursor) :
    (at? s lines).run c = .ok (startsWith s (c.ahead lines), c) := rfl

@[simp] theorem run_atTerminator? (c : Cursor) :
    atTerminator?.run c = .ok (isTerminator (c.ahead false), c) := rfl

theorem either_eq_ok {p q : Parser α} {c : Cursor} {r : α × Cursor} (h : (either p q).run c = .ok r) :
    p.run c = .ok r ∨ q.run c = .ok r := by
  simp only [either] at h
  split at h
  · rename_i hp
    exact .inl (hp.trans h)
  · split at h
    · rename_i hq
      exact .inr (hq.trans h)
    · cases h

/-- Everything that a reader may answer has the property. -/
structure Yields (p : Parser α) (P : α → Prop) : Prop where
  of_run : ∀ {c d : Cursor} {a : α}, p.run c = .ok (a, d) → P a

namespace Yields

variable {P : α → Prop}

theorem pure {a : α} (h : P a) : Yields (pure a) P where
  of_run := by
    rintro c _ _ ⟨⟩
    exact h

theorem bind {p : Parser β} {q : β → Parser α} (h : ∀ b, Yields (q b) P) : Yields (p >>= q) P where
  of_run hrun := by
    obtain ⟨b, e, -, hq⟩ := bind_eq_ok.1 hrun
    exact (h b).of_run hq

/-- The answer of the first reader matters for the second one. -/
theorem andThen {p : Parser β} {Q : β → Prop} {q : β → Parser α} (hp : Yields p Q)
    (h : ∀ b, Q b → Yields (q b) P) : Yields (p >>= q) P where
  of_run hrun := by
    obtain ⟨b, e, hb, hq⟩ := bind_eq_ok.1 hrun
    exact (h b (hp.of_run hb)).of_run hq

theorem ite {p : Prop} [Decidable p] {q r : Parser α} (hq : Yields q P) (hr : Yields r P) :
    Yields (if p then q else r) P := by
  split
  · exact hq
  · exact hr

theorem refuse : Yields (refuse : Parser α) P := ⟨nofun⟩

theorem refuse_bind {q : β → Parser α} : Yields (Parser.refuse >>= q) P :=
  andThen (Q := fun _ => False) refuse nofun

theorem failAt {p : Position} : Yields (failAt p) P := ⟨nofun⟩

theorem inspect {f : Cursor → α} (h : ∀ c, P (f c)) : Yields (inspect f) P where
  of_run := by
    rintro c _ _ ⟨⟩
    exact h c

theorem optional {p : Parser α} (h : Yields p P) : Yields (optional p) fun o => ∀ a ∈ o, P a where
  of_run := by
    intro c d o hrun
    simp only [Parser.optional] at hrun
    split at hrun
    · rename_i a e hp
      cases hrun
      rintro _ ⟨⟩
      exact h.of_run hp
    · cases hrun
      rintro _ ⟨⟩

theorem fallback {p : Parser (Option α)} {q : Parser α} (hp : Yields p fun o => ∀ a ∈ o, P a) (hq : Yields q P) :
    Yields (fallback p q) P where
  of_run := by
    intro c d a hrun
    simp only [Parser.fallback] at hrun
    split at hrun
    · rename_i b e hb
      cases hrun
      exact hp.of_run hb a rfl
    · exact hq.of_run hrun
    · cases hrun

/-- A statement is read with one of the two readings of its head. -/
theorem headed {head : Bool → Parser β} {body : β → Parser Forest} {P : Forest → Prop} {Q : β → Prop}
    (hhead : ∀ literal, Yields (head literal) Q) (hbody : ∀ b, Q b → Yields (body b) P) :
    Yields (Grammar.headed head body) P where
  of_run hrun := by
    obtain ⟨literal, hrun⟩ := Grammar.exists_of_readHeaded hrun
    exact (andThen (hhead literal) hbody).of_run hrun

theorem either {p q : Parser α} (hp : Yields p P) (hq : Yields q P) : Yields (either p q) P where
  of_run hrun := (either_eq_ok hrun).elim hp.of_run hq.of_run

theorem mono {p : Parser α} {Q : α → Prop} (h : Yields p P) (hPQ : ∀ a, P a → Q a) : Yields p Q where
  of_run hrun := hPQ _ (h.of_run hrun)

end Yields

end Parser

namespace Node

def isDeclaration (n : Node) : Bool := n.kind == .functionDeclaration || n.kind == .methodDeclaration

end Node

namespace Forest

theorem mem_branch {k : Kind} {f : Forest} {n : Node} (h : n ∈ Forest.branch k f) :
    n.isComment = true ∨ n.kind = k := by
  have hcomment := List.all_eq_true.1 (List.all_takeWhile (p := Node.isComment) (l := f))
  rw [branch] at h
  split at h
  · exact .inl (hcomment n h)
  · rcases List.mem_append.1 h with h | h
    · exact .inl (hcomment n h)
    · rw [List.mem_singleton.1 h]
      exact .inr rfl

theorem branch_of_comments {k : Kind} {comments rest : Forest} {n : Node}
    (hc : ∀ m ∈ comments, m.isComment = true) (hn : n.isComment = false) :
    Forest.branch k (comments ++ n :: rest) = comments ++ [Node.branch k n.start (n :: rest)] := by
  have htake : (comments ++ n :: rest).takeWhile Node.isComment = comments := by
    rw [List.takeWhile_append_of_pos hc, List.takeWhile_cons_of_neg (by simp [hn]), List.append_nil]
  have hdrop : (comments ++ n :: rest).dropWhile Node.isComment = n :: rest := by
    rw [List.dropWhile_append_of_pos hc, List.dropWhile_cons_of_neg (by simp [hn])]
  rw [branch, htake, hdrop]

def Bare (f : Forest) : Prop := ∀ n ∈ f, n.isDeclaration = false

theorem bare_of_comments {f : Forest} (h : ∀ n ∈ f, n.isComment = true) : Bare f := by
  intro n hn
  have hk : n.kind = .comment := by simpa [Node.isComment] using h n hn
  simp [Node.isDeclaration, hk]

theorem bare_branch {k : Kind} (f : Forest) (hf : k ≠ .functionDeclaration) (hm : k ≠ .methodDeclaration) :
    Bare (Forest.branch k f) := by
  intro n hn
  rcases mem_branch hn with hc | rfl
  · exact bare_of_comments (f := [n]) (by simpa using hc) n (by simp)
  · simp [Node.isDeclaration, hf, hm]

/-- The declarations of the forest stand in the order of their lines, which lie between the bounds. -/
structure Between (lo : Nat) (f : Forest) (hi : Nat) : Prop where
  le : lo ≤ hi
  sorted : (f.filter Node.isDeclaration).Pairwise fun m n => m.start.line ≤ n.start.line
  bounds : ∀ n ∈ f, n.isDeclaration = true → lo ≤ n.start.line ∧ n.start.line ≤ hi

theorem Bare.between {f : Forest} (h : Bare f) {lo hi : Nat} (hle : lo ≤ hi) : Between lo f hi where
  le := hle
  sorted := by
    rw [List.filter_eq_nil_iff.2 fun n hn => by simp [h n hn]]
    exact .nil
  bounds n hn hd := by
    rw [h n hn] at hd
    cases hd

theorem between_singleton {n : Node} {lo hi : Nat} (h₁ : lo ≤ n.start.line) (h₂ : n.start.line ≤ hi) :
    Between lo [n] hi where
  le := Nat.le_trans h₁ h₂
  sorted := ((List.pairwise_singleton _ n).filter _)
  bounds m hm _ := by
    rw [List.mem_singleton.1 hm]
    exact ⟨h₁, h₂⟩

theorem Between.append {f g : Forest} {lo mid hi : Nat} (hf : Between lo f mid) (hg : Between mid g hi) :
    Between lo (f ++ g) hi where
  le := Nat.le_trans hf.le hg.le
  sorted := by
    rw [List.filter_append, List.pairwise_append]
    refine ⟨hf.sorted, hg.sorted, fun m hm n hn => ?_⟩
    have hm := List.mem_filter.1 hm
    have hn := List.mem_filter.1 hn
    exact Nat.le_trans (hf.bounds m hm.1 hm.2).2 (hg.bounds n hn.1 hn.2).1
  bounds n hn hd := by
    rcases List.mem_append.1 hn with hn | hn
    · have h := hf.bounds n hn hd
      exact ⟨h.1, Nat.le_trans h.2 hg.le⟩
    · have h := hg.bounds n hn hd
      exact ⟨Nat.le_trans hf.le h.1, h.2⟩

end Forest

namespace Grammar

open Go.Parser

variable (g : Grammar)

/-! ## Statements declare nothing -/

theorem bare_block : Yields (block g) Forest.Bare :=
  .bind fun _ => .bind fun _ => .bind fun _ => .pure (Forest.bare_branch _ nofun nofun)

theorem bare_take {k : Kind} (n : Nat) (lines : Bool) (hf : k ≠ .functionDeclaration) (hm : k ≠ .methodDeclaration) :
    Yields (take k n lines) Forest.Bare where
  of_run := by
    rintro c _ _ ⟨⟩ n hn
    rcases List.mem_append.1 hn with hn | hn
    · exact Forest.bare_of_comments (fun _ h => Cursor.isComment_of_mem_skipTrivia h) n hn
    · rw [List.mem_singleton.1 hn]
      simp [Node.isDeclaration, Node.leaf, Node.kind, hf, hm]

theorem bare_constDeclaration : Yields (constDeclaration g) Forest.Bare :=
  .bind fun _ => .bind fun _ => .pure (Forest.bare_branch _ nofun nofun)

theorem bare_varDeclaration : Yields (varDeclaration g) Forest.Bare :=
  .bind fun _ => .bind fun _ => .pure (Forest.bare_branch _ nofun nofun)

theorem bare_typeDeclaration : Yields (typeDeclaration g) Forest.Bare := by
  refine .bind fun _ => .bind fun _ => .ite (.bind fun _ => .bind fun _ => .bind fun _ => ?_) (.bind fun _ => ?_)
  · exact .pure (Forest.bare_branch _ nofun nofun)
  · exact .pure (Forest.bare_branch _ nofun nofun)

theorem bare_returnStatement : Yields (returnStatement g) Forest.Bare := by
  refine .bind fun _ => .bind fun _ => .ite (.bind fun _ => ?_) ?_
  · exact .pure (Forest.bare_branch _ nofun nofun)
  · exact .pure (Forest.bare_branch _ nofun nofun)

theorem bare_keywordStatement {k : Kind} (w : String) (hf : k ≠ .functionDeclaration)
    (hm : k ≠ .methodDeclaration) : Yields (keywordStatement g k w) Forest.Bare :=
  .bind fun _ => .bind fun _ => .pure (Forest.bare_branch _ hf hm)

theorem bare_jumpStatement {k : Kind} (w : String) (hf : k ≠ .functionDeclaration)
    (hm : k ≠ .methodDeclaration) : Yields (jumpStatement k w) Forest.Bare :=
  .bind fun _ => .bind fun _ => .ite (.bind fun _ => .pure (Forest.bare_branch _ hf hm))
    (.pure (Forest.bare_branch _ hf hm))

theorem bare_gotoStatement : Yields gotoStatement Forest.Bare :=
  .bind fun _ => .bind fun _ => .pure (Forest.bare_branch _ nofun nofun)

theorem bare_labeledStatement : Yields (labeledStatement g) Forest.Bare :=
  .bind fun _ => .bind fun _ => .bind fun _ => .pure (Forest.bare_branch _ nofun nofun)

theorem bare_selectStatement : Yields (selectStatement g) Forest.Bare :=
  .bind fun _ => .bind fun _ => .pure (Forest.bare_branch _ nofun nofun)

theorem bare_headed {α : Type} {head : Bool → Parser α} {body : α → Parser Forest}
    (h : ∀ a, Yields (body a) Forest.Bare) : Yields (headed head body) Forest.Bare :=
  .headed (Q := fun _ => True) (fun _ => ⟨fun _ => trivial⟩) fun a _ => h a

theorem bare_ifStatement : Yields (ifStatement g) Forest.Bare :=
  bare_headed fun _ => .bind fun _ => .bind fun _ => .pure (Forest.bare_branch _ nofun nofun)

theorem bare_forStatement : Yields (forStatement g) Forest.Bare :=
  bare_headed fun _ => .bind fun _ => .pure (Forest.bare_branch _ nofun nofun)

theorem bare_switchStatement : Yields (switchStatement g) Forest.Bare := by
  refine bare_headed fun _ => .ite (.bind fun _ => ?_) (.bind fun _ => ?_)
  · exact .pure (Forest.bare_branch _ nofun nofun)
  · exact .pure (Forest.bare_branch _ nofun nofun)

theorem bare_simpleTail (lead right : Follow) (several : Bool) (left : Forest) :
    Yields (simpleTail g lead right several left) fun s => Forest.Bare (wrapSimple s) := by
  have hother : ∀ {k : Kind} {shape : SimpleShape} (f : Forest), shape ≠ .expression →
      k ≠ .functionDeclaration → k ≠ .methodDeclaration →
      Yields (Pure.pure (shape, Forest.branch k f)) fun s => Forest.Bare (wrapSimple s) := by
    intro k shape f hs hf hm
    refine .pure ?_
    rw [wrapSimple, if_neg hs]
    exact Forest.bare_branch f hf hm
  refine .bind fun text => .ite (.bind fun _ => .bind fun _ => hother _ nofun nofun nofun) ?_
  refine .ite (.bind fun _ => hother _ nofun nofun nofun) (.ite (.bind fun _ => hother _ nofun nofun nofun) ?_)
  split
  · refine .bind fun _ => .bind fun _ => .ite ?_ ?_
    · exact hother _ nofun nofun nofun
    · exact hother _ nofun nofun nofun
  · refine .ite .refuse (.pure ?_)
    exact Forest.bare_branch _ nofun nofun

theorem bare_statement : Yields (statement g) Forest.Bare := by
  refine .bind fun text => ?_
  split
  · exact bare_block g
  · exact bare_take 1 _ nofun nofun
  · split
    · exact bare_constDeclaration g
    · exact bare_varDeclaration g
    · exact bare_typeDeclaration g
    · exact bare_returnStatement g
    · exact bare_keywordStatement g _ nofun nofun
    · exact bare_keywordStatement g _ nofun nofun
    · exact bare_ifStatement g
    · exact bare_forStatement g
    · exact bare_switchStatement g
    · exact bare_selectStatement g
    · exact bare_take 11 _ nofun nofun
    · exact bare_jumpStatement _ nofun nofun
    · exact bare_jumpStatement _ nofun nofun
    · exact bare_gotoStatement
    · refine .bind fun _ => .ite (bare_labeledStatement g) ?_
      refine .andThen (.bind fun _ => bare_simpleTail g ..) fun s hs => .pure hs

theorem bare_packageClause : Yields packageClause Forest.Bare :=
  .bind fun _ => .bind fun _ => .pure (Forest.bare_branch _ nofun nofun)

theorem bare_importDeclaration : Yields importDeclaration Forest.Bare := by
  refine .bind fun _ => .bind fun _ => .ite (.bind fun _ => .bind fun _ => .bind fun _ => ?_) (.bind fun _ => ?_)
  · exact .pure (Forest.bare_branch _ nofun nofun)
  · exact .pure (Forest.bare_branch _ nofun nofun)

/-! ## Items of the top level -/

/-- A rule that reads a keyword and makes one node of it and what follows: the node begins at the keyword. -/
theorem between_keyword {w : String} {k : Kind} {q : Forest → Parser Forest} {c d : Cursor} {f : Forest}
    (hq : ∀ word, Yields (q word) fun f => ∃ rest, f = Forest.branch k (word ++ rest))
    (h : (keyword w >>= q).run c = .ok (f, d)) :
    Forest.Between c.position.line f d.position.line := by
  obtain ⟨word, e, hword, hrest⟩ := bind_eq_ok.1 h
  obtain ⟨text, _, ha, hword⟩ := bind_eq_ok.1 hword
  obtain ⟨rfl, rfl⟩ := inspect_eq_ok.1 ha
  split at hword
  · cases hword
    obtain ⟨rest, rfl⟩ := (hq _).of_run hrest
    have hcomments : ∀ n ∈ (c.trivia true).1, n.isComment = true :=
      fun n hn => Cursor.isComment_of_mem_skipTrivia hn
    have hbefore := (c.reaches_trivia true).line_le
    have hbehind := (Cursor.Reaches.trans ⟨w.length, rfl⟩ ((q _).advances hrest)).line_le
    rw [List.append_assoc, List.singleton_append, Forest.branch_of_comments hcomments rfl]
    exact ((Forest.bare_of_comments hcomments).between (Nat.le_refl _)).append
      (Forest.between_singleton hbefore hbehind)
  · cases hword

theorem between_methodDeclaration {c d : Cursor} {f : Forest}
    (h : (methodDeclaration g).run c = .ok (f, d)) :
    Forest.Between c.position.line f d.position.line := by
  refine between_keyword (k := .methodDeclaration) (fun word => ?_) h
  refine .bind fun _ => .bind fun _ => .bind fun _ => .bind fun _ => .pure ?_
  simp only [List.append_assoc]
  exact ⟨_, rfl⟩

theorem between_functionDeclaration {c d : Cursor} {f : Forest}
    (h : (functionDeclaration g).run c = .ok (f, d)) :
    Forest.Between c.position.line f d.position.line := by
  refine between_keyword (k := .functionDeclaration) (fun word => ?_) h
  refine .bind fun _ => .bind fun _ => .ite ?_ ?_
  all_goals
    refine .bind fun _ => .bind fun _ => .bind fun _ => .pure ?_
    simp only [List.append_assoc]
    exact ⟨_, rfl⟩

theorem between_item {c d : Cursor} {f : Forest} (h : (item g).run c = .ok (f, d)) :
    Forest.Between c.position.line f d.position.line := by
  have hle := ((item g).advances h).line_le
  have hbare : ∀ {p : Parser Forest}, Yields p Forest.Bare → p.run c = .ok (f, d) →
      Forest.Between c.position.line f d.position.line :=
    fun hp hrun => (hp.of_run hrun).between hle
  obtain ⟨text, _, ha, h⟩ := bind_eq_ok.1 h
  obtain ⟨rfl, rfl⟩ := inspect_eq_ok.1 ha
  split at h
  · exact hbare bare_packageClause h
  · exact hbare bare_importDeclaration h
  · obtain ⟨found, _, hf, h⟩ := bind_eq_ok.1 h
    obtain ⟨-, rfl⟩ := inspect_eq_ok.1 hf
    split at h
    · exact between_methodDeclaration g h
    · rcases either_eq_ok h with h | h
      · exact between_functionDeclaration g h
      · exact hbare (bare_statement g) h
  · exact hbare (bare_statement g) h

theorem bare_terminator : Yields terminator Forest.Bare :=
  .bind fun _ => .ite (bare_take 1 _ nofun nofun) .refuse

theorem between_itemEnd {more : Parser Forest}
    (hmore : ∀ {c d : Cursor} {f : Forest}, more.run c = .ok (f, d) →
      Forest.Between c.position.line f d.position.line)
    {first : Bool} {start lo : Nat} {one f : Forest} {c d : Cursor} (hone : Forest.Between lo one c.position.line)
    (h : (itemEnd more first start one).run c = .ok (f, d)) : Forest.Between lo f d.position.line := by
  obtain ⟨ended, _, he, h⟩ := bind_eq_ok.1 h
  cases he
  split at h
  · obtain ⟨t, e, ht, h⟩ := bind_eq_ok.1 h
    obtain ⟨rest, _, hrest, h⟩ := bind_eq_ok.1 h
    cases h
    have hterminator := (bare_terminator.of_run ht).between (terminator.advances ht).line_le
    exact (hone.append hterminator).append (hmore hrest)
  · obtain ⟨bytes, _, hb, h⟩ := bind_eq_ok.1 h
    obtain ⟨-, rfl⟩ := inspect_eq_ok.1 hb
    obtain ⟨text, _, ha, h⟩ := bind_eq_ok.1 h
    obtain ⟨-, rfl⟩ := inspect_eq_ok.1 ha
    split at h
    · obtain ⟨rest, _, hrest, h⟩ := bind_eq_ok.1 h
      cases h
      exact hone.append (hmore hrest)
    · cases h

theorem between_items {fuel : Nat} {first : Bool} {c d : Cursor} {f : Forest}
    (h : (items g fuel first).run c = .ok (f, d)) :
    Forest.Between c.position.line f d.position.line := by
  induction fuel generalizing first c d f with
  | zero =>
    cases h
    exact Forest.Bare.between (List.forall_mem_nil _) (Nat.le_refl _)
  | succ fuel ih =>
    obtain ⟨here, _, hh, h⟩ := bind_eq_ok.1 h
    obtain ⟨rfl, rfl⟩ := inspect_eq_ok.1 hh
    split at h
    · cases h
      exact (Forest.bare_of_comments fun n hn => Cursor.isComment_of_mem_skipTrivia hn).between (Nat.le_refl _)
    · obtain ⟨one, e, hone, h⟩ := bind_eq_ok.1 h
      exact between_itemEnd ih (between_item g hone) h

end Grammar

theorem sorted_sourceTree (text : String) :
    ((sourceTree text).children.filter Node.isDeclaration).Pairwise fun m n => m.start.line ≤ n.start.line := by
  simp only [sourceTree]
  split
  · rename_i hrun
    exact (Grammar.between_items _ hrun).sorted
  · exact .nil

namespace Source

theorem of_declaredNode? {path : Path} {n : Node} {d : DeclaredNode} (h : declaredNode? path n = some d) :
    n.isDeclaration = true ∧ d.declaration.line = n.start.line ∧ d.declaration.file = path := by
  obtain ⟨receiver, hr, h⟩ := Option.bind_eq_some_iff.1 h
  obtain ⟨name, -, h⟩ := Option.bind_eq_some_iff.1 h
  cases h
  refine ⟨?_, rfl, rfl⟩
  rw [Node.declaredReceiver?] at hr
  split at hr
  · rename_i hk
    simp [Node.isDeclaration, hk]
  · rename_i hk
    simp [Node.isDeclaration, hk]
  · cases hr

theorem pairwise_line_declaredNodes (path : Path) (text : String) :
    ((sourceTree text).namedChildren.filterMap (declaredNode? path)).Pairwise fun d e =>
      d.declaration.line ≤ e.declaration.line := by
  have hsorted := List.pairwise_filter.1 (sorted_sourceTree text)
  refine (hsorted.filter Node.isNamed).filterMap _ ?_
  intro m n hle d hd e he
  obtain ⟨hm, hdline, -⟩ := of_declaredNode? hd
  obtain ⟨hn, heline, -⟩ := of_declaredNode? he
  rw [hdline, heline]
  exact hle hm hn

end Source

end CallLineage.Go
