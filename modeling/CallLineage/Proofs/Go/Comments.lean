import CallLineage.Go.Resolution
/-! Comments and what is extracted from a file.
Two trees are compared of which the second has comments between the nodes of the first. Children are looked up by the
part they play, so comments are passed over, with one exception: inside pointers and parentheses the first named child
decides, and a comment there veils the name of a receiver. Where no receiver is veiled anew, declarations and calls
are the same. -/
namespace CallLineage.Go

/-! ## Trees with comments put in -/

namespace Node

structure IsRemark (n : Node) : Prop where
  kind : n.kind = .comment
  field : n.field = none
  children : n.children = []

instance (n : Node) : Decidable n.IsRemark :=
  decidable_of_iff (n.kind = .comment ∧ n.field = none ∧ n.children.isEmpty = true)
    ⟨fun ⟨h₁, h₂, h₃⟩ => ⟨h₁, h₂, List.isEmpty_iff.1 h₃⟩, fun ⟨h₁, h₂, h₃⟩ => ⟨h₁, h₂, List.isEmpty_iff.2 h₃⟩⟩

end Node

/-- The second forest is the first with comments put between the nodes, at any depth. Nodes keep their kind, their part
and their text; they may have moved. -/
inductive Forest.Commented : Forest → Forest → Prop
  | nil : Commented [] []
  | remark {c : Node} {ns ms : Forest} (isRemark : c.IsRemark) (rest : Commented ns ms) : Commented ns (c :: ms)
  | node {k : Kind} {f : Option Field} {p p' : Position} {t : String} {b b' : Bool} {cs cs' ns ms : Forest}
      (inner : Commented cs cs') (rest : Commented ns ms) :
      Commented (.mk k f p t b cs :: ns) (.mk k f p' t b' cs' :: ms)

structure Node.Commented (n m : Node) : Prop where
  kind : m.kind = n.kind
  field : m.field = n.field
  text : m.text = n.text
  children : Forest.Commented n.children m.children

theorem Forest.Commented.cons {n m : Node} {ns ms : Forest} (hnode : n.Commented m) (hrest : Commented ns ms) :
    Commented (n :: ns) (m :: ms) := by
  obtain ⟨hk, hf, ht, hcs⟩ := hnode
  cases n
  cases m
  cases hk
  cases hf
  cases ht
  exact .node hcs hrest

mutual

/-- Whether the second node is the first with comments put between the nodes below it. -/
def Node.commentedBy : Node → Node → Bool
  | n, .mk k f _ t _ cs => n.kind == k && n.field == f && n.text == t && Forest.commentedBy n.children cs

def Forest.commentedBy : Forest → List Node → Bool
  | ns, [] => ns.isEmpty
  | [], m :: ms => decide m.IsRemark && Forest.commentedBy [] ms
  | n :: ns, m :: ms =>
    (decide m.IsRemark && Forest.commentedBy (n :: ns) ms) || (Node.commentedBy n m && Forest.commentedBy ns ms)

end

mutual

theorem Node.commented_of_commentedBy {n : Node} : ∀ {m : Node}, n.commentedBy m = true → n.Commented m
  | .mk k f p t b cs, h => by
    simp only [Node.commentedBy, Bool.and_eq_true, beq_iff_eq] at h
    obtain ⟨⟨⟨hk, hf⟩, ht⟩, hcs⟩ := h
    exact ⟨hk.symm, hf.symm, ht.symm, Forest.commented_of_commentedBy hcs⟩

theorem Forest.commented_of_commentedBy :
    ∀ {ns ms : List Node}, Forest.commentedBy ns ms = true → Forest.Commented ns ms
  | ns, [], h => by
    rw [Forest.commentedBy, List.isEmpty_iff] at h
    rw [h]
    exact .nil
  | [], m :: ms, h => by
    rw [Forest.commentedBy, Bool.and_eq_true, decide_eq_true_eq] at h
    exact .remark h.1 (Forest.commented_of_commentedBy h.2)
  | n :: ns, m :: ms, h => by
    rw [Forest.commentedBy, Bool.or_eq_true, Bool.and_eq_true, Bool.and_eq_true, decide_eq_true_eq] at h
    rcases h with ⟨hremark, hrest⟩ | ⟨hnode, hrest⟩
    · exact .remark hremark (Forest.commented_of_commentedBy hrest)
    · exact .cons (Node.commented_of_commentedBy hnode) (Forest.commented_of_commentedBy hrest)

end

theorem Forest.Commented.commentedBy {ns ms : Forest} (h : Commented ns ms) : commentedBy ns ms = true := by
  induction h with
  | nil => rfl
  | @remark c ns ms isRemark rest ih => cases ns <;> simp [Forest.commentedBy, isRemark, ih]
  | node inner rest ihinner ih =>
    simp [Forest.commentedBy, Node.commentedBy, Node.kind, Node.field, Node.text, Node.children, ihinner, ih]

instance (n m : Node) : Decidable (n.Commented m) :=
  decidable_of_iff (n.kind = m.kind ∧ n.field = m.field ∧ n.text = m.text ∧
      Forest.commentedBy n.children m.children = true)
    ⟨fun ⟨hk, hf, ht, hcs⟩ => ⟨hk.symm, hf.symm, ht.symm, Forest.commented_of_commentedBy hcs⟩,
      fun ⟨hk, hf, ht, hcs⟩ => ⟨hk.symm, hf.symm, ht.symm, hcs.commentedBy⟩⟩

/-! ## Look-ups -/

namespace Forest.Commented

/-- A search for what is no comment finds the same node, with comments put in. -/
theorem find? {ns ms : Forest} (h : Commented ns ms) {q : Node → Bool} (hremark : ∀ c : Node, c.IsRemark → q c = false)
    (hsame : ∀ n m : Node, n.Commented m → q m = q n) :
    Option.Rel Node.Commented (ns.find? q) (ms.find? q) := by
  induction h with
  | nil => exact .none
  | remark isRemark rest ih =>
    rw [List.find?_cons_of_neg (by simp [hremark _ isRemark])]
    exact ih
  | @node k f p p' t b b' cs cs' ns ms inner rest _ ih =>
    have hnode : (Node.mk k f p t b cs).Commented (.mk k f p' t b' cs') := ⟨rfl, rfl, rfl, inner⟩
    by_cases hq : q (.mk k f p t b cs) = true
    · have hq' : q (.mk k f p' t b' cs') = true := by rw [hsame _ _ hnode, hq]
      rw [List.find?_cons_of_pos hq, List.find?_cons_of_pos hq']
      exact .some hnode
    · have hq' : ¬ q (.mk k f p' t b' cs') = true := by rwa [hsame _ _ hnode]
      rw [List.find?_cons_of_neg hq, List.find?_cons_of_neg hq']
      exact ih

end Forest.Commented

namespace Node.Commented

variable {n m : Node}

theorem child? (h : n.Commented m) (f : Field) : Option.Rel Node.Commented (n.child? f) (m.child? f) := by
  apply h.children.find?
  · intro c hc
    simp [hc.field]
  · intro n m hnm
    rw [hnm.field]

/-- Calls refer to the same names: callee, operand and selected name are looked up by the part they play. -/
theorem target?_eq (h : n.Commented m) : m.target? = n.target? := by
  have htypes := h.child? .typeArguments
  have hfunction := h.child? .function
  simp only [target?]
  generalize n.child? .typeArguments = types, m.child? .typeArguments = types' at htypes
  generalize n.child? .function = function, m.child? .function = function' at hfunction
  cases htypes with
  | some => rfl
  | none =>
    cases hfunction with
    | none => rfl
    | @some f f' hf =>
      have hoperand := hf.child? .operand
      have hselected := hf.child? .selected
      simp only [hf.kind, hf.text, Option.bind_eq_bind, Option.bind_some]
      generalize f.child? .operand = operand, f'.child? .operand = operand' at hoperand
      generalize f.child? .selected = selected, f'.child? .selected = selected' at hselected
      cases hoperand with
      | none => rfl
      | some ho =>
        cases hselected with
        | none => rfl
        | some hs => simp only [Option.bind_some, ho.kind, ho.text, hs.text]

end Node.Commented

/-! ## Calls -/

theorem Node.IsRemark.collectCalls_eq {c : Node} (h : c.IsRemark) (declared : String → Bool) (callees : List String) :
    c.collectCalls declared callees = callees := by
  obtain ⟨k, f, p, t, b, cs⟩ := c
  obtain ⟨hk, -, hcs⟩ := h
  cases hk
  cases hcs
  rfl

theorem Forest.Commented.collectCallsIn_eq {ns ms : Forest} (h : Commented ns ms) (declared : String → Bool)
    (callees : List String) :
    Node.collectCallsIn declared ms callees = Node.collectCallsIn declared ns callees := by
  induction h generalizing callees with
  | nil => rfl
  | remark isRemark rest ih => rw [Node.collectCallsIn, isRemark.collectCalls_eq, ih]
  | @node k f p p' t b b' cs cs' ns ms inner rest ihinner ih =>
    have hnode : (Node.mk k f p t b cs).Commented (.mk k f p' t b' cs') := ⟨rfl, rfl, rfl, inner⟩
    rw [Node.collectCallsIn, Node.collectCallsIn, Node.collectCalls, Node.collectCalls, hnode.target?_eq, ihinner, ih]

theorem Node.Commented.collectCalls_eq {n m : Node} (h : n.Commented m) (declared : String → Bool)
    (callees : List String) : m.collectCalls declared callees = n.collectCalls declared callees := by
  have hforest : Forest.Commented [n] [m] := .cons h .nil
  exact hforest.collectCallsIn_eq declared callees

/-! ## Receivers -/

namespace Node

mutual

/-- Whether a comment keeps the name of a type from being read: it comes first inside pointers or parentheses. -/
def isVeiled : Node → Bool
  | mk kind _ _ _ _ children =>
    match kind with
    | .pointerType | .parenthesizedType => isVeiledIn children
    | _ => false

def isVeiledIn : List Node → Bool
  | [] => false
  | n :: ns => if n.isComment then true else if n.isNamed then isVeiled n else isVeiledIn ns

end

theorem isNamed_of_isComment {c : Node} (h : c.isComment = true) : c.isNamed = true := by
  simp only [isComment, beq_iff_eq] at h
  simp [isNamed, h]

theorem typeName?_of_isComment {c : Node} (h : c.isComment = true) : c.typeName? = none := by
  obtain ⟨k, f, p, t, b, cs⟩ := c
  have hk : k = .comment := by simpa [isComment, kind] using h
  rw [hk]
  rfl

mutual

theorem typeName?_of_isVeiled : ∀ {n : Node}, n.isVeiled = true → n.typeName? = none
  | mk k f p t b cs, h => by
    unfold isVeiled at h
    split at h
    · exact typeNameIn?_of_isVeiledIn h
    · exact typeNameIn?_of_isVeiledIn h
    · cases h

theorem typeNameIn?_of_isVeiledIn : ∀ {ns : List Node}, isVeiledIn ns = true → typeNameIn? ns = none
  | [], h => by cases h
  | n :: ns, h => by
    rw [isVeiledIn] at h
    rw [typeNameIn?]
    by_cases hcomment : n.isComment = true
    · rw [if_pos (isNamed_of_isComment hcomment), typeName?_of_isComment hcomment]
    · rw [if_neg hcomment] at h
      by_cases hnamed : n.isNamed = true
      · rw [if_pos hnamed] at h ⊢
        exact typeName?_of_isVeiled h
      · rw [if_neg hnamed] at h ⊢
        exact typeNameIn?_of_isVeiledIn h

end

end Node

namespace Node.Commented

variable {n m : Node}

theorem isComment_eq (h : n.Commented m) : m.isComment = n.isComment := by
  simp only [isComment, h.kind]

theorem isNamed_eq (h : n.Commented m) : m.isNamed = n.isNamed := by
  simp only [isNamed, h.kind]

/-- The name of a type, given the names inside it. -/
theorem typeName?_of_children (h : n.Commented m)
    (hinner : isVeiledIn m.children = isVeiledIn n.children → typeNameIn? m.children = typeNameIn? n.children)
    (hveil : m.isVeiled = n.isVeiled) : m.typeName? = n.typeName? := by
  have htype := h.child? .type
  obtain ⟨k, f, p, t, b, cs⟩ := n
  obtain ⟨k', f', p', t', b', cs'⟩ := m
  cases (h.kind : k' = k)
  cases (h.text : t' = t)
  unfold typeName?
  unfold isVeiled at hveil
  split
  · rfl
  · exact hinner hveil
  · exact hinner hveil
  · generalize (Node.mk .genericType f p t b cs).child? .type = base,
      (Node.mk .genericType f' p' t b' cs').child? .type = base' at htype ⊢
    cases htype with
    | none => rfl
    | some hbase => simp only [hbase.kind, hbase.text]
  · rfl

end Node.Commented

/-- Comments change the name of a type only by veiling it. -/
theorem Forest.Commented.typeNameIn?_eq {ns ms : Forest} (h : Commented ns ms)
    (hveil : Node.isVeiledIn ms = Node.isVeiledIn ns) : Node.typeNameIn? ms = Node.typeNameIn? ns := by
  induction h with
  | nil => rfl
  | @remark c ns ms isRemark rest ih =>
    have hcomment : c.isComment = true := by simp [Node.isComment, isRemark.kind]
    have hms : Node.isVeiledIn (c :: ms) = true := by rw [Node.isVeiledIn, if_pos hcomment]
    rw [Node.typeNameIn?_of_isVeiledIn hms, Node.typeNameIn?_of_isVeiledIn (hveil ▸ hms)]
  | @node k f p p' t b b' cs cs' ns ms inner rest ihinner ih =>
    have hnode : (Node.mk k f p t b cs).Commented (.mk k f p' t b' cs') := ⟨rfl, rfl, rfl, inner⟩
    rw [Node.isVeiledIn, Node.isVeiledIn, hnode.isComment_eq, hnode.isNamed_eq] at hveil
    rw [Node.typeNameIn?, Node.typeNameIn?, hnode.isNamed_eq]
    by_cases hcomment : (Node.mk k f p t b cs).isComment = true
    · have hcomment' := hnode.isComment_eq.trans hcomment
      rw [if_pos (Node.isNamed_of_isComment hcomment), if_pos (Node.isNamed_of_isComment hcomment),
        Node.typeName?_of_isComment hcomment, Node.typeName?_of_isComment hcomment']
    · rw [if_neg hcomment, if_neg hcomment] at hveil
      by_cases hnamed : (Node.mk k f p t b cs).isNamed = true
      · rw [if_pos hnamed, if_pos hnamed] at hveil ⊢
        exact hnode.typeName?_of_children ihinner hveil
      · rw [if_neg hnamed, if_neg hnamed] at hveil ⊢
        exact ih hveil

theorem Node.Commented.typeName?_eq {n m : Node} (h : n.Commented m) (hveil : m.isVeiled = n.isVeiled) :
    m.typeName? = n.typeName? :=
  h.typeName?_of_children h.children.typeNameIn?_eq hveil

namespace Node

def receiverType? (method : Node) : Option Node := do
  let parameters ← method.child? .receiver
  let parameter ← parameters.namedChildren.find? fun n => n.kind == .parameterDeclaration
  parameter.child? .type

def hidesReceiver (method : Node) : Bool := method.receiverType?.any isVeiled

theorem receiver?_eq (method : Node) : method.receiver? = method.receiverType?.bind typeName? := by
  simp only [receiver?, receiverType?, Option.bind_eq_bind, Option.bind_assoc]

namespace Commented

variable {n m : Node}

theorem receiverType? (h : n.Commented m) : Option.Rel Node.Commented n.receiverType? m.receiverType? := by
  have hparameters := h.child? .receiver
  simp only [Node.receiverType?]
  generalize n.child? .receiver = parameters, m.child? .receiver = parameters' at hparameters ⊢
  cases hparameters with
  | none => exact .none
  | @some ps ps' hps =>
    have hparameter : Option.Rel Node.Commented
        (ps.namedChildren.find? fun n => n.kind == .parameterDeclaration)
        (ps'.namedChildren.find? fun n => n.kind == .parameterDeclaration) := by
      rw [namedChildren, namedChildren, List.find?_filter, List.find?_filter]
      apply hps.children.find?
      · intro c hc
        simp [hc.kind]
      · intro n m hnm
        rw [hnm.isNamed_eq, hnm.kind]
    simp only [Option.bind_eq_bind, Option.bind_some]
    generalize ps.namedChildren.find? _ = parameter, ps'.namedChildren.find? _ = parameter' at hparameter ⊢
    cases hparameter with
    | none => exact .none
    | some hp => exact hp.child? .type

theorem receiver?_eq (h : n.Commented m) (hveil : m.hidesReceiver = n.hidesReceiver) : m.receiver? = n.receiver? := by
  have htype := h.receiverType?
  rw [hidesReceiver, hidesReceiver] at hveil
  rw [Node.receiver?_eq, Node.receiver?_eq]
  generalize n.receiverType? = type, m.receiverType? = type' at htype hveil ⊢
  cases htype with
  | none => rfl
  | some ht => exact ht.typeName?_eq hveil

end Commented

end Node

/-! ## Files -/

def Forest.veils (ns : Forest) : List Bool :=
  (ns.filter fun n => n.kind == .methodDeclaration).map Node.hidesReceiver

theorem Forest.veils_cons_method {n : Node} (h : n.kind = .methodDeclaration) (ns : Forest) :
    veils (n :: ns) = n.hidesReceiver :: veils ns := by
  simp [veils, h]

theorem Forest.veils_cons_other {n : Node} (h : n.kind ≠ .methodDeclaration) (ns : Forest) :
    veils (n :: ns) = veils ns := by
  simp [veils, h]

/-- What is picked from a forest node by node stays the same where no receiver is veiled anew. -/
theorem Forest.Commented.filterMap_eq {α : Type} {ns ms : Forest} (h : Commented ns ms) (hveils : veils ms = veils ns)
    {pick pick' : Node → Option α} (hremark : ∀ c : Node, c.IsRemark → pick' c = none)
    (hsame : ∀ n m : Node, n.Commented m → (n.kind = .methodDeclaration → m.hidesReceiver = n.hidesReceiver) →
      pick' m = pick n) : ms.filterMap pick' = ns.filterMap pick := by
  induction h with
  | nil => rfl
  | @remark c ns ms isRemark rest ih =>
    have hc : c.kind ≠ .methodDeclaration := by simp [isRemark.kind]
    rw [veils_cons_other hc] at hveils
    rw [List.filterMap_cons_none (hremark c isRemark), ih hveils]
  | @node k f p p' t b b' cs cs' ns ms inner rest _ ih =>
    have hnode : (Node.mk k f p t b cs).Commented (.mk k f p' t b' cs') := ⟨rfl, rfl, rfl, inner⟩
    by_cases hmethod : (Node.mk k f p t b cs).kind = .methodDeclaration
    · rw [veils_cons_method hmethod, veils_cons_method (hnode.kind.trans hmethod), List.cons.injEq] at hveils
      rw [List.filterMap_cons, List.filterMap_cons, hsame _ _ hnode fun _ => hveils.1, ih hveils.2]
    · rw [veils_cons_other hmethod, veils_cons_other (hnode.kind ▸ hmethod)] at hveils
      rw [List.filterMap_cons, List.filterMap_cons, hsame _ _ hnode fun hk => absurd hk hmethod, ih hveils]

/-- What is extracted from a declaration, its place apart. -/
def DeclaredNode.extract (declared : String → Bool) (d : DeclaredNode) :
    String × Option String × String × List String :=
  (d.declaration.name, d.declaration.receiver, d.declaration.function, d.node.collectCalls declared [])

namespace Node

def extract? (declared : String → Bool) (path : Path) (n : Node) :
    Option (String × Option String × String × List String) :=
  (Source.declaredNode? path n).map (DeclaredNode.extract declared)

theorem extract?_eq (declared : String → Bool) (path : Path) (n : Node) :
    n.extract? declared path = n.declaredReceiver?.bind fun receiver => (n.child? .name).map fun name =>
      (qualifiedName receiver name.text, receiver, name.text, n.collectCalls declared []) := by
  cases hr : n.declaredReceiver? with
  | none => simp [extract?, Source.declaredNode?, hr]
  | some receiver =>
    cases hn : n.child? .name with
    | none => simp [extract?, Source.declaredNode?, hr, hn]
    | some name => simp [extract?, DeclaredNode.extract, Source.declaredNode?, hr, hn, Declaration.of]

theorem Commented.extract?_eq {n m : Node} (h : n.Commented m)
    (hveil : n.kind = .methodDeclaration → m.hidesReceiver = n.hidesReceiver) (declared : String → Bool)
    (path path' : Path) : m.extract? declared path' = n.extract? declared path := by
  have hreceiver : m.declaredReceiver? = n.declaredReceiver? := by
    rw [declaredReceiver?, declaredReceiver?, h.kind]
    split
    · rfl
    · rename_i hk
      rw [h.receiver?_eq (hveil hk)]
    · rfl
  have hname := h.child? .name
  rw [Node.extract?_eq, Node.extract?_eq, hreceiver, h.collectCalls_eq]
  generalize n.child? .name = name, m.child? .name = name' at hname ⊢
  cases hname with
  | none => rfl
  | some hn => simp only [Option.map_some, hn.text]

end Node

namespace Source

theorem map_extract_declaredNodes (s : Source) (declared : String → Bool) :
    s.declaredNodes.map (DeclaredNode.extract declared) =
      s.tree.children.filterMap fun n => if n.isNamed then n.extract? declared s.path else none := by
  rw [declaredNodes, Node.namedChildren, List.map_filterMap, List.filterMap_filter]
  rfl

theorem receivers_eq_filterMap (s : Source) :
    s.receivers = s.tree.children.filterMap fun n =>
      if n.kind = .methodDeclaration then some n.receiver? else none := by
  have hnamed : (fun n : Node => (n.kind == .methodDeclaration && n.isNamed)) =
      fun n => n.kind == .methodDeclaration := by
    funext n
    by_cases hk : n.kind = .methodDeclaration <;> simp [Node.isNamed, hk]
  rw [receivers, Node.namedChildren, List.filter_filter, hnamed, ← List.filterMap_eq_map, List.filterMap_filter]
  simp

/-- Comments change nothing of what is extracted from a file, wherever they are put between the nodes of its tree, as
long as they veil no receiver that was not veiled before: the declarations have the same names, receivers and
functions, and their calls are the same against every set of declared names. -/
theorem extraction_of_commented {s s' : Source} (h : s.tree.Commented s'.tree)
    (hveils : Forest.veils s'.tree.children = Forest.veils s.tree.children) :
    s'.declarations.map (fun d => (d.name, d.receiver, d.function)) =
      s.declarations.map (fun d => (d.name, d.receiver, d.function)) ∧
    (∀ declared, s'.edges declared = s.edges declared) ∧
    s'.receivers = s.receivers := by
  have hextracted : ∀ declared, s'.declaredNodes.map (DeclaredNode.extract declared) =
      s.declaredNodes.map (DeclaredNode.extract declared) := by
    intro declared
    rw [map_extract_declaredNodes, map_extract_declaredNodes]
    apply h.children.filterMap_eq hveils
    · intro c hc
      simp [Node.extract?_eq, Node.declaredReceiver?, hc.kind]
    · intro n m hnode hveil
      rw [hnode.isNamed_eq, hnode.extract?_eq hveil declared s.path]
  refine ⟨?_, ?_, ?_⟩
  · have hsignatures := congrArg (List.map fun v => (v.1, v.2.1, v.2.2.1)) (hextracted fun _ => false)
    simpa only [declarations, List.map_map, Function.comp_def, DeclaredNode.extract] using hsignatures
  · intro declared
    have hedges := congrArg (List.map fun v => (⟨v.1, v.2.2.2⟩ : CallerEdges)) (hextracted declared)
    simpa only [edges, List.map_map, Function.comp_def, DeclaredNode.extract] using hedges
  · rw [receivers_eq_filterMap, receivers_eq_filterMap]
    apply h.children.filterMap_eq hveils
    · intro c hc
      simp [hc.kind]
    · intro n m hnode hveil
      rw [hnode.kind]
      by_cases hk : n.kind = .methodDeclaration
      · rw [if_pos hk, if_pos hk, hnode.receiver?_eq (hveil hk)]
      · rw [if_neg hk, if_neg hk]

/-- The file of a text, whether it is well formed or not. -/
def ofText (text : String) : Source := ⟨⟨"t.go"⟩, text, sourceTree text⟩

def plainMethods : Source := ofText "func (t *T) M() { g(x.f()) }\nfunc (t (U[K])) N() {}\n"

/-- The same methods with comments in front of their parts and behind them. -/
def remarkedMethods : Source :=
  ofText ("/*a*/func /*b*/(/*c*/t/*d*/ *T/*e*/) M(/*f*/) \x7b// g\n g(/*h*/x/*i*/./*j*/f /*k*/())\x7d\n" ++
    "func (t (U/*l*/[/*m*/K]/*n*/)) N() {}//o\n")

theorem extraction_of_commented_remarkedMethods :
    (plainMethods.tree.Commented remarkedMethods.tree ∧
      Forest.veils remarkedMethods.tree.children = Forest.veils plainMethods.tree.children) ∧
    remarkedMethods.receivers = [some "T", some "U"] ∧
    remarkedMethods.edges (fun _ => true) = [⟨"T.M", ["g", "x.f"]⟩, ⟨"U.N", []⟩] := by
  have hcommented : plainMethods.tree.Commented remarkedMethods.tree ∧
      Forest.veils remarkedMethods.tree.children = Forest.veils plainMethods.tree.children := by decide +kernel
  have hplain : plainMethods.receivers = [some "T", some "U"] ∧
      plainMethods.edges (fun _ => true) = [⟨"T.M", ["g", "x.f"]⟩, ⟨"U.N", []⟩] := by decide +kernel
  obtain ⟨-, hedges, hreceivers⟩ := extraction_of_commented hcommented.1 hcommented.2
  exact ⟨hcommented, hreceivers.trans hplain.1, (hedges _).trans hplain.2⟩

/-- The same methods with a comment between the pointer and its type. -/
def veiledMethod : Source := ofText "func (t */*c*/T) M() { g(x.f()) }\nfunc (t (U[K])) N() {}\n"

/-- A comment between a pointer and its type veils the receiver, and the method is gone with all its calls. -/
theorem method_lost_by_comment :
    (plainMethods.tree.Commented veiledMethod.tree ∧ veiledMethod.tree.firstFault?.isNone = true) ∧
    plainMethods.receivers = [some "T", some "U"] ∧ veiledMethod.receivers = [none, some "U"] ∧
    plainMethods.declarations.map (fun d => d.name) = ["T.M", "U.N"] ∧
    veiledMethod.declarations.map (fun d => d.name) = ["U.N"] := by
  decide +kernel

end Source

end CallLineage.Go
