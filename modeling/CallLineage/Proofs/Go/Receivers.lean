import CallLineage.Proofs.Assembly
import CallLineage.Proofs.Go.Comments
/-! Which receivers have a name, and what becomes of methods whose receivers have none.
The type of a receiver is named when it is a name, alone or with type arguments, under any number of pointers and
parentheses. Every other type has no name, and a method of such a type leaves the analysis as it is without the
method. -/
namespace CallLineage.Go

/-! ## Types of receivers -/

namespace Node

def IsLayer (n : Node) : Prop := n.kind = .pointerType ∨ n.kind = .parenthesizedType

/-- The type inside a layer: the first child that is neither a token nor a comment. -/
def wrapped? (n : Node) : Option Node := n.children.find? fun c => c.isNamed && !c.isComment

/-- The type is the name, alone or with type arguments, under any number of layers. -/
inductive NamedType (name : String) : Node → Prop
  | plain {n : Node} (kind : n.kind = .typeIdentifier) (text : n.text = name) : NamedType name n
  | generic {n base : Node} (kind : n.kind = .genericType) (isBase : n.child? .type = some base)
      (isName : base.kind = .typeIdentifier) (text : base.text = name) : NamedType name n
  | layer {n inner : Node} (isLayer : n.IsLayer) (inside : n.wrapped? = some inner) (named : NamedType name inner) :
      NamedType name n

/-- A type of another shape. Under its layers stands a type of another kind, such as a qualified type or a slice, or a
type with arguments that is no plain name, or nothing. -/
inductive UnnamedType : Node → Prop
  | other {n : Node} (kind : n.kind ∉ [.typeIdentifier, .genericType, .pointerType, .parenthesizedType]) :
      UnnamedType n
  | generic {n : Node} (kind : n.kind = .genericType)
      (noName : ∀ base, n.child? .type = some base → base.kind ≠ .typeIdentifier) : UnnamedType n
  | layer {n : Node} (isLayer : n.IsLayer) (unnamed : ∀ inner, n.wrapped? = some inner → UnnamedType inner) :
      UnnamedType n

theorem typeNameIn?_eq (ns : List Node) : typeNameIn? ns = (ns.find? isNamed).bind typeName? := by
  induction ns with
  | nil => rfl
  | cons n ns ih =>
    rw [typeNameIn?]
    by_cases hnamed : n.isNamed = true
    · rw [if_pos hnamed, List.find?_cons_of_pos hnamed, Option.bind_some]
    · rw [if_neg hnamed, List.find?_cons_of_neg hnamed, ih]

theorem typeName?_of_typeIdentifier {n : Node} (h : n.kind = .typeIdentifier) : n.typeName? = some n.text := by
  obtain ⟨k, f, p, t, b, cs⟩ := n
  cases h
  rfl

theorem typeName?_of_genericType {n : Node} (h : n.kind = .genericType) :
    n.typeName? = (n.child? .type).bind fun base => if base.kind = .typeIdentifier then some base.text else none := by
  obtain ⟨k, f, p, t, b, cs⟩ := n
  cases h
  rw [typeName?]
  cases (mk .genericType f p t b cs).child? .type <;> simp

theorem typeName?_of_isLayer {n : Node} (h : n.IsLayer) : n.typeName? = (n.children.find? isNamed).bind typeName? := by
  obtain ⟨k, f, p, t, b, cs⟩ := n
  rcases h with h | h
  · cases h
    exact typeNameIn?_eq cs
  · cases h
    exact typeNameIn?_eq cs

theorem typeName?_of_other {n : Node}
    (h : n.kind ∉ [.typeIdentifier, .genericType, .pointerType, .parenthesizedType]) : n.typeName? = none := by
  obtain ⟨k, f, p, t, b, cs⟩ := n
  unfold typeName?
  split
  · exact absurd (by simp [kind]) h
  · exact absurd (by simp [kind]) h
  · exact absurd (by simp [kind]) h
  · exact absurd (by simp [kind]) h
  · rfl

def Uncommented (n : Node) : Prop := ∀ m ∈ n.preorder, m.isComment = false

theorem preorder_subset_of_mem_children {n m : Node} (h : m ∈ n.children) : m.preorder ⊆ n.preorder := by
  cases n
  exact fun x hx => List.mem_cons_of_mem _ (mem_preorderAll.2 ⟨m, h, hx⟩)

namespace Uncommented

variable {n m : Node}

theorem of_mem_children (h : n.Uncommented) (hm : m ∈ n.children) : m.Uncommented :=
  fun x hx => h x (preorder_subset_of_mem_children hm hx)

theorem isComment_eq (h : n.Uncommented) : n.isComment = false := h n n.mem_preorder_self

/-- Without comments the first named child of a layer is the type inside. -/
theorem find?_isNamed (h : n.Uncommented) : n.children.find? isNamed = n.wrapped? := by
  rw [wrapped?, ← List.head?_filter, ← List.head?_filter]
  congr 1
  apply List.filter_congr
  intro c hc
  rw [(h.of_mem_children hc).isComment_eq, Bool.not_false, Bool.and_true]

theorem of_wrapped? (h : n.Uncommented) (hm : n.wrapped? = some m) : m.Uncommented :=
  h.of_mem_children (List.mem_of_find?_eq_some hm)

theorem typeName?_of_isLayer (h : n.Uncommented) (hlayer : n.IsLayer) :
    n.typeName? = n.wrapped?.bind typeName? := by
  rw [Node.typeName?_of_isLayer hlayer, h.find?_isNamed]

end Uncommented

theorem sizeOf_lt_of_wrapped? {n m : Node} (h : n.wrapped? = some m) : sizeOf m < sizeOf n := by
  obtain ⟨k, f, p, t, b, cs⟩ := n
  have hmem : m ∈ cs := List.mem_of_find?_eq_some h
  have hlt := List.sizeOf_lt_of_mem hmem
  simp only [mk.sizeOf_spec]
  omega

theorem kind_cases (n : Node) : n.kind = .typeIdentifier ∨ n.kind = .genericType ∨ n.IsLayer ∨
    n.kind ∉ [.typeIdentifier, .genericType, .pointerType, .parenthesizedType] := by
  simp only [IsLayer]
  grind

/-- Layer by layer, a type comes to a name or to a shape that has none. -/
theorem namedType_or_unnamedType (n : Node) (h : n.Uncommented) :
    (∃ name, n.typeName? = some name ∧ NamedType name n) ∨ n.typeName? = none ∧ UnnamedType n := by
  rcases n.kind_cases with hkind | hkind | hlayer | hkind
  · exact .inl ⟨n.text, typeName?_of_typeIdentifier hkind, .plain hkind rfl⟩
  · rw [typeName?_of_genericType hkind]
    cases hbase : n.child? .type with
    | none => exact .inr ⟨rfl, .generic hkind fun base h => by rw [hbase] at h; cases h⟩
    | some base =>
      rw [Option.bind_some]
      by_cases hname : base.kind = .typeIdentifier
      · exact .inl ⟨base.text, if_pos hname, .generic hkind hbase hname rfl⟩
      · refine .inr ⟨if_neg hname, .generic hkind fun base' h => ?_⟩
        rw [hbase] at h
        cases h
        exact hname
  · rw [h.typeName?_of_isLayer hlayer]
    cases hinside : n.wrapped? with
    | none => exact .inr ⟨rfl, .layer hlayer fun inner h => by rw [hinside] at h; cases h⟩
    | some inner =>
      have hsmaller := sizeOf_lt_of_wrapped? hinside
      rcases namedType_or_unnamedType inner (h.of_wrapped? hinside) with ⟨name, hname, hnamed⟩ | ⟨hname, hunnamed⟩
      · exact .inl ⟨name, hname, .layer hlayer hinside hnamed⟩
      · refine .inr ⟨hname, .layer hlayer fun inner' h => ?_⟩
        rw [hinside] at h
        cases h
        exact hunnamed
  · exact .inr ⟨typeName?_of_other hkind, .other hkind⟩
termination_by sizeOf n

theorem NamedType.typeName?_eq {name : String} {n : Node} (h : NamedType name n) (hplain : n.Uncommented) :
    n.typeName? = some name := by
  induction h with
  | plain kind text => rw [typeName?_of_typeIdentifier kind, text]
  | generic kind isBase isName text =>
    rw [typeName?_of_genericType kind, isBase, Option.bind_some, if_pos isName, text]
  | layer isLayer inside _ ih =>
    rw [hplain.typeName?_of_isLayer isLayer, inside]
    exact ih (hplain.of_wrapped? inside)

theorem UnnamedType.typeName?_eq {n : Node} (h : UnnamedType n) (hplain : n.Uncommented) : n.typeName? = none := by
  induction h with
  | other kind => exact typeName?_of_other kind
  | @generic n kind noName =>
    rw [typeName?_of_genericType kind]
    cases hbase : n.child? .type with
    | none => rfl
    | some base => rw [Option.bind_some, if_neg (noName base hbase)]
  | @layer n isLayer _ ih =>
    rw [hplain.typeName?_of_isLayer isLayer]
    cases hinside : n.wrapped? with
    | none => rfl
    | some inner => exact ih inner hinside (hplain.of_wrapped? hinside)

theorem typeName?_eq_some_iff {n : Node} (h : n.Uncommented) (name : String) :
    n.typeName? = some name ↔ NamedType name n := by
  refine ⟨fun hname => ?_, fun hnamed => hnamed.typeName?_eq h⟩
  rcases n.namedType_or_unnamedType h with ⟨found, hfound, hnamed⟩ | ⟨hnone, -⟩
  · rw [hname, Option.some.injEq] at hfound
    exact hfound ▸ hnamed
  · rw [hname] at hnone
    cases hnone

theorem typeName?_eq_none_iff {n : Node} (h : n.Uncommented) : n.typeName? = none ↔ UnnamedType n := by
  refine ⟨fun hnone => ?_, fun hunnamed => hunnamed.typeName?_eq h⟩
  rcases n.namedType_or_unnamedType h with ⟨found, hfound, -⟩ | ⟨-, hunnamed⟩
  · rw [hnone] at hfound
    cases hfound
  · exact hunnamed

theorem mem_children_of_child? {n m : Node} {f : Field} (h : n.child? f = some m) : m ∈ n.children :=
  List.mem_of_find?_eq_some h

/-- Without comments in the list of the receiver there are none in its type. -/
theorem uncommented_receiverType {method type : Node}
    (hplain : ∀ list, method.child? .receiver = some list → list.Uncommented) (h : method.receiverType? = some type) :
    type.Uncommented := by
  obtain ⟨list, hlist, h⟩ := Option.bind_eq_some_iff.1 h
  obtain ⟨parameter, hparameter, htype⟩ := Option.bind_eq_some_iff.1 h
  have hmem := (List.mem_filter.1 (List.mem_of_find?_eq_some hparameter)).1
  exact ((hplain list hlist).of_mem_children hmem).of_mem_children (mem_children_of_child? htype)

theorem receiverType?_eq_none {method list : Node} (hlist : method.child? .receiver = some list)
    (h : ∀ p ∈ list.children, p.kind ≠ .parameterDeclaration) : method.receiverType? = none := by
  have hfind : (list.namedChildren.find? fun n => n.kind == .parameterDeclaration) = none := by
    rw [List.find?_eq_none]
    intro p hp
    simpa using h p (List.mem_filter.1 hp).1
  simp [receiverType?, hlist, hfind]

end Node

/-! ## Files without a method -/

def Node.withChildren (children : List Node) : Node → Node
  | mk k f p t b _ => mk k f p t b children

namespace Source

def withItems (s : Source) (items : Forest) : Source := { s with tree := s.tree.withChildren items }

def declared? (path : Path) (n : Node) : Option DeclaredNode := if n.isNamed then declaredNode? path n else none

theorem declaredNodes_eq (s : Source) : s.declaredNodes = s.tree.children.filterMap (declared? s.path) := by
  rw [declaredNodes, Node.namedChildren, List.filterMap_filter]
  rfl

theorem declaredNodes_withItems (s : Source) (items : Forest) :
    (s.withItems items).declaredNodes = items.filterMap (declared? s.path) := by
  obtain ⟨path, text, k, f, p, t, b, cs⟩ := s
  exact declaredNodes_eq _

theorem declaredNode?_method {path : Path} {method : Node} (h : method.kind = .methodDeclaration) :
    declaredNode? path method = method.receiver?.bind fun receiver => (method.child? .name).map fun function =>
      ⟨.of (some receiver) function.text path method.start.line, method⟩ := by
  simp only [declaredNode?, Node.declaredReceiver?, h]
  cases method.receiver? with
  | none => rfl
  | some receiver => cases method.child? .name <;> rfl

theorem declaredNodes_method {s : Source} {before after : Forest} {method : Node}
    (hkind : method.kind = .methodDeclaration) (hitems : s.tree.children = before ++ method :: after) :
    s.declaredNodes = (s.withItems before).declaredNodes ++
      (method.receiver?.bind fun receiver => (method.child? .name).map fun function =>
        (⟨.of (some receiver) function.text s.path method.start.line, method⟩ : DeclaredNode)).toList ++
      (s.withItems after).declaredNodes := by
  have hnamed : method.isNamed = true := by simp [Node.isNamed, hkind]
  rw [declaredNodes_eq, hitems, declaredNodes_withItems, declaredNodes_withItems, List.filterMap_append,
    ← List.singleton_append, List.filterMap_append, List.append_assoc, ← declaredNode?_method hkind]
  cases hdeclared : declaredNode? s.path method <;> simp [declared?, hnamed, hdeclared]

end Source

end CallLineage.Go

namespace CallLineage.Analysis

/-- The declarations and the graph come from the declared nodes alone. -/
theorem views_congr {sources sources' : List Go.Source} (h : nodesOf sources = nodesOf sources') (root : Path) :
    (ofSources root sources).declarations = (ofSources root sources').declarations ∧
      (ofSources root sources).graph = (ofSources root sources').graph := by
  have hcollect : collect sources = collect sources' := by rw [collect_eq, collect_eq, h]
  refine ⟨hcollect, ?_⟩
  simp only [ofSources]
  rw [assemble_eq, assemble_eq, hcollect, h]

end CallLineage.Analysis

namespace CallLineage.Go.Node

/-- A receiver without comments has a name exactly when the type of its first parameter is that name, alone or with type
arguments, under any number of pointers and parentheses. For every other type, and where there is no parameter but a
variadic one, it has none. Then the file has the declarations and the calls that it has without the method, and every
analysis has the same records and the same graph. A method whose receiver has a name is declared in its place. -/
theorem receiver?_exact {method : Node} (hkind : method.kind = .methodDeclaration)
    (hplain : ∀ list, method.child? .receiver = some list → list.Uncommented) :
    (∀ name, method.receiver? = some name ↔ ∃ type, method.receiverType? = some type ∧ NamedType name type) ∧
    (method.receiver? = none ↔ ∀ type, method.receiverType? = some type → UnnamedType type) ∧
    (∀ list, method.child? .receiver = some list → (∀ p ∈ list.children, p.kind ≠ .parameterDeclaration) →
      method.receiver? = none) ∧
    ∀ (s : Source) (before after : Forest), s.tree.children = before ++ method :: after →
      (method.receiver? = none →
        s.declarations = (s.withItems (before ++ after)).declarations ∧
        (∀ declared, s.edges declared = (s.withItems (before ++ after)).edges declared) ∧
        ∀ root front back,
          (Analysis.ofSources root (front ++ s :: back)).declarations =
            (Analysis.ofSources root (front ++ s.withItems (before ++ after) :: back)).declarations ∧
          (Analysis.ofSources root (front ++ s :: back)).graph =
            (Analysis.ofSources root (front ++ s.withItems (before ++ after) :: back)).graph) ∧
      ∀ name function, method.receiver? = some name → method.child? .name = some function →
        s.declarations = (s.withItems before).declarations ++
          .of (some name) function.text s.path method.start.line :: (s.withItems after).declarations := by
  have hname : ∀ name, method.receiver? = some name ↔
      ∃ type, method.receiverType? = some type ∧ NamedType name type := by
    intro name
    rw [receiver?_eq, Option.bind_eq_some_iff]
    exact exists_congr fun type => and_congr_right fun htype =>
      typeName?_eq_some_iff (uncommented_receiverType hplain htype) name
  have hnone : method.receiver? = none ↔ ∀ type, method.receiverType? = some type → UnnamedType type := by
    rw [receiver?_eq, Option.bind_eq_none_iff]
    exact forall_congr' fun type => forall_congr' fun htype =>
      typeName?_eq_none_iff (uncommented_receiverType hplain htype)
  refine ⟨hname, hnone, ?_, fun s before after hitems => ⟨fun hunnamed => ?_, ?_⟩⟩
  · intro list hlist hparameters
    rw [receiver?_eq, receiverType?_eq_none hlist hparameters, Option.bind_none]
  · have hnodes : s.declaredNodes = (s.withItems (before ++ after)).declaredNodes := by
      rw [Source.declaredNodes_method hkind hitems, hunnamed]
      simp [Source.declaredNodes_withItems]
    refine ⟨by rw [Source.declarations, Source.declarations, hnodes], fun declared => ?_, fun root front back => ?_⟩
    · rw [Source.edges, Source.edges, hnodes]
    · apply Analysis.views_congr
      simp only [Analysis.nodesOf, List.flatMap_append, List.flatMap_cons, hnodes]
  · intro name function hreceiver hfunction
    rw [Source.declarations, Source.declaredNodes_method hkind hitems, hreceiver, hfunction]
    simp [Source.declarations]

/-- A method of a type with arguments under layers, and a method of a slice under layers. -/
def layeredMethods : Source := .ofText "func (t *((*(T[K])))) M() { T.M() }\nfunc (t *([]q.T)) N() { T.M() }\n"

def layeredMethod (i : Nat) : Node := layeredMethods.tree.children.getD i default

theorem receiver?_exact_layeredMethods :
    ((layeredMethod 0).kind = .methodDeclaration ∧ (layeredMethod 2).kind = .methodDeclaration) ∧
    (∃ type, (layeredMethod 0).receiverType? = some type ∧ NamedType "T" type) ∧
    (∃ type, (layeredMethod 2).receiverType? = some type ∧ UnnamedType type) ∧
    layeredMethods.declarations = [.of (some "T") "M" ⟨"t.go"⟩ 1] ∧
    (layeredMethods.withItems (layeredMethods.tree.children.eraseIdx 2)).declarations =
      [.of (some "T") "M" ⟨"t.go"⟩ 1] := by
  have hkinds : (layeredMethod 0).kind = .methodDeclaration ∧ (layeredMethod 2).kind = .methodDeclaration := by
    decide +kernel
  have hplain : ∀ i ∈ [0, 2], ∀ list, (layeredMethod i).child? .receiver = some list → list.Uncommented := by
    have hall : ∀ i ∈ [0, 2], ∀ list ∈ ((layeredMethod i).child? .receiver).toList, ∀ m ∈ list.preorder,
        m.isComment = false := by decide +kernel
    exact fun i hi list hlist => hall i hi list (by simp [hlist])
  have hreceivers : (layeredMethod 0).receiver? = some "T" ∧ (layeredMethod 2).receiver? = none ∧
      (layeredMethod 2).receiverType?.isSome = true := by decide +kernel
  have hdeclared : layeredMethods.declarations = [.of (some "T") "M" ⟨"t.go"⟩ 1] := by decide +kernel
  have hlength : 2 < layeredMethods.tree.children.length := by decide +kernel
  have hitems : layeredMethods.tree.children = layeredMethods.tree.children.take 2 ++
      layeredMethod 2 :: layeredMethods.tree.children.drop 3 := by
    rw [layeredMethod, List.getD_eq_getElem?_getD, List.getElem?_eq_getElem hlength, Option.getD_some,
      ← List.drop_eq_getElem_cons hlength, List.take_append_drop]
  obtain ⟨hnamed, -⟩ := receiver?_exact hkinds.1 (hplain 0 (by simp))
  obtain ⟨-, hunnamed, -, hfiles⟩ := receiver?_exact hkinds.2 (hplain 2 (by simp))
  obtain ⟨type, htype⟩ := Option.isSome_iff_exists.1 hreceivers.2.2
  refine ⟨hkinds, (hnamed "T").1 hreceivers.1, ⟨type, htype, hunnamed.1 hreceivers.2.1 type htype⟩, hdeclared, ?_⟩
  rw [List.eraseIdx_eq_take_drop_succ, ← ((hfiles _ _ _ hitems).1 hreceivers.2.1).1, hdeclared]

end CallLineage.Go.Node
