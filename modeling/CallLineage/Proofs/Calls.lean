import CallLineage.Go.Resolution
import CallLineage.Proofs.CallGraph
/-! The calls of a declaration.
`Node.Calls` says which shapes of call name something, and the walk that collects them is compared with the list of
all targets in pre-order. It keeps first occurrences, so the callees under fewer declared names are those under more of
them, less the names that are not declared. -/
namespace CallLineage.Go

namespace Node

/-- A call of a plain name, or of a name selected from a plain name, without type arguments. -/
inductive Calls (call : Node) : String → Prop
  | plain {function : Node} (isCall : call.kind = .callExpression)
      (untyped : call.child? .typeArguments = none) (callee : call.child? .function = some function)
      (isName : function.kind = .identifier) : Calls call function.text
  | selected {function operand name : Node} (isCall : call.kind = .callExpression)
      (untyped : call.child? .typeArguments = none) (callee : call.child? .function = some function)
      (isSelection : function.kind = .selectorExpression)
      (source : function.child? .operand = some operand) (isName : operand.kind = .identifier)
      (what : function.child? .selected = some name) : Calls call (operand.text ++ "." ++ name.text)

theorem target?_eq_some_iff {call : Node} (hk : call.kind = .callExpression) (name : String) :
    call.target? = some name ↔ call.Calls name := by
  constructor
  · intro h
    cases ht : call.child? .typeArguments with
    | some t => simp [target?, ht] at h
    | none =>
      cases hf : call.child? .function with
      | none => simp [target?, ht, hf] at h
      | some f =>
        simp only [target?, ht, hf, Option.isSome_none, Bool.false_eq_true, if_false,
          Option.bind_eq_bind, Option.bind_some] at h
        split at h
        · rename_i hi
          cases h
          exact .plain hk ht hf hi
        · rename_i hs
          cases ho : f.child? .operand with
          | none => simp [ho] at h
          | some o =>
            cases hn : f.child? .selected with
            | none => simp [ho, hn] at h
            | some s =>
              simp only [ho, hn, Option.bind_some, qualifiedName, Option.ite_none_right_eq_some,
                beq_iff_eq, Option.some.injEq] at h
              obtain ⟨hi, rfl⟩ := h
              exact .selected hk ht hf hs ho hi hn
        · cases h
  · intro h
    cases h with
    | plain _ ht hf hi => simp [target?, ht, hf, hi]
    | selected _ ht hf hs ho hi hn => simp [target?, ht, hf, hs, ho, hi, hn, qualifiedName]

theorem mem_targets_iff (n : Node) (name : String) :
    name ∈ n.targets ↔ ∃ call ∈ n.preorder, call.Calls name := by
  simp only [targets, List.mem_filterMap, List.mem_filter, beq_iff_eq]
  constructor
  · rintro ⟨call, ⟨hm, hk⟩, ht⟩
    exact ⟨call, hm, (target?_eq_some_iff hk name).1 ht⟩
  · rintro ⟨call, hm, hc⟩
    have hk : call.kind = .callExpression := by cases hc <;> assumption
    exact ⟨call, ⟨hm, hk⟩, (target?_eq_some_iff hk name).2 hc⟩

def targetsIn (ns : List Node) : List String :=
  ((preorderAll ns).filter fun m => m.kind == .callExpression).filterMap target?

theorem targetsIn_cons (n : Node) (ns : List Node) :
    targetsIn (n :: ns) = n.targets ++ targetsIn ns := by
  simp [targetsIn, targets, preorderAll]

theorem targets_mk (kind : Kind) (field : Option Field) (start : Position) (text : String)
    (faulty : Bool) (children : List Node) :
    (mk kind field start text faulty children).targets =
      (if kind == .callExpression then
        (mk kind field start text faulty children).target?.toList else []) ++ targetsIn children := by
  rw [targets, preorder, List.filter_cons]
  by_cases hk : kind = .callExpression
  · subst hk
    cases ht : (mk .callExpression field start text faulty children).target? <;>
      simp [Node.kind, targetsIn, ht]
  · simp [Node.kind, hk, targetsIn]

mutual

/-- The walk appends, one after another, the declared names among the targets of the tree. -/
theorem collectCalls_eq (declared : String → Bool) : ∀ (n : Node) (callees : List String),
    n.collectCalls declared callees = (n.targets.filter declared).foldl appendNew callees
  | mk kind field start text faulty children, callees => by
    rw [collectCalls, collectCallsIn_eq declared children, targets_mk, List.filter_append,
      List.foldl_append]
    congr 1
    by_cases hk : kind = .callExpression
    · subst hk
      cases (mk .callExpression field start text faulty children).target? with
      | none => simp
      | some name => by_cases hd : declared name <;> simp [hd]
    · simp [hk]

theorem collectCallsIn_eq (declared : String → Bool) : ∀ (ns : List Node) (callees : List String),
    collectCallsIn declared ns callees = ((targetsIn ns).filter declared).foldl appendNew callees
  | [], callees => by simp [collectCallsIn, targetsIn, preorderAll]
  | n :: ns, callees => by
    rw [collectCallsIn, collectCallsIn_eq declared ns, collectCalls_eq declared n, targetsIn_cons,
      List.filter_append, List.foldl_append]

end

/-- The walk leaves the names it was given, followed by the first occurrences of the declared targets that are not among
them. -/
theorem collectCalls_eq_append (declared : String → Bool) (n : Node) (callees : List String) :
    n.collectCalls declared callees =
      callees ++ (n.targets.filter fun name => declared name && !callees.contains name).eraseDups := by
  rw [collectCalls_eq, foldl_appendNew_eq, List.filter_filter]
  simp only [Bool.and_comm]

theorem collectCalls_nil (declared : String → Bool) (n : Node) :
    n.collectCalls declared [] = (n.targets.filter declared).eraseDups := by
  rw [collectCalls_eq, foldl_appendNew_nil]

theorem nodup_collectCalls {callees : List String} (h : callees.Nodup) (declared : String → Bool) (n : Node) :
    (n.collectCalls declared callees).Nodup := by
  rw [collectCalls_eq]
  exact nodup_foldl_appendNew h

/-- With fewer declared names some callees are missing, and the others stand as before. -/
theorem filter_collectCalls {declared more : String → Bool} (h : ∀ name, declared name = true → more name = true)
    (n : Node) : (n.collectCalls more []).filter declared = n.collectCalls declared [] := by
  rw [collectCalls_nil, collectCalls_nil, filter_eraseDups, List.filter_filter]
  congr 2
  funext name
  cases hd : declared name with
  | true => rw [h name hd]; rfl
  | false => rfl

end Node

namespace Source

/-- Collecting the calls of a tree leaves a list of distinct names followed by the declared names among the targets of
its calls, in pre-order and each where it comes first, less those that were in the list. So with fewer declared names
the declarations of a file are the same callers in the same order, and each keeps those of its callees that are still
declared. -/
theorem edges_collected_in_order :
    (∀ (declared : String → Bool) (n : Node) (callees : List String), callees.Nodup →
      n.collectCalls declared callees =
          callees ++ (n.targets.filter fun name => declared name && !callees.contains name).eraseDups ∧
        (n.collectCalls declared callees).Nodup) ∧
    ∀ (s : Source) (declared more : String → Bool), (∀ name, declared name = true → more name = true) →
      s.edges declared = (s.edges more).map fun e => ⟨e.caller, e.callees.filter declared⟩ := by
  constructor
  · intro declared n callees hdistinct
    exact ⟨n.collectCalls_eq_append declared callees, n.nodup_collectCalls hdistinct declared⟩
  · intro s declared more hmore
    rw [edges, edges, List.map_map]
    apply List.map_congr_left
    intro d _
    rw [Function.comp, d.node.filter_collectCalls hmore]

/-- A function that repeats its calls in a deferred call, in arguments, in a closure and in a callee, and a method of
the name that one of them selects. -/
def nestedCalls : Source :=
  let text := "func run() { defer c(b(), c()); func() { a.f(b()) }(); b()(a.f) }\nfunc (a) f() { run() }\n"
  ⟨⟨"nested.go"⟩, text, sourceTree text⟩

theorem edges_collected_in_order_nestedCalls :
    (["b"].Nodup ∧ nestedCalls.tree.collectCalls ["run", "b", "c"].contains ["b"] = ["b", "c", "run"]) ∧
    (∀ name, ["a.f", "b"].contains name = true → ["a.f", "b", "c"].contains name = true) ∧
    nestedCalls.edges ["a.f", "b", "c"].contains = [⟨"run", ["c", "b", "a.f"]⟩, ⟨"a.f", []⟩] ∧
    nestedCalls.edges ["a.f", "b"].contains = [⟨"run", ["b", "a.f"]⟩, ⟨"a.f", []⟩] := by
  obtain ⟨hcollected, hedges⟩ := edges_collected_in_order
  have hmore : ∀ name, ["a.f", "b"].contains name = true → ["a.f", "b", "c"].contains name = true := by
    simp only [List.contains_iff_mem]
    exact fun name hname => List.mem_append_left ["c"] hname
  have heval : nestedCalls.tree.targets = ["c", "b", "c", "a.f", "b", "b", "run"] ∧
      nestedCalls.edges ["a.f", "b", "c"].contains = [⟨"run", ["c", "b", "a.f"]⟩, ⟨"a.f", []⟩] := by decide +kernel
  refine ⟨⟨by decide, ?_⟩, hmore, heval.2, ?_⟩
  · rw [(hcollected ["run", "b", "c"].contains nestedCalls.tree ["b"] (by decide)).1, heval.1]
    decide
  · rw [hedges nestedCalls _ _ hmore, heval.2]
    decide

end Source

end CallLineage.Go
