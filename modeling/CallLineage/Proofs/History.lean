import Mathlib.Data.Finset.Card
import CallLineage.Proofs.CallGraph
import CallLineage.Proofs.Utf8
/-! Call graphs after any history of operations.
An operation touches the callees of the one caller it mentions and appends to them what is new, so the graph holds for
every caller the first occurrences of all callees it was given, and the order among operations on different callers
leaves no trace. -/
namespace CallLineage.CallGraph

/-- An operation on a graph: a name that is to be a caller, a call, or the calls of one caller in order. -/
inductive Operation
  | ensureCaller (caller : String)
  | addEdge (caller callee : String)
  | merge (caller : String) (callees : List String)

namespace Operation

def caller : Operation → String
  | ensureCaller caller | addEdge caller _ | merge caller _ => caller

def callees : Operation → List String
  | ensureCaller _ => []
  | addEdge _ callee => [callee]
  | merge _ callees => callees

def apply (g : CallGraph) : Operation → CallGraph
  | ensureCaller caller => g.ensureCaller caller
  | addEdge caller callee => g.addEdge caller callee
  | merge caller callees => g.merge caller callees

/-- An operation appends what is new to the callees of its caller and leaves the others as they were. -/
theorem callees?_apply (g : CallGraph) (op : Operation) (name : String) :
    (apply g op).callees? name =
      if name = op.caller then some (op.callees.foldl appendNew ((g.callees? op.caller).getD []))
      else g.callees? name := by
  cases op with
  | ensureCaller caller => exact callees?_ensureCaller g caller name
  | addEdge caller callee => exact callees?_addEdge g caller callee name
  | merge caller callees => exact callees?_merge g caller name callees

end Operation

/-- How a graph came about: from nothing or from names without callees, by operations in turn. -/
structure History where
  initial : Option (List String)
  operations : List Operation

namespace History

def start (h : History) : CallGraph :=
  match h.initial with
  | none => empty
  | some names => withCallers names

def graph (h : History) : CallGraph := h.operations.foldl Operation.apply h.start

def Mentions (h : History) (name : String) : Prop :=
  name ∈ h.initial.getD [] ∨ ∃ op ∈ h.operations, op.caller = name

instance (h : History) (name : String) : Decidable (h.Mentions name) :=
  inferInstanceAs (Decidable (name ∈ h.initial.getD [] ∨ ∃ op ∈ h.operations, op.caller = name))

def givenBy (ops : List Operation) (caller : String) : List String :=
  (ops.filter fun op => op.caller == caller).flatMap Operation.callees

def given (h : History) (caller : String) : List String := givenBy h.operations caller

def pairs (h : History) : List (String × String) :=
  h.operations.flatMap fun op => op.callees.map fun callee => (op.caller, callee)

theorem mem_pairs_iff (h : History) (caller callee : String) :
    (caller, callee) ∈ h.pairs ↔ callee ∈ h.given caller := by
  simp only [pairs, given, givenBy, List.mem_flatMap, List.mem_map, List.mem_filter, Prod.mk.injEq, beq_iff_eq]
  constructor
  · rintro ⟨op, hop, _, hc, rfl, rfl⟩
    exact ⟨op, ⟨hop, rfl⟩, hc⟩
  · rintro ⟨op, ⟨hop, rfl⟩, hc⟩
    exact ⟨op, hop, callee, hc, rfl, rfl⟩

theorem givenBy_eq_nil {ops : List Operation} {name : String} (h : ¬∃ op ∈ ops, op.caller = name) :
    givenBy ops name = [] := by
  have hnone : ops.filter (fun op => op.caller == name) = [] := by simpa [List.filter_eq_nil_iff] using h
  simp [givenBy, hnone]

/-- A run of operations appends to the callees of a name all that it is given on the way. -/
theorem callees?_foldl_apply (ops : List Operation) (g : CallGraph) (name : String) :
    (ops.foldl Operation.apply g).callees? name =
      if ∃ op ∈ ops, op.caller = name then some ((givenBy ops name).foldl appendNew ((g.callees? name).getD []))
      else g.callees? name := by
  induction ops generalizing g with
  | nil => simp
  | cons op ops ih =>
    rw [List.foldl_cons, ih, Operation.callees?_apply]
    by_cases hop : op.caller = name
    · have hgiven : givenBy (op :: ops) name = op.callees ++ givenBy ops name := by simp [givenBy, hop]
      by_cases hmore : ∃ op ∈ ops, op.caller = name
      · simp [hop, hmore, hgiven]
      · simp [hop, hmore, hgiven, givenBy_eq_nil hmore]
    · have hgiven : givenBy (op :: ops) name = givenBy ops name := by simp [givenBy, hop]
      simp [hop, Ne.symm hop, hgiven]

theorem callees?_start (h : History) (name : String) :
    h.start.callees? name = if name ∈ h.initial.getD [] then some [] else none := by
  unfold start
  cases h.initial with
  | none => rfl
  | some names => simpa using callees?_withCallers names name

/-- Exactly the names that were mentioned are callers, with the first occurrences of what they were given. -/
theorem callees?_graph (h : History) (name : String) :
    h.graph.callees? name = if h.Mentions name then some (h.given name).eraseDups else none := by
  have hstart : (h.start.callees? name).getD [] = [] := by
    rw [callees?_start]
    split <;> rfl
  rw [graph, callees?_foldl_apply, hstart, foldl_appendNew_nil]
  by_cases hops : ∃ op ∈ h.operations, op.caller = name
  · have hmentions : h.Mentions name := .inr hops
    simp [hops, hmentions, given]
  · by_cases hinitial : name ∈ h.initial.getD []
    · have hmentions : h.Mentions name := .inl hinitial
      simp [hops, callees?_start, hinitial, hmentions, given, givenBy_eq_nil hops]
    · have hmentions : ¬h.Mentions name := not_or.2 ⟨hinitial, hops⟩
      simp [hops, callees?_start, hinitial, hmentions]

theorem getD_callees?_graph (h : History) (name : String) :
    (h.graph.callees? name).getD [] = (h.given name).eraseDups := by
  rw [callees?_graph]
  by_cases hmentions : h.Mentions name
  · simp [hmentions]
  · have hops : ¬∃ op ∈ h.operations, op.caller = name := fun hops => hmentions (.inr hops)
    simp [hmentions, given, givenBy_eq_nil hops]

theorem hasEdge_graph (h : History) (caller callee : String) :
    h.graph.hasEdge caller callee = true ↔ (caller, callee) ∈ h.pairs := by
  simp [hasEdge, getD_callees?_graph, mem_pairs_iff, List.mem_eraseDups]

theorem nodup_callees {h : History} {name : String} {callees : List String}
    (hcallees : h.graph.callees? name = some callees) : callees.Nodup := by
  have hdistinct := nodup_eraseDups (h.given name)
  rwa [← getD_callees?_graph, hcallees, Option.getD_some] at hdistinct

/-- No call of the graph comes twice. -/
theorem nodup_calls_graph (h : History) : h.graph.calls.Nodup := by
  rw [calls, List.nodup_flatMap]
  constructor
  · intro e he
    have hcallees : h.graph.callees? e.1 = some e.2 := (h.graph.callers.mem_entries_iff _ _).1 he
    exact (nodup_callees hcallees).map fun a b hab => (Prod.mk.inj hab).2
  · refine h.graph.callers.sorted.imp ?_
    intro a b hab
    simp only [Function.onFun, List.disjoint_left, List.mem_map]
    rintro call ⟨_, _, rfl⟩ ⟨_, _, heq⟩
    rw [(Prod.mk.inj heq).1] at hab
    exact String.lt_irrefl _ hab

/-- What a history leaves behind. The callers are the names that it mentions, in the order of their bytes. Each has the
first occurrences of the callees it was given, and none twice. A call is new to the graph exactly when it was not given
before, so the number of calls is the number of different pairs given. Histories that mention the same names and give each
the same callees in the same order end alike, and in particular operations on different callers may change places. -/
theorem graph_exact (h : History) :
    (∀ name, name ∈ h.graph.toList.map Prod.fst ↔ h.Mentions name) ∧
    (h.graph.toList.map Prod.fst).Pairwise (fun a b => Utf8.encode a < Utf8.encode b) ∧
    (∀ name, h.graph.callees? name = if h.Mentions name then some (h.given name).eraseDups else none) ∧
    (∀ name callees, h.graph.callees? name = some callees → callees.Nodup) ∧
    (∀ caller callee, (h.graph.insertEdge caller callee).2 = true ↔ (caller, callee) ∉ h.pairs) ∧
    h.graph.edgeCount = h.pairs.toFinset.card ∧
    (∀ h' : History, (∀ name, h.Mentions name ↔ h'.Mentions name) → (∀ caller, h.given caller = h'.given caller) →
      h.graph = h'.graph) ∧
    ∀ before op op' after, h.operations = before ++ op :: op' :: after → op.caller ≠ op'.caller →
      h.graph = graph ⟨h.initial, before ++ op' :: op :: after⟩ := by
  have hsame : ∀ h' : History, (∀ name, h.Mentions name ↔ h'.Mentions name) →
      (∀ caller, h.given caller = h'.given caller) → h.graph = h'.graph := by
    intro h' hmentions hgiven
    apply ext_callees?
    intro name
    simp [callees?_graph, hmentions, hgiven]
  refine ⟨?_, ?_, callees?_graph h, ?_, ?_, ?_, hsame, ?_⟩
  · intro name
    have hkeys : name ∈ h.graph.toList.map Prod.fst ↔ h.graph.contains name = true := h.graph.callers.mem_keys_iff name
    rw [hkeys, contains_iff, callees?_graph]
    by_cases hmentions : h.Mentions name <;> simp [hmentions]
  · exact h.graph.callers.keys_sorted.imp Utf8.encode_lt_iff.2
  · intro name callees hcallees
    exact nodup_callees hcallees
  · intro caller callee
    rw [← hasEdge_graph, insertEdge]
    by_cases hedge : h.graph.hasEdge caller callee = true <;> simp [hedge]
  · rw [← length_calls, ← List.toFinset_card_of_nodup h.nodup_calls_graph]
    congr 1
    ext ⟨caller, callee⟩
    simp [mem_calls_iff, getD_callees?_graph, mem_pairs_iff, List.mem_eraseDups]
  · intro before op op' after hops hne
    apply hsame
    · intro name
      have hperm : (before ++ op :: op' :: after).Perm (before ++ op' :: op :: after) :=
        (List.Perm.swap op' op after).append_left before
      simp [Mentions, hops, hperm.mem_iff]
    · intro caller
      rw [given, hops, given]
      by_cases hop : op.caller = caller
      · have hop' : op'.caller ≠ caller := fun heq => hne (hop.trans heq.symm)
        simp [givenBy, hop, hop']
      · simp [givenBy, List.filter_cons, hop]

/-- Operations on three callers in turn, with calls given again, on a graph that begins with two names. -/
def interleaved : History :=
  ⟨some ["b", "a"], [.addEdge "a" "x", .merge "b" ["y", "x", "y"], .ensureCaller "c", .addEdge "a" "x",
    .merge "a" ["b", "x"]]⟩

/-- The same for one caller after another, on a graph that begins empty. -/
def regrouped : History :=
  ⟨none, [.merge "a" ["x", "x", "b", "x"], .merge "b" ["y", "x", "y"], .ensureCaller "c"]⟩

theorem graph_exact_interleaved :
    ((∀ name, interleaved.Mentions name ↔ regrouped.Mentions name) ∧
      ∀ caller, interleaved.given caller = regrouped.given caller) ∧
    interleaved.graph = regrouped.graph ∧ interleaved.graph.callees? "a" = some ["x", "b"] ∧
    interleaved.graph.edgeCount = 4 := by
  have hmentions : ∀ name, interleaved.Mentions name ↔ regrouped.Mentions name := by
    intro name
    simp only [Mentions, interleaved, regrouped, Option.getD_some, Option.getD_none, List.mem_cons, List.not_mem_nil,
      or_false, false_or, exists_eq_or_imp, exists_eq_left, Operation.caller]
    grind
  have hgiven : ∀ caller, interleaved.given caller = regrouped.given caller := by
    intro caller
    by_cases ha : "a" = caller
    · subst ha
      decide
    · by_cases hb : "b" = caller
      · subst hb
        decide
      · by_cases hc : "c" = caller <;>
          simp [given, givenBy, interleaved, regrouped, Operation.caller, Operation.callees, ha, hb, hc]
  obtain ⟨-, -, hcallees, -, -, hcount, hsame, -⟩ := graph_exact interleaved
  refine ⟨⟨hmentions, hgiven⟩, hsame regrouped hmentions hgiven, ?_, ?_⟩
  · rw [hcallees]
    decide
  · rw [hcount]
    decide

end History

end CallLineage.CallGraph
