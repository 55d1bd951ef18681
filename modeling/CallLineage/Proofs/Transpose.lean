import Mathlib.Algebra.BigOperators.Group.Finset.Basic
import CallLineage.Proofs.Search
import CallLineage.Proofs.Utf8
/-! Callers against callees.
Turning a graph around keeps its calls: the direct callers of a name stand beside it in the list of all calls, as the
callees of a name do, only on the other side. -/
namespace CallLineage

/-- Callers come in order among the calls. -/
theorem CallGraph.pairwise_calls (g : CallGraph) : g.calls.Pairwise fun call call' => call.1 ≤ call'.1 := by
  rw [calls, List.pairwise_flatMap]
  constructor
  · intro e _
    rw [List.pairwise_map]
    exact List.pairwise_of_forall fun _ _ => String.le_refl _
  · refine g.callers.sorted.imp ?_
    intro e e' hlt call hcall call' hcall'
    obtain ⟨callee, -, rfl⟩ := List.mem_map.1 hcall
    obtain ⟨callee', -, rfl⟩ := List.mem_map.1 hcall'
    exact String.not_lt.1 (String.lt_asymm hlt)

theorem CallGraph.map_snd_calls (g : CallGraph) : g.calls.map Prod.snd = g.toList.flatMap Prod.snd := by
  simp [calls, List.map_flatMap, Function.comp_def]

/-- The callees of a name, none if it is no caller, stand beside it among the calls. -/
theorem CallGraph.count_callees? (g : CallGraph) (caller callee : String) :
    ((g.callees? caller).getD []).count callee = g.calls.count (caller, callee) := by
  cases h : g.callees? caller with
  | none =>
    have hnone : (caller, callee) ∉ g.calls := by simp [mem_calls_iff, h]
    rw [List.count_eq_zero_of_not_mem hnone]
    rfl
  | some callees =>
    rw [Option.getD_some, ← map_filter_calls h, List.count, List.countP_map, List.countP_filter, List.count]
    apply List.countP_congr
    rintro ⟨a, b⟩ _
    simp [and_comm]

namespace CallerIndex

/-- The direct callers of a name stand beside it among the calls, in order. -/
theorem direct_eq_map_filter_calls (g : CallGraph) (callee : String) :
    (ofGraph g).direct callee = (g.calls.filter fun call => call.2 == callee).map Prod.fst := by
  rw [direct_ofGraph, CallGraph.calls]
  induction g.toList with
  | nil => rfl
  | cons e entries ih =>
    have hfirst : ((e.2.map fun c => (e.1, c)).filter fun call => call.2 == callee).map Prod.fst =
        List.replicate (e.2.count callee) e.1 := by
      rw [List.filter_map, List.map_map, List.count_eq_length_filter, ← List.map_const']
      rfl
    rw [List.flatMap_cons, List.flatMap_cons, List.filter_append, List.map_append, hfirst, ih]

theorem count_direct (g : CallGraph) (caller callee : String) :
    ((ofGraph g).direct callee).count caller = g.calls.count (caller, callee) := by
  rw [direct_eq_map_filter_calls, List.count, List.countP_map, List.countP_filter, List.count]
  apply List.countP_congr
  rintro ⟨a, b⟩ _
  simp

theorem length_direct (g : CallGraph) (callee : String) :
    ((ofGraph g).direct callee).length = (g.calls.map Prod.snd).count callee := by
  rw [direct_eq_map_filter_calls, List.length_map, List.count, List.countP_map, List.countP_eq_length_filter]
  rfl

/-- Direct callers come in order. -/
theorem pairwise_direct (g : CallGraph) (callee : String) : ((ofGraph g).direct callee).Pairwise (· ≤ ·) := by
  rw [direct_eq_map_filter_calls, List.pairwise_map]
  exact g.pairwise_calls.filter _

/-- The index is the graph turned around. A name is among the direct callers of another as often as it names that one
among its callees, and not at all if it is no caller. Direct callers come in the order of their bytes. All direct
callers of all names that are called make up the calls of the graph. -/
theorem direct_transposes (g : CallGraph) :
    (∀ caller callee, ((ofGraph g).direct callee).count caller = ((g.callees? caller).getD []).count callee) ∧
    (∀ callee, ((ofGraph g).direct callee).Pairwise fun a b => Utf8.encode a ≤ Utf8.encode b) ∧
    ∑ callee ∈ (g.toList.flatMap Prod.snd).toFinset, ((ofGraph g).direct callee).length = g.edgeCount := by
  refine ⟨?_, ?_, ?_⟩
  · intro caller callee
    rw [count_direct, CallGraph.count_callees?]
  · intro callee
    refine (pairwise_direct g callee).imp ?_
    intro a b hab
    exact List.not_lt.1 fun hlt => String.not_lt.2 hab (Utf8.encode_lt_iff.1 hlt)
  · have hlength : ∀ callee, ((ofGraph g).direct callee).length = (g.toList.flatMap Prod.snd).count callee := by
      intro callee
      rw [length_direct, CallGraph.map_snd_calls]
    simp only [hlength, List.sum_toFinset_count_eq_length]
    rw [← CallGraph.map_snd_calls, List.length_map, CallGraph.length_calls]

/-- A callee that is named twice gives its caller twice, between the callers before and after it. -/
example :
    (ofGraph ⟨((SortedMap.empty.insert "b" ["x", "y", "x"]).insert "a" ["x"]).insert "c" ["y", "x"]⟩).direct "x" =
      ["a", "b", "b", "c"] := by
  decide +kernel

end CallerIndex

end CallLineage
