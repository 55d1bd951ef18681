import Mathlib.Data.List.Induction
import CallLineage.CallGraph
import CallLineage.Proofs.SortedMap
/-! The callees that a call graph holds after its operations.
Appending names one by one keeps each where it came first, so any history of merges leaves every caller with the
first occurrences among all names it was given. -/
namespace CallLineage

/-! ## First occurrences -/

theorem mem_appendNew {names : List String} {name x : String} :
    x ∈ appendNew names name ↔ x ∈ names ∨ x = name := by
  unfold appendNew
  split
  · rename_i h
    have hm : name ∈ names := by simpa using h
    constructor
    · exact Or.inl
    · rintro (hx | rfl)
      · exact hx
      · exact hm
  · simp

theorem mem_foldl_appendNew {l acc : List String} {x : String} :
    x ∈ l.foldl appendNew acc ↔ x ∈ acc ∨ x ∈ l := by
  induction l generalizing acc with
  | nil => simp
  | cons a l ih => simp [ih, mem_appendNew, or_assoc]

/-- Appending names in turn leaves those that were there, followed by the first occurrences of the new ones. -/
theorem foldl_appendNew_eq (l acc : List String) :
    l.foldl appendNew acc = acc ++ (l.filter fun x => !acc.contains x).eraseDups := by
  induction l generalizing acc with
  | nil => simp
  | cons a l ih =>
    rw [List.foldl_cons, ih, appendNew]
    by_cases h : acc.contains a
    · have hm : a ∈ acc := by simpa using h
      simp [hm]
    · have hf : (l.filter fun x => !(acc ++ [a]).contains x) =
          (l.filter fun x => !acc.contains x).filter fun x => !x == a := by
        rw [List.filter_filter]
        apply List.filter_congr
        intro x _
        by_cases hx : x = a <;> simp [hx]
      simp only [h, Bool.false_eq_true, if_false, hf]
      rw [List.filter_cons_of_pos (by simpa using h), List.eraseDups_cons]
      simp

theorem foldl_appendNew_nil (l : List String) : l.foldl appendNew [] = l.eraseDups := by
  have hf : (l.filter fun x => !([] : List String).contains x) = l :=
    List.filter_eq_self.2 (by simp)
  rw [foldl_appendNew_eq, hf, List.nil_append]

theorem nodup_appendNew {names : List String} (h : names.Nodup) (name : String) :
    (appendNew names name).Nodup := by
  unfold appendNew
  split
  · exact h
  · rename_i hn
    have hm : name ∉ names := by simpa using hn
    rw [List.nodup_append]
    refine ⟨h, by simp, ?_⟩
    rintro a ha b hb rfl
    exact hm (by simpa using List.mem_singleton.1 hb ▸ ha)

theorem nodup_foldl_appendNew {l acc : List String} (h : acc.Nodup) :
    (l.foldl appendNew acc).Nodup := by
  induction l generalizing acc with
  | nil => exact h
  | cons a l ih => exact ih (nodup_appendNew h a)

theorem nodup_eraseDups (l : List String) : l.eraseDups.Nodup := by
  rw [← foldl_appendNew_nil]
  exact nodup_foldl_appendNew List.nodup_nil

theorem sublist_eraseDups (l : List String) : l.eraseDups.Sublist l := by
  rw [← foldl_appendNew_nil]
  induction l using List.reverseRecOn with
  | nil => exact List.Sublist.refl []
  | append_singleton l a ih =>
    rw [List.foldl_append, List.foldl_cons, List.foldl_nil, appendNew]
    split
    · exact ih.trans (List.sublist_append_left l [a])
    · exact ih.append (List.Sublist.refl [a])

/-- A list may be replaced by its first occurrences before it is appended. -/
theorem foldl_appendNew_foldl (l acc : List String) :
    (l.foldl appendNew []).foldl appendNew acc = l.foldl appendNew acc := by
  induction l using List.reverseRecOn with
  | nil => rfl
  | append_singleton l a ih =>
    simp only [List.foldl_append, List.foldl_cons, List.foldl_nil]
    by_cases h : a ∈ l
    · have h₁ : a ∈ l.foldl appendNew [] := by simp [mem_foldl_appendNew, h]
      have h₂ : a ∈ l.foldl appendNew acc := by simp [mem_foldl_appendNew, h]
      rw [appendNew, appendNew]
      simp [h₁, h₂, ih]
    · have h₁ : a ∉ l.foldl appendNew [] := by simp [mem_foldl_appendNew, h]
      rw [appendNew]
      simp [h₁, ih]

theorem filter_foldl_appendNew (p : String → Bool) (l acc : List String) :
    (l.foldl appendNew acc).filter p = (l.filter p).foldl appendNew (acc.filter p) := by
  induction l generalizing acc with
  | nil => rfl
  | cons a l ih =>
    have hstep : (appendNew acc a).filter p =
        if p a then appendNew (acc.filter p) a else acc.filter p := by
      by_cases hp : p a <;> by_cases ha : a ∈ acc <;> simp [appendNew, hp, ha]
    rw [List.foldl_cons, ih, hstep]
    by_cases hp : p a <;> simp [hp]

theorem filter_eraseDups (p : String → Bool) (l : List String) :
    l.eraseDups.filter p = (l.filter p).eraseDups := by
  rw [← foldl_appendNew_nil, filter_foldl_appendNew, List.filter_nil, foldl_appendNew_nil]

namespace CallGraph

theorem ext_callees? {g g' : CallGraph} (h : ∀ name, g.callees? name = g'.callees? name) : g = g' := by
  cases g
  cases g'
  congr
  exact SortedMap.ext_get? h

/-- The number of calls hangs only on how many callees each caller has. -/
theorem edgeCount_eq {g g' : CallGraph}
    (h : ∀ name, (g.callees? name).map List.length = (g'.callees? name).map List.length) :
    g.edgeCount = g'.edgeCount := by
  have hsum : ∀ g : CallGraph,
      g.edgeCount = (g.callers.entries.map fun e => (e.1, e.2.length)).foldr (fun e n => e.2 + n) 0 := by
    intro g
    rw [List.foldr_map]
    rfl
  rw [hsum, hsum, SortedMap.map_entries_eq List.length List.length h]

/-! ## Operations -/

theorem contains_iff (g : CallGraph) (name : String) :
    g.contains name = true ↔ ∃ l, g.callees? name = some l := by
  simp [contains, SortedMap.contains, callees?, Option.isSome_iff_exists]

theorem callees?_withCallers (names : List String) (name : String) :
    (withCallers names).callees? name = if name ∈ names then some [] else none := by
  have h : ∀ (m : SortedMap (List String)),
      (names.foldl (fun m n => m.insert n []) m).get? name =
        if name ∈ names then some [] else m.get? name := by
    induction names with
    | nil => simp
    | cons n names ih =>
      intro m
      rw [List.foldl_cons, ih]
      by_cases h₁ : name ∈ names <;> by_cases h₂ : name = n <;> simp [h₁, h₂]
  simpa [callees?, withCallers] using h .empty

theorem callees?_ensureCaller (g : CallGraph) (caller name : String) :
    (g.ensureCaller caller).callees? name =
      if name = caller then some ((g.callees? caller).getD []) else g.callees? name := by
  simp [callees?, ensureCaller]

theorem callees?_addEdge (g : CallGraph) (caller callee name : String) :
    (g.addEdge caller callee).callees? name =
      if name = caller then some (appendNew ((g.callees? caller).getD []) callee)
      else g.callees? name := by
  by_cases hedge : callee ∈ (g.callees? caller).getD []
  · -- A caller without callees has no such edge, so the caller is there and stays as it is.
    obtain ⟨old, hold⟩ : ∃ old, g.callees? caller = some old := by
      cases h : g.callees? caller with
      | none => simp [h] at hedge
      | some old => exact ⟨old, rfl⟩
    rw [hold, Option.getD_some] at hedge
    by_cases hn : name = caller
    · simp [addEdge, insertEdge, hasEdge, appendNew, hn, hold, hedge]
    · simp [addEdge, insertEdge, hasEdge, hn, hold, hedge]
  · have hedge' : g.hasEdge caller callee = false := by simpa [hasEdge] using hedge
    simp only [addEdge, insertEdge, hedge', appendNew]
    simp [callees?] at hedge ⊢
    simp [hedge]

theorem callees?_merge (g : CallGraph) (caller name : String) (callees : List String) :
    (g.merge caller callees).callees? name =
      if name = caller then some (callees.foldl appendNew ((g.callees? caller).getD []))
      else g.callees? name := by
  have h : ∀ (g : CallGraph) (old : List String), g.callees? caller = some old →
      (callees.foldl (fun g callee => g.addEdge caller callee) g).callees? name =
        if name = caller then some (callees.foldl appendNew old) else g.callees? name := by
    induction callees with
    | nil =>
      intro g old hold
      by_cases hn : name = caller
      · subst hn
        simpa using hold
      · simp [hn]
    | cons a callees ih =>
      intro g old hold
      have hstep : (g.addEdge caller a).callees? caller = some (appendNew old a) := by
        simp [callees?_addEdge, hold]
      rw [List.foldl_cons, ih _ _ hstep, callees?_addEdge]
      by_cases hn : name = caller <;> simp [hn]
  rw [merge, h _ ((g.callees? caller).getD []) (by simp [callees?_ensureCaller]),
    callees?_ensureCaller]
  by_cases hn : name = caller <;> simp [hn]

/-- Callers with what each of them calls, merged one after another. A caller that was there or comes among them
ends with the first occurrences of all it was given. -/
theorem callees?_foldl_merge {β : Type} (caller : β → String) (callees : β → List String)
    (es : List β) (g : CallGraph) (name : String) (old : List String)
    (hold : g.callees? name = some old) :
    (es.foldl (fun g e => g.merge (caller e) (callees e)) g).callees? name =
      some (((es.filter fun e => caller e == name).flatMap callees).foldl appendNew old) := by
  induction es generalizing g old with
  | nil => simpa using hold
  | cons e es ih =>
    rw [List.foldl_cons]
    by_cases h : caller e = name
    · have hstep : (g.merge (caller e) (callees e)).callees? name =
          some ((callees e).foldl appendNew old) := by
        simp [callees?_merge, h, hold]
      rw [ih _ _ hstep]
      simp [h]
    · have hstep : (g.merge (caller e) (callees e)).callees? name = some old := by
        rw [callees?_merge]
        simp [Ne.symm h, hold]
      rw [ih _ _ hstep]
      simp [h]

theorem callees?_foldl_merge_none {β : Type} (caller : β → String) (callees : β → List String)
    (es : List β) (g : CallGraph) (name : String) (hold : g.callees? name = none)
    (hes : ∀ e ∈ es, caller e ≠ name) :
    (es.foldl (fun g e => g.merge (caller e) (callees e)) g).callees? name = none := by
  induction es generalizing g with
  | nil => simpa using hold
  | cons e es ih =>
    have hne : name ≠ caller e := fun h => hes e (by simp) h.symm
    rw [List.foldl_cons]
    apply ih
    · rw [callees?_merge]
      simp [hne, hold]
    · intro e' he'
      exact hes e' (by simp [he'])

/-! ## Calls -/

/-- All calls: callers in their order, and the callees of each in theirs. -/
def calls (g : CallGraph) : List (String × String) :=
  g.toList.flatMap fun e => e.2.map fun callee => (e.1, callee)

theorem mem_calls_iff (g : CallGraph) (caller callee : String) :
    (caller, callee) ∈ g.calls ↔ callee ∈ (g.callees? caller).getD [] := by
  simp only [calls, toList, List.mem_flatMap, List.mem_map, Prod.mk.injEq]
  constructor
  · rintro ⟨⟨name, callees⟩, he, _, hc, rfl, rfl⟩
    have hname : g.callees? name = some callees := (g.callers.mem_entries_iff _ _).1 he
    simpa [hname] using hc
  · intro hc
    cases hcallees : g.callees? caller with
    | none => simp [hcallees] at hc
    | some callees =>
      rw [hcallees, Option.getD_some] at hc
      exact ⟨(caller, callees), (g.callers.mem_entries_iff _ _).2 hcallees, callee, hc, rfl, rfl⟩

theorem length_calls (g : CallGraph) : g.calls.length = g.edgeCount := by
  simp only [calls, edgeCount, toList]
  induction g.callers.entries with
  | nil => rfl
  | cons e entries ih => simp [ih]

/-- The callees of a caller stand in the calls, in order, beside its name and no other. -/
theorem map_filter_calls {g : CallGraph} {caller : String} {callees : List String}
    (h : g.callees? caller = some callees) :
    (g.calls.filter fun call => call.1 == caller).map Prod.snd = callees := by
  have hmem : (caller, callees) ∈ g.toList := (g.callers.mem_entries_iff _ _).2 h
  have hsorted : g.toList.Pairwise fun a b => a.1 < b.1 := g.callers.sorted
  have hother : ∀ entries : List (String × List String), (∀ e ∈ entries, e.1 ≠ caller) →
      (entries.flatMap fun e => e.2.map fun callee => (e.1, callee)).filter (fun call => call.1 == caller) = [] := by
    intro entries hne
    simp only [List.filter_eq_nil_iff, List.mem_flatMap, List.mem_map]
    rintro call ⟨e, he, callee, -, rfl⟩
    simpa using hne e he
  have hself : (callees.map fun callee => (caller, callee)).filter (fun call => call.1 == caller) =
      callees.map fun callee => (caller, callee) := by
    simp [List.filter_eq_self]
  obtain ⟨before, after, heq⟩ := List.append_of_mem hmem
  rw [heq, List.pairwise_append, List.pairwise_cons] at hsorted
  obtain ⟨-, ⟨hafter, -⟩, hbefore⟩ := hsorted
  have hne : ∀ {a b : String}, a < b → a ≠ b := by
    rintro a _ hab rfl
    exact String.lt_irrefl _ hab
  rw [calls, heq, List.flatMap_append, List.flatMap_cons, List.filter_append, List.filter_append, hself,
    hother before fun e he => hne (hbefore e he _ List.mem_cons_self),
    hother after fun e he => (hne (hafter e he)).symm]
  simp [Function.comp_def]

/-- Callers and calls determine a graph. -/
theorem ext_calls {g g' : CallGraph} (hcallers : g.toList.map Prod.fst = g'.toList.map Prod.fst)
    (hcalls : g.calls = g'.calls) : g = g' := by
  apply ext_callees?
  intro name
  have hcontains : ∀ g : CallGraph, name ∈ g.toList.map Prod.fst ↔ ∃ callees, g.callees? name = some callees := by
    intro g
    rw [← contains_iff]
    exact g.callers.mem_keys_iff name
  cases h : g.callees? name with
  | some callees =>
    obtain ⟨callees', h'⟩ := (hcontains g').1 (hcallers ▸ (hcontains g).2 ⟨callees, h⟩)
    rw [h', ← map_filter_calls h, ← map_filter_calls h', hcalls]
  | none =>
    cases h' : g'.callees? name with
    | none => rfl
    | some callees' =>
      obtain ⟨callees, hsome⟩ := (hcontains g).1 (hcallers ▸ (hcontains g').2 ⟨callees', h'⟩)
      rw [h] at hsome
      cases hsome

end CallGraph

end CallLineage
