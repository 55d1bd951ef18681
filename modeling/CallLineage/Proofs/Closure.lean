import CallLineage.Proofs.Assembly
import CallLineage.Proofs.Lineage
/-! Graphs of analysed files are closed, so lineages in them are shortest paths.
Every caller and every callee is declared; a walk over such a graph passes over nothing, and a depth is the length of
a shortest way through the calls. -/
namespace CallLineage

/-- A way of the given number of calls from the first name to the second. -/
inductive CallPath (g : CallGraph) : Nat → String → String → Prop
  | here (name : String) : CallPath g 0 name name
  | call {k : Nat} {caller callee target : String} (edge : g.hasEdge caller callee = true)
      (path : CallPath g k callee target) : CallPath g (k + 1) caller target

/-- Every caller and every callee of the graph is declared, and is a caller of the graph. -/
structure CallGraph.Closed (g : CallGraph) (declarations : DeclarationIndex) : Prop where
  caller : ∀ name, g.contains name = true → declarations.contains name = true
  callee : ∀ name callee, g.hasEdge name callee = true →
    declarations.contains callee = true ∧ g.contains callee = true

namespace CallGraph

theorem contains_of_hasEdge {g : CallGraph} {caller callee : String}
    (h : g.hasEdge caller callee = true) : g.contains caller = true := by
  rw [contains_iff]
  cases hl : g.callees? caller with
  | none => simp [hasEdge, hl] at h
  | some l => exact ⟨l, rfl⟩

theorem Closed.declared_of_hasEdge {g : CallGraph} {declarations : DeclarationIndex}
    (h : g.Closed declarations) {caller callee : String} (he : g.hasEdge caller callee = true) :
    declarations.contains caller = true :=
  h.caller caller (contains_of_hasEdge he)

/-- In a closed graph a chain of declared callers is any way through the calls. -/
theorem Closed.callChain_iff {g : CallGraph} {declarations : DeclarationIndex}
    (h : g.Closed declarations) (origin : String) (k : Nat) (name : String) :
    CallChain g (fun c => declarations.contains c = true) origin k name ↔
      CallPath g k name origin := by
  constructor
  · intro hc
    induction hc with
    | start => exact .here _
    | call _ edge _ ih => exact .call edge ih
  · intro hp
    induction hp with
    | here => exact .start
    | call edge _ ih => exact .call ih edge (h.declared_of_hasEdge edge)

theorem Closed.chainLengths_eq {g : CallGraph} {declarations : DeclarationIndex}
    (h : g.Closed declarations) {origin name : String} (hne : name ≠ origin) :
    CallerIndex.chainLengths g (fun c => declarations.contains c = true) origin none name =
      {k | CallPath g k name origin} := by
  ext k
  simp only [CallerIndex.chainLengths, Set.mem_ofPred_eq, h.callChain_iff]
  constructor
  · rintro ⟨-, -, hp⟩
    exact hp
  · intro hp
    refine ⟨?_, by simp, hp⟩
    cases hp with
    | here => exact absurd rfl hne
    | call => exact Nat.succ_pos _

end CallGraph

namespace Search

/-- Over a closed graph the walk meets declared names only. -/
theorem met_declared_step {g : CallGraph} {declarations : DeclarationIndex}
    (hg : g.Closed declarations) (limit : Option Nat) {s : Search}
    (h : ∀ c ∈ s.met, declarations.contains c = true) :
    ∀ c ∈ (step (CallerIndex.ofGraph g) declarations limit s).met,
      declarations.contains c = true := by
  cases hq : s.queue with
  | nil => simpa [step, hq] using h
  | cons p rest =>
    obtain ⟨name, depth⟩ := p
    rcases limit_cases limit depth with hlimit | hlimit
    · rw [step_of_limit hq hlimit]
      exact h
    · rw [step_of_visit hq hlimit]
      intro c hc
      rcases List.mem_append.1 hc with hc | hc
      · have hd := (mem_unmet.1 (List.mem_reverse.1 hc)).1
        exact hg.declared_of_hasEdge ((CallerIndex.mem_direct_iff _ _ _).1 hd)
      · exact h c hc

theorem met_declared_run {g : CallGraph} {declarations : DeclarationIndex}
    (hg : g.Closed declarations) (limit : Option Nat) (steps : Nat) {s : Search}
    (h : ∀ c ∈ s.met, declarations.contains c = true) :
    ∀ c ∈ (run (CallerIndex.ofGraph g) declarations limit steps s).met,
      declarations.contains c = true := by
  induction steps generalizing s with
  | zero => exact h
  | succ steps ih =>
    rw [run]
    split
    · exact h
    · exact ih (met_declared_step hg limit h)

end Search

namespace Analysis

theorem closed_ofSources (root : Path) (sources : List Go.Source) :
    (ofSources root sources).graph.Closed (ofSources root sources).declarations where
  caller := by
    intro name h
    rwa [ofSources, contains_assemble] at h
  callee := by
    intro name callee h
    have hname : (collect sources).contains name = true := by
      rw [← contains_assemble]
      exact CallGraph.contains_of_hasEdge h
    have hcallee : callee ∈ calleesOf (nodesOf sources) name := by
      simpa [ofSources, CallGraph.hasEdge, callees?_assemble hname] using h
    have hdecl : (collect sources).contains callee = true := by
      rw [contains_collect]
      obtain ⟨⟨d, hd, rfl⟩, -⟩ := (mem_calleesOf_iff _ _ _).1 hcallee
      exact List.any_eq_true.2 ⟨d, hd, by simp⟩
    exact ⟨hdecl, by rw [ofSources, contains_assemble]; exact hdecl⟩

inductive Produced : Analysis → Prop
  | texts {texts : List (Path × String)} {a : Analysis} (h : ofTexts texts = .ok a) : Produced a
  | directory {t : FileTree} {root : Path} {c : DiscoveryConfig} {global : Option Path}
      {a : Analysis} (h : ofDirectory t root c global = .ok a) : Produced a

theorem Produced.exists_sources {a : Analysis} (h : Produced a) :
    ∃ root sources, a = ofSources root sources := by
  cases h with
  | texts h =>
    obtain ⟨sources, -, rfl⟩ := exists_sources_of_ofTexts h
    exact ⟨_, _, rfl⟩
  | @directory t root c global a h =>
    obtain ⟨w, files, sources, -, -, -, ha⟩ := exists_walk_of_ofDirectory h
    exact ⟨w.base, sources, ha⟩

/-- The graph of an analysis is closed. Hence the walk for a lineage meets declared names only, so it never passes
over a caller, and it reports a name with a depth exactly when that is the length of a shortest way through the calls
from the name to the origin. -/
theorem lineage_shortest_of_produced {a : Analysis} (h : Produced a) :
    (∀ name, a.graph.contains name = true → a.declarations.contains name = true) ∧
    (∀ caller callee, a.graph.hasEdge caller callee = true →
      a.declarations.contains callee = true ∧ a.graph.contains callee = true) ∧
    ∀ x, a.declarations.contains x = true →
      (∀ steps, ∀ c ∈ (Search.run (CallerIndex.ofGraph a.graph) a.declarations none steps
        (.start x)).met, a.declarations.contains c = true) ∧
      ∃ l, a.lineage? x none = some l ∧
        ∀ y d, (∃ e ∈ l.callers, e.caller = y ∧ e.depth = d) ↔
          y ≠ x ∧ IsLeast {k | CallPath a.graph k y x} d := by
  obtain ⟨root, sources, rfl⟩ := h.exists_sources
  have hg := closed_ofSources root sources
  have hv : (ofSources root sources).declarations.Valid := valid_collect sources
  refine ⟨hg.caller, hg.callee, ?_⟩
  intro x hx
  refine ⟨fun steps => Search.met_declared_run hg none steps (by simpa [Search.start] using hx), ?_⟩
  cases hl : (ofSources root sources).lineage? x none with
  | none =>
    rw [lineage?, CallerIndex.lineage?_eq_none_iff, hx] at hl
    cases hl
  | some l =>
    refine ⟨l, rfl, ?_⟩
    intro y d
    constructor
    · rintro ⟨e, he, rfl, rfl⟩
      have hne := (CallerIndex.nodup_callers hv hl).2 e he
      rw [← hg.chainLengths_eq hne]
      exact ⟨hne, CallerIndex.depth_isLeast hv hl he⟩
    · rintro ⟨hne, hd⟩
      rw [← hg.chainLengths_eq hne] at hd
      have hy := (CallerIndex.mem_callers_iff hv hl y).2 ⟨hne, d, hd.1⟩
      obtain ⟨e, he, rfl⟩ := List.mem_map.1 hy
      exact ⟨e, he, rfl, (CallerIndex.depth_isLeast hv hl he).unique hd⟩

def circles : FileTree :=
  ⟨.dir [("p", .dir [("a.go",
    .file (Utf8.encode "func A() { B() }\nfunc B() { C(); A() }\nfunc C() { C() }\n"))])], ⟨"/p"⟩⟩

theorem lineage_shortest_of_produced_circles :
    ∃ a, ofDirectory circles ⟨"/p"⟩ .standard none = .ok a ∧
      IsLeast {k | CallPath a.graph k "A" "C"} 2 := by
  have heval : ((ofDirectory circles ⟨"/p"⟩ .standard none).toOption.bind fun a =>
      (a.lineage? "C" none).map fun l => l.callers.map fun e => (e.caller, e.depth)) =
        some [("B", 1), ("A", 2)] := by decide +kernel
  cases ha : ofDirectory circles ⟨"/p"⟩ .standard none with
  | error e => simp [ha, Except.toOption] at heval
  | ok a =>
    simp only [ha, Except.toOption, Option.bind_some, Option.map_eq_some_iff] at heval
    obtain ⟨l, hl, hcallers⟩ := heval
    have hx : a.declarations.contains "C" = true := by
      cases hx : a.declarations.contains "C" with
      | true => rfl
      | false =>
        rw [lineage?, (CallerIndex.lineage?_eq_none_iff _ _ _ _).2 hx] at hl
        cases hl
    obtain ⟨l', hl', hiff⟩ := ((lineage_shortest_of_produced (.directory ha)).2.2 "C" hx).2
    rw [hl] at hl'
    cases hl'
    have hA : ("A", 2) ∈ l.callers.map fun e => (e.caller, e.depth) := by simp [hcallers]
    obtain ⟨e, he, hAe⟩ := List.mem_map.1 hA
    exact ⟨a, rfl, ((hiff "A" 2).1 ⟨e, he, (Prod.mk.inj hAe).1, (Prod.mk.inj hAe).2⟩).2⟩

end Analysis

end CallLineage
