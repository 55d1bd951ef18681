import CallLineage.Proofs.Assembly
import CallLineage.Proofs.Go.Canonical.File
/-! The analysis of canonical files.
Such files never fail, and their declarations and calls can be read off the way they were written, without a
grammar. -/
namespace CallLineage.Analysis

open Go.Canonical (File Function)

def textsOf (files : List (Path × File)) : List (Path × String) := files.map fun f => (f.1, f.2.text)

def writtenIn (files : List (Path × File)) : List Function := files.flatMap fun f => f.2.functions

/-- What the functions of a name were written to call, as far as it is declared; the first mention of each counts. -/
def writtenCallees (functions : List Function) (name : String) : List String :=
  (((functions.filter fun f => f.qualified == name).flatMap Function.calls).filter
    fun callee => functions.any fun f => f.qualified == callee).eraseDups

theorem declaredIn_textsOf (files : List (Path × File)) :
    (declaredIn (textsOf files)).map (fun d => d.declaration) = files.flatMap (fun f => f.2.declarations f.1) ∧
      (declaredIn (textsOf files)).map (fun d => (d.declaration.name, d.node.targets)) =
        (writtenIn files).map fun f => (f.qualified, f.calls) := by
  induction files with
  | nil => exact ⟨rfl, rfl⟩
  | cons f files ih =>
    obtain ⟨hrecords, hcalls⟩ := (Go.Canonical.sourceTree_text f.2).2.declared f.1
    have hcons : declaredIn (textsOf (f :: files)) =
        (Go.sourceTree f.2.text).namedChildren.filterMap (Go.Source.declaredNode? f.1) ++
          declaredIn (textsOf files) := rfl
    have hwritten : writtenIn (f :: files) = f.2.functions ++ writtenIn files := rfl
    rw [hcons, hwritten, List.map_append, List.map_append, List.map_append, hrecords, hcalls, ih.1, ih.2]
    exact ⟨rfl, rfl⟩

def calleesIn (callers : List (String × List String)) (name : String) : List String :=
  (((callers.filter fun c => c.1 == name).flatMap Prod.snd).filter
    fun callee => callers.any fun c => c.1 == callee).eraseDups

theorem calleesOf_eq_calleesIn (nodes : List Go.DeclaredNode) (name : String) :
    calleesOf nodes name = calleesIn (nodes.map fun d => (d.declaration.name, d.node.targets)) name := by
  simp only [calleesOf, calleesIn, List.filter_map, List.flatMap_map, List.any_map]
  rfl

theorem writtenCallees_eq_calleesIn (functions : List Function) (name : String) :
    writtenCallees functions name = calleesIn (functions.map fun f => (f.qualified, f.calls)) name := by
  simp only [writtenCallees, calleesIn, List.filter_map, List.flatMap_map, List.any_map]
  rfl

theorem declares_textsOf (files : List (Path × File)) (name : String) :
    declares (textsOf files) name = (writtenIn files).any fun f => f.qualified == name := by
  have h := congrArg (fun l => l.any fun c => c.1 == name) (declaredIn_textsOf files).2
  simp only [List.any_map] at h
  exact h

/-- The analysis of files in canonical form: it succeeds; its records are the declarations as they were written, with
the lines of their keywords; and the callees of a name are what its functions were written to call, where that is
declared, in the order of first mention. -/
theorem ofTexts_canonical (files : List (Path × File)) :
    ∃ a, ofTexts (textsOf files) = .ok a ∧
      a.declarations.records = files.flatMap (fun f => f.2.declarations f.1) ∧
      ∀ name, a.graph.callees? name =
        if (writtenIn files).any fun f => f.qualified == name then
          some (writtenCallees (writtenIn files) name)
        else none := by
  have hsound : ∀ t ∈ textsOf files, (Go.sourceTree t.2).firstFault? = none := by
    intro t ht
    obtain ⟨f, -, rfl⟩ := List.mem_map.1 ht
    exact (Go.Canonical.sourceTree_text f.2).1
  obtain ⟨a, ha⟩ := (exists_ofTexts_iff _).2 hsound
  obtain ⟨hrecords, hcallees⟩ := views_of_ofTexts ha
  obtain ⟨hdeclared, hcalls⟩ := declaredIn_textsOf files
  refine ⟨a, ha, ?_, fun name => ?_⟩
  · rw [hrecords, DeclarationIndex.records_ofList, hdeclared]
  · rw [hcallees, declares_textsOf, calleesOf_eq_calleesIn, hcalls, writtenCallees_eq_calleesIn]

end CallLineage.Analysis
