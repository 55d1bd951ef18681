import CallLineage.Corpus
import CallLineage.Proofs.Calls
import CallLineage.Proofs.Declaration
/-! The call graph of a set of files is the one their texts prescribe.
Both passes are read as one: `calleesOf` says in a single step what the callees of a name have to be, and the fold over
files, the walk over each declaration and the merges together give exactly that. -/
namespace CallLineage.Analysis

open Go (DeclaredNode)

/-- What the declarations of a name call: of all their calls, in order, those of declared names, each where it comes
first. -/
def calleesOf (nodes : List DeclaredNode) (name : String) : List String :=
  (((nodes.filter fun d => d.declaration.name == name).flatMap fun d => d.node.targets).filter
    fun callee => nodes.any fun d => d.declaration.name == callee).eraseDups

def nodesOf (sources : List Go.Source) : List DeclaredNode :=
  sources.flatMap fun s => s.declaredNodes

/-! ## The first pass -/

theorem collect_eq (sources : List Go.Source) :
    collect sources = .ofList ((nodesOf sources).map fun d => d.declaration) := by
  have h : ∀ x : DeclarationIndex, sources.foldl (fun x s => x.extend s.declarations) x =
      x.extend ((nodesOf sources).map fun d => d.declaration) := by
    induction sources with
    | nil => intro x; rfl
    | cons s sources ih =>
      intro x
      rw [List.foldl_cons, ih]
      simp only [nodesOf, List.flatMap_cons, List.map_append, DeclarationIndex.extend_append]
      rfl
  exact h .empty

theorem valid_collect (sources : List Go.Source) : (collect sources).Valid := by
  rw [collect_eq]
  exact DeclarationIndex.valid_ofList _

theorem records_collect (sources : List Go.Source) :
    (collect sources).records = (nodesOf sources).map fun d => d.declaration := by
  rw [collect_eq, DeclarationIndex.records_ofList]

theorem contains_collect (sources : List Go.Source) (name : String) :
    (collect sources).contains name = (nodesOf sources).any fun d => d.declaration.name == name := by
  rw [Bool.eq_iff_iff, DeclarationIndex.contains_iff_exists (valid_collect sources), records_collect]
  simp

/-! ## The second pass -/

theorem assemble_eq (sources : List Go.Source) (declarations : DeclarationIndex) :
    assemble sources declarations =
      (nodesOf sources).foldl
        (fun g d => g.merge d.declaration.name (d.node.collectCalls declarations.contains []))
        (.withCallers declarations.names) := by
  unfold assemble nodesOf
  generalize CallGraph.withCallers declarations.names = g
  induction sources generalizing g with
  | nil => rfl
  | cons s sources ih =>
    rw [List.foldl_cons, ih, List.flatMap_cons, List.foldl_append, Go.Source.edges, List.foldl_map]

theorem callees?_assemble {sources : List Go.Source} {name : String}
    (h : (collect sources).contains name = true) :
    (assemble sources (collect sources)).callees? name = some (calleesOf (nodesOf sources) name) := by
  have hstart : (CallGraph.withCallers (collect sources).names).callees? name = some [] := by
    rw [CallGraph.callees?_withCallers, if_pos ((DeclarationIndex.mem_names_iff _ _).2 h)]
  -- The walk has removed repetitions within a declaration; appending does not see the difference.
  have hnodes : ∀ (nodes : List DeclaredNode) (acc : List String),
      (nodes.flatMap fun d => d.node.collectCalls (collect sources).contains []).foldl appendNew acc =
        ((nodes.flatMap fun d => d.node.targets).filter (collect sources).contains).foldl
          appendNew acc := by
    intro nodes
    induction nodes with
    | nil => intro acc; rfl
    | cons d nodes ih =>
      intro acc
      simp only [List.flatMap_cons, List.foldl_append, List.filter_append]
      rw [Go.Node.collectCalls_eq, foldl_appendNew_foldl, ih]
  rw [assemble_eq, CallGraph.callees?_foldl_merge (fun d : DeclaredNode => d.declaration.name) _ _ _
    _ _ hstart, hnodes, foldl_appendNew_nil, calleesOf, funext (contains_collect sources)]

theorem callees?_assemble_none {sources : List Go.Source} {name : String}
    (h : (collect sources).contains name = false) :
    (assemble sources (collect sources)).callees? name = none := by
  have hstart : (CallGraph.withCallers (collect sources).names).callees? name = none := by
    rw [CallGraph.callees?_withCallers, if_neg]
    rw [DeclarationIndex.mem_names_iff, h]
    simp
  rw [assemble_eq]
  apply CallGraph.callees?_foldl_merge_none (fun d : DeclaredNode => d.declaration.name) _ _ _ _ hstart
  intro d hd he
  rw [contains_collect, List.any_eq_false] at h
  exact h d hd (by simp [he])

theorem contains_assemble (sources : List Go.Source) (name : String) :
    (assemble sources (collect sources)).contains name = (collect sources).contains name := by
  rw [Bool.eq_iff_iff, CallGraph.contains_iff]
  cases h : (collect sources).contains name with
  | false => simp [callees?_assemble_none h]
  | true => simp [callees?_assemble h]

theorem mem_calleesOf_iff (nodes : List DeclaredNode) (name callee : String) :
    callee ∈ calleesOf nodes name ↔
      (∃ d ∈ nodes, d.declaration.name = callee) ∧
        ∃ d ∈ nodes, d.declaration.name = name ∧ ∃ call ∈ d.node.preorder, call.Calls callee := by
  simp only [calleesOf, List.mem_eraseDups, List.mem_filter, List.mem_flatMap,
    Go.Node.mem_targets_iff, List.any_eq_true, beq_iff_eq]
  constructor
  · rintro ⟨⟨d, ⟨hd, hn⟩, hc⟩, hdecl⟩
    exact ⟨hdecl, d, hd, hn, hc⟩
  · rintro ⟨hdecl, d, hd, hn, hc⟩
    exact ⟨⟨d, ⟨hd, hn⟩, hc⟩, hdecl⟩

/-! ## Directories -/

/-- The analysis of a directory is the analysis of the files of a walk. -/
theorem exists_walk_of_ofDirectory {t : FileTree} {root : Path} {c : DiscoveryConfig} {global : Option Path}
    {a : Analysis} (h : ofDirectory t root c global = .ok a) :
    ∃ w files sources, SourceWalk.prepare t root c = .ok w ∧ w.files t global = .ok files ∧
      files.mapM (Go.Source.load t w.base) = .ok sources ∧ a = ofSources w.base sources := by
  simp only [ofDirectory, ofFiles, bind, Except.bind, pure, Except.pure] at h
  split at h
  · cases h
  · rename_i w hw
    split at h
    · cases h
    · rename_i files hfiles
      split at h
      · cases h
      · rename_i sources hsources
        cases h
        exact ⟨w, files, sources, hw, hfiles, hsources, rfl⟩

/-! ## Texts -/

def declaredIn (texts : List (Path × String)) : List DeclaredNode :=
  texts.flatMap fun t => (Go.sourceTree t.2).namedChildren.filterMap (Go.Source.declaredNode? t.1)

theorem eq_of_parse_eq_ok {path : Path} {text : String} {s : Go.Source}
    (h : Go.Source.parse path text = .ok s) : s = ⟨path, text, Go.sourceTree text⟩ := by
  simp only [Go.Source.parse] at h
  split at h
  · cases h
  · exact (Except.ok.inj h).symm

theorem nodesOf_of_mapM_parse {texts : List (Path × String)} {sources : List Go.Source}
    (h : texts.mapM (fun t => Go.Source.parse t.1 t.2) = .ok sources) :
    nodesOf sources = declaredIn texts := by
  induction texts generalizing sources with
  | nil =>
    cases h
    rfl
  | cons t texts ih =>
    rw [List.mapM_cons] at h
    cases hs : Go.Source.parse t.1 t.2 with
    | error e => simp [hs, bind, Except.bind] at h
    | ok s =>
      cases hr : texts.mapM fun t => Go.Source.parse t.1 t.2 with
      | error e => simp [hs, hr, bind, Except.bind] at h
      | ok rest =>
        simp only [hs, hr, bind, Except.bind, pure, Except.pure] at h
        cases h
        have hd := ih hr
        simp only [nodesOf, declaredIn, List.flatMap_cons] at hd ⊢
        rw [hd, eq_of_parse_eq_ok hs]
        rfl

theorem exists_sources_of_ofTexts {texts : List (Path × String)} {a : Analysis}
    (h : ofTexts texts = .ok a) :
    ∃ sources, nodesOf sources = declaredIn texts ∧ a = ofSources ⟨""⟩ sources := by
  cases hs : texts.mapM fun t => Go.Source.parse t.1 t.2 with
  | error e => simp [ofTexts, hs, bind, Except.bind] at h
  | ok sources =>
    simp only [ofTexts, hs, bind, Except.bind, pure, Except.pure, Except.ok.injEq] at h
    exact ⟨sources, nodesOf_of_mapM_parse hs, h.symm⟩

theorem exists_ofTexts_iff (texts : List (Path × String)) :
    (∃ a, ofTexts texts = .ok a) ↔ ∀ t ∈ texts, (Go.sourceTree t.2).firstFault? = none := by
  have hmap : (∃ a, ofTexts texts = .ok a) ↔
      ∃ sources, texts.mapM (fun t => Go.Source.parse t.1 t.2) = .ok sources := by
    cases hs : texts.mapM fun t => Go.Source.parse t.1 t.2 <;>
      simp [ofTexts, hs, bind, Except.bind, pure, Except.pure]
  rw [hmap]
  clear hmap
  induction texts with
  | nil => simp [pure, Except.pure]
  | cons t texts ih =>
    rw [List.forall_mem_cons, List.mapM_cons]
    refine Iff.trans ?_ (and_congr_right fun _ => ih)
    cases hf : (Go.sourceTree t.2).firstFault? <;>
      cases hr : texts.mapM fun t => Go.Source.parse t.1 t.2 <;>
        simp [Go.Source.parse, hf, bind, Except.bind, pure, Except.pure]

def declares (texts : List (Path × String)) (name : String) : Bool :=
  (declaredIn texts).any fun d => d.declaration.name == name

theorem declares_append (texts texts' : List (Path × String)) (name : String) :
    declares (texts ++ texts') name = (declares texts name || declares texts' name) := by
  simp [declares, declaredIn]

/-- The index and the graph of texts, read off their declarations. -/
theorem views_of_ofTexts {texts : List (Path × String)} {a : Analysis} (h : ofTexts texts = .ok a) :
    a.declarations = .ofList ((declaredIn texts).map fun d => d.declaration) ∧
      ∀ name, a.graph.callees? name =
        if declares texts name then some (calleesOf (declaredIn texts) name) else none := by
  obtain ⟨sources, hnodes, rfl⟩ := exists_sources_of_ofTexts h
  refine ⟨by rw [← hnodes]; exact collect_eq sources, fun name => ?_⟩
  have hd : (collect sources).contains name = declares texts name := by
    rw [contains_collect, hnodes, declares]
  rw [← hnodes, ← hd]
  cases hc : (collect sources).contains name with
  | true => exact callees?_assemble hc
  | false => exact callees?_assemble_none hc

theorem declared_of_ofTexts {texts : List (Path × String)} {a : Analysis} (h : ofTexts texts = .ok a)
    (name : String) :
    a.declarations.contains name = declares texts name ∧ a.graph.contains name = declares texts name := by
  obtain ⟨hrecords, hcallees⟩ := views_of_ofTexts h
  constructor
  · rw [hrecords, Bool.eq_iff_iff, DeclarationIndex.contains_iff_exists (DeclarationIndex.valid_ofList _)]
    simp [declares]
  · rw [Bool.eq_iff_iff, CallGraph.contains_iff, hcallees]
    by_cases hd : declares texts name <;> simp [hd]

/-- The graph of texts is the prescribed one. Its callers are the names of the declaration records; each of them has
the callees that `calleesOf` reads off the declarations; and an edge stands for a call inside a declaration, so calls
elsewhere and in methods of unnamed receivers leave no trace. -/
theorem graph_ofTexts_exact {texts : List (Path × String)} {a : Analysis}
    (h : ofTexts texts = .ok a) :
    a.declarations.records = (declaredIn texts).map (fun d => d.declaration) ∧
    (∀ name, a.graph.contains name = true ↔ ∃ d ∈ a.declarations.records, d.name = name) ∧
    (∀ name, (∃ d ∈ a.declarations.records, d.name = name) →
      a.graph.callees? name = some (calleesOf (declaredIn texts) name)) ∧
    (∀ caller callee, a.graph.hasEdge caller callee = true ↔
      (∃ d ∈ a.declarations.records, d.name = callee) ∧
        ∃ d ∈ declaredIn texts, d.declaration.name = caller ∧
          ∃ call ∈ d.node.preorder, call.Calls callee) := by
  obtain ⟨sources, hnodes, rfl⟩ := exists_sources_of_ofTexts h
  have hdecl : ∀ name, (collect sources).contains name = true ↔
      ∃ d ∈ (collect sources).records, d.name = name :=
    DeclarationIndex.contains_iff_exists (valid_collect sources)
  refine ⟨?_, ?_, ?_, ?_⟩
  · rw [← hnodes]
    exact records_collect sources
  · intro name
    simp only [ofSources, contains_assemble, hdecl]
  · intro name hname
    rw [← hnodes]
    exact callees?_assemble ((hdecl name).2 hname)
  · intro caller callee
    simp only [ofSources, CallGraph.hasEdge, ← hnodes, records_collect, List.mem_map,
      exists_exists_and_eq_and]
    cases hc : (collect sources).contains caller with
    | true =>
      rw [callees?_assemble hc]
      simp only [Option.getD_some, List.contains_iff_mem, mem_calleesOf_iff]
    | false =>
      rw [callees?_assemble_none hc]
      rw [contains_collect, List.any_eq_false] at hc
      simp only [Option.getD_none, List.contains_nil, Bool.false_eq_true, false_iff]
      rintro ⟨-, d, hd, rfl, -⟩
      exact hc d hd (by simp)

/-- Two files that declare `A` both, with a call into the later one from a closure, a call of itself, a call with type
arguments, and a method of an unnamed receiver. -/
def twoFiles : List (Path × String) :=
  [(⟨"a.go"⟩, "func A() { func() { C(A()) }(); g[T](C()) }\n"),
    (⟨"b.go"⟩, "func (q.T) M() { A() }\nfunc A() { C(B()) }\nfunc B() {}\nfunc C() {}\n")]

theorem graph_ofTexts_exact_twoFiles :
    ∃ a, ofTexts twoFiles = .ok a ∧ a.graph.callees? "A" = some ["C", "A", "B"] ∧
      a.graph.contains "q.T.M" = false := by
  have heval : (ofTexts twoFiles).isOk = true ∧
      (declaredIn twoFiles).map (fun d => d.declaration.name) = ["A", "A", "B", "C"] ∧
      calleesOf (declaredIn twoFiles) "A" = ["C", "A", "B"] := by decide +kernel
  obtain ⟨a, ha⟩ : ∃ a, ofTexts twoFiles = .ok a := by
    cases h : ofTexts twoFiles with
    | error e => simp [h, Except.isOk, Except.toBool] at heval
    | ok a => exact ⟨a, rfl⟩
  obtain ⟨hr, hk, hc, -⟩ := graph_ofTexts_exact ha
  have hmem : ∀ name, (∃ d ∈ a.declarations.records, d.name = name) ↔
      name ∈ ["A", "A", "B", "C"] := by
    intro name
    rw [hr, ← heval.2.1]
    simp
  refine ⟨a, ha, ?_, ?_⟩
  · rw [hc "A" ((hmem _).2 (by simp)), heval.2.2]
  · rw [← Bool.not_eq_true, hk, hmem]
    decide

end CallLineage.Analysis
