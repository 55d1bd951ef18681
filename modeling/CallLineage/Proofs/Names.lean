import CallLineage.Proofs.Closure
import CallLineage.Proofs.Drawing
import CallLineage.Proofs.Go.Words
import CallLineage.Proofs.Listing
/-! Qualified names.
A word holds no dot, so a qualified name comes apart at its dot into the words it was made of. Hence names tell
receivers and functions apart, and a drawing, which looks for the dot only, gives methods and functions the right
shape. -/
namespace CallLineage

namespace Go

theorem isNameChar_of_isWord {w : String} (h : isWord w = true) : ∀ c ∈ w.toList, isNameChar c = true := by
  rw [isWord] at h
  split at h
  · cases h
  · rename_i x r hx
    rw [Bool.and_eq_true, List.all_eq_true] at h
    rw [hx, List.forall_mem_cons]
    refine ⟨?_, h.2⟩
    rw [isNameChar, h.1, Bool.true_or]

theorem dot_notMem_of_isWord {w : String} (h : isWord w = true) : '.' ∉ w.toList := by
  intro hdot
  exact absurd (isNameChar_of_isWord h '.' hdot) (by decide)

namespace Worded

variable {d e : Declaration}

theorem isWord_of_mem (h : Worded d) : ∀ w ∈ d.receiver.toList ++ [d.function], isWord w = true := by
  intro w hw
  rcases List.mem_append.1 hw with hw | hw
  · exact h.receiver w (Option.mem_toList.1 hw)
  · rw [List.mem_singleton.1 hw]
    exact h.function

/-- A name is its words with a dot between them. -/
theorem toList_name (h : Worded d) :
    d.name.toList = ['.'].intercalate ((d.receiver.toList ++ [d.function]).map String.toList) := by
  rw [h.name_eq]
  cases d.receiver <;> simp [qualifiedName, List.intercalate]

theorem splitOn_name (h : Worded d) :
    d.name.toList.splitOn '.' = (d.receiver.toList ++ [d.function]).map String.toList := by
  rw [h.toList_name]
  apply List.splitOn_intercalate
  · simp only [List.forall_mem_map]
    exact fun w hw => dot_notMem_of_isWord (h.isWord_of_mem w hw)
  · simp

theorem name_eq_name_iff (hd : Worded d) (he : Worded e) :
    d.name = e.name ↔ d.receiver = e.receiver ∧ d.function = e.function := by
  constructor
  · intro hname
    have hsplit := hd.splitOn_name
    rw [hname, he.splitOn_name] at hsplit
    have hwords := List.map_injective_iff.2 (fun _ _ => String.toList_injective) hsplit
    obtain ⟨hreceiver, hfunction⟩ := List.append_inj' hwords rfl
    refine ⟨?_, (List.singleton_inj.1 hfunction).symm⟩
    cases hd : d.receiver <;> cases he : e.receiver <;> simp_all
  · rintro ⟨hreceiver, hfunction⟩
    rw [hd.name_eq, he.name_eq, hreceiver, hfunction]

theorem contains_dot_iff (h : Worded d) : d.name.contains '.' = true ↔ d.receiver.isSome = true := by
  rw [String.contains_char_eq, decide_eq_true_iff, h.name_eq]
  cases d.receiver with
  | none => simpa [qualifiedName] using dot_notMem_of_isWord h.function
  | some r => simp [qualifiedName]

end Worded

end Go

namespace Drawing

/-- The caller of the line of a node, and what stands in its brackets. -/
def attributes? : List Token → Option (String × String)
  | .mark ' ' :: .mark ' ' :: .name caller :: .mark ' ' :: .mark '[' :: rest =>
    some (caller, String.ofList ((rest.takeWhile (· != .mark ']')).filterMap fun
      | .mark c => some c
      | .name _ => none))
  | _ => none

def attributes (text : String) : List (String × String) :=
  (lines text.toList).filterMap attributes?

end Drawing

theorem CallGraph.attributes_toDot (g : CallGraph) :
    Drawing.attributes g.toDot =
      g.toList.map fun e => (e.1, if e.1.contains '.' then "shape=box" else "shape=ellipse") := by
  have hheader : Drawing.headerLines.filterMap Drawing.attributes? = [] := by decide
  have hnode : ∀ caller, Drawing.attributes? (Drawing.nodeLine caller) =
      some (caller, if caller.contains '.' then "shape=box" else "shape=ellipse") := by
    intro caller
    by_cases hdot : caller.contains '.' = true <;> simp [Drawing.nodeLine, Drawing.attributes?, hdot]
  have hedge : ∀ caller callee, Drawing.attributes? (Drawing.edgeLine caller callee) = none := fun _ _ => rfl
  rw [Drawing.attributes, lines_toDot]
  simp only [List.filterMap_append, hheader, List.filterMap_map, Function.comp_def, hnode, hedge]
  simp [List.filterMap_cons, Drawing.attributes?]

theorem CallGraph.mem_attributes_toDot (g : CallGraph) (name shape : String) :
    (name, shape) ∈ Drawing.attributes g.toDot ↔
      g.contains name = true ∧ shape = if name.contains '.' then "shape=box" else "shape=ellipse" := by
  rw [attributes_toDot, contains, ← SortedMap.mem_keys_iff, SortedMap.keys, List.mem_map, List.mem_map, toList]
  constructor
  · rintro ⟨e, he, heq⟩
    cases heq
    exact ⟨⟨e, he, rfl⟩, rfl⟩
  · rintro ⟨⟨e, he, rfl⟩, rfl⟩
    exact ⟨e, he, rfl⟩

namespace Analysis

theorem Produced.worded {a : Analysis} (h : Produced a) : ∀ d ∈ a.declarations.records, Go.Worded d := by
  have hsources : ∃ root sources, a = ofSources root sources ∧ ∀ d ∈ nodesOf sources, Go.Worded d.declaration := by
    cases h with
    | texts h =>
      obtain ⟨sources, hnodes, ha⟩ := exists_sources_of_ofTexts h
      refine ⟨_, sources, ha, fun d hd => ?_⟩
      rw [hnodes] at hd
      obtain ⟨t, -, hd⟩ := List.mem_flatMap.1 hd
      obtain ⟨n, hn, hd⟩ := List.mem_filterMap.1 hd
      exact Go.worded_of_declaredNode? hn hd
    | directory h =>
      obtain ⟨w, files, sources, -, -, hloaded, ha⟩ := exists_walk_of_ofDirectory h
      refine ⟨w.base, sources, ha, fun d hd => ?_⟩
      obtain ⟨s, hs, hd⟩ := List.mem_flatMap.1 hd
      obtain ⟨n, hn, hd⟩ := List.mem_filterMap.1 hd
      rw [(Go.Source.of_load ((Go.Source.of_mapM_load hloaded).2 s hs)).2] at hn
      exact Go.worded_of_declaredNode? hn hd
  obtain ⟨root, sources, rfl, hworded⟩ := hsources
  intro d hd
  rw [ofSources, records_collect] at hd
  obtain ⟨n, hn, rfl⟩ := List.mem_map.1 hd
  exact hworded n hn

theorem Produced.contains_graph {a : Analysis} (h : Produced a) (name : String) :
    a.graph.contains name = a.declarations.contains name := by
  obtain ⟨root, sources, rfl⟩ := h.exists_sources
  exact contains_assemble sources name

/-- Whether a declared name is that of a method can be told from any of its records. -/
theorem Produced.contains_dot_iff {a : Analysis} (h : Produced a) {name : String}
    (hname : a.declarations.contains name = true) :
    (name.contains '.' = true ↔ ∀ d ∈ a.declarations.records, d.name = name → d.receiver.isSome = true) ∧
      (name.contains '.' = false ↔ ∀ d ∈ a.declarations.records, d.name = name → d.receiver = none) := by
  have hworded := h.worded
  obtain ⟨d, hd, rfl⟩ : ∃ d ∈ a.declarations.records, d.name = name := by
    obtain ⟨root, sources, rfl⟩ := h.exists_sources
    exact (DeclarationIndex.contains_iff_exists (valid_collect sources) name).1 hname
  have hsame : ∀ e ∈ a.declarations.records, e.name = d.name → e.receiver = d.receiver := fun e he heq =>
    (((hworded e he).name_eq_name_iff (hworded d hd)).1 heq).1
  constructor
  · rw [(hworded d hd).contains_dot_iff]
    exact ⟨fun hsome e he heq => hsame e he heq ▸ hsome, fun hall => hall d hd rfl⟩
  · rw [← Bool.not_eq_true, (hworded d hd).contains_dot_iff, Bool.not_eq_true, Option.isSome_eq_false_iff,
      Option.isNone_iff_eq_none]
    exact ⟨fun hnone e he heq => (hsame e he heq).trans hnone, fun hall => hall d hd rfl⟩

/-- Qualified names are as good as the words they are made of. Records share a name exactly if they share receiver and
function; a name holds a dot exactly if it is that of a method; and in a drawing each declared name has one node, a box
if it is declared as a method and an ellipse if it is declared as a function. -/
theorem names_exact_of_produced {a : Analysis} (h : Produced a) :
    (∀ d ∈ a.declarations.records, ∀ e ∈ a.declarations.records,
      d.name = e.name ↔ d.receiver = e.receiver ∧ d.function = e.function) ∧
    (∀ d ∈ a.declarations.records, d.name.contains '.' = true ↔ d.receiver.isSome = true) ∧
    (Drawing.attributes a.graph.toDot).map Prod.fst = a.declarations.names ∧
    (∀ name, (name, "shape=box") ∈ Drawing.attributes a.graph.toDot ↔
      name ∈ a.declarations.names ∧ ∀ d ∈ a.declarations.records, d.name = name → d.receiver.isSome = true) ∧
    ∀ name, (name, "shape=ellipse") ∈ Drawing.attributes a.graph.toDot ↔
      name ∈ a.declarations.names ∧ ∀ d ∈ a.declarations.records, d.name = name → d.receiver = none := by
  have hworded := h.worded
  refine ⟨fun d hd e he => (hworded d hd).name_eq_name_iff (hworded e he),
    fun d hd => (hworded d hd).contains_dot_iff, ?_, fun name => ?_, fun name => ?_⟩
  · rw [CallGraph.attributes_toDot, List.map_map]
    exact SortedMap.keys_congr h.contains_graph
  · rw [CallGraph.mem_attributes_toDot, h.contains_graph, DeclarationIndex.mem_names_iff]
    refine and_congr_right fun hname => ?_
    rw [← (h.contains_dot_iff hname).1]
    by_cases hdot : name.contains '.' = true <;> simp [hdot]
  · rw [CallGraph.mem_attributes_toDot, h.contains_graph, DeclarationIndex.mem_names_iff]
    refine and_congr_right fun hname => ?_
    rw [← (h.contains_dot_iff hname).2]
    by_cases hdot : name.contains '.' = true <;> simp [hdot]

/-- A function, methods of the same name on two types, and a second record of one of them. -/
def sameFunction : List (Path × String) :=
  [(⟨"a.go"⟩, "func M() {}\nfunc (t T) M() { M() }\n"), (⟨"b.go"⟩, "func (u *U[K]) M() {}\nfunc (t *T) M() {}\n")]

theorem names_exact_of_produced_sameFunction :
    ∃ a, Produced a ∧
      a.declarations.records.map (fun d => (d.receiver, d.function)) =
        [(none, "M"), (some "T", "M"), (some "U", "M"), (some "T", "M")] ∧
      (Drawing.attributes a.graph.toDot).map Prod.fst = ["M", "T.M", "U.M"] ∧
      ("M", "shape=ellipse") ∈ Drawing.attributes a.graph.toDot ∧
      ("T.M", "shape=box") ∈ Drawing.attributes a.graph.toDot ∧
      ("T.M", "shape=ellipse") ∉ Drawing.attributes a.graph.toDot := by
  have heval : (ofTexts sameFunction).isOk = true ∧
      (declaredIn sameFunction).map (fun d => d.declaration) =
        [.of none "M" ⟨"a.go"⟩ 1, .of (some "T") "M" ⟨"a.go"⟩ 2, .of (some "U") "M" ⟨"b.go"⟩ 1,
          .of (some "T") "M" ⟨"b.go"⟩ 2] := by decide +kernel
  obtain ⟨a, ha⟩ : ∃ a, ofTexts sameFunction = .ok a := by
    cases h : ofTexts sameFunction with
    | error e => simp [h, Except.isOk, Except.toBool] at heval
    | ok a => exact ⟨a, rfl⟩
  obtain ⟨-, -, hnames, hbox, hellipse⟩ := names_exact_of_produced (.texts ha)
  rw [(views_of_ofTexts ha).1, heval.2] at hnames hbox hellipse
  refine ⟨a, .texts ha, ?_, ?_, (hellipse "M").2 ?_, (hbox "T.M").2 ?_, fun h => absurd ((hellipse "T.M").1 h) ?_⟩
  · rw [(views_of_ofTexts ha).1, heval.2]
    decide
  · rw [hnames]
    decide
  · decide
  · decide
  · decide

end Analysis

end CallLineage
