import CallLineage.Export
import CallLineage.Proofs.Assembly
/-! How the graph of a set of files changes with the set.
In another order the files give the same calls, and the same graph when no two of them declare one name. A further
file takes no call away: it only adds names that calls may refer to, and callees behind those that were there. -/
namespace CallLineage.Analysis

open Go (DeclaredNode)

def declarationsOf (texts : List (Path × String)) (name : String) : List DeclaredNode :=
  (declaredIn texts).filter fun d => d.declaration.name == name

theorem declaredIn_append (texts texts' : List (Path × String)) :
    declaredIn (texts ++ texts') = declaredIn texts ++ declaredIn texts' := by
  simp [declaredIn]

theorem declarationsOf_append (texts texts' : List (Path × String)) (name : String) :
    declarationsOf (texts ++ texts') name = declarationsOf texts name ++ declarationsOf texts' name := by
  simp [declarationsOf, declaredIn_append]

theorem declarationsOf_cons (t : Path × String) (texts : List (Path × String)) (name : String) :
    declarationsOf (t :: texts) name = declarationsOf [t] name ++ declarationsOf texts name :=
  declarationsOf_append [t] texts name

theorem declarationsOf_eq_nil_iff (texts : List (Path × String)) (name : String) :
    declarationsOf texts name = [] ↔ declares texts name = false := by
  simp [declarationsOf, declares, List.filter_eq_nil_iff]

/-- The callees of a name are the first occurrences of declared names among the targets of its declarations. -/
theorem calleesOf_declaredIn (texts : List (Path × String)) (name : String) :
    calleesOf (declaredIn texts) name =
      (((declarationsOf texts name).flatMap fun d => d.node.targets).filter (declares texts)).eraseDups :=
  rfl

theorem hasEdge_of_ofTexts {texts : List (Path × String)} {a : Analysis} (h : ofTexts texts = .ok a)
    (caller callee : String) :
    a.graph.hasEdge caller callee = true ↔ callee ∈ calleesOf (declaredIn texts) caller := by
  rw [CallGraph.hasEdge, (views_of_ofTexts h).2]
  cases hd : declares texts caller with
  | true => simp
  | false =>
    have hnil : calleesOf (declaredIn texts) caller = [] := by
      rw [calleesOf_declaredIn, (declarationsOf_eq_nil_iff texts caller).2 hd]
      rfl
    simp [hnil]

/-! ## Another order -/

theorem declaredIn_perm {texts texts' : List (Path × String)} (h : texts.Perm texts') :
    (declaredIn texts).Perm (declaredIn texts') :=
  h.flatMap_right _

theorem declares_perm {texts texts' : List (Path × String)} (h : texts.Perm texts') :
    declares texts = declares texts' := by
  funext name
  rw [Bool.eq_iff_iff]
  simp [declares, (declaredIn_perm h).mem_iff]

theorem calleesOf_perm {texts texts' : List (Path × String)} (h : texts.Perm texts') (name : String) :
    (calleesOf (declaredIn texts) name).Perm (calleesOf (declaredIn texts') name) := by
  rw [calleesOf, calleesOf, List.perm_ext_iff_of_nodup (nodup_eraseDups _) (nodup_eraseDups _)]
  intro callee
  have hmem := fun d => (declaredIn_perm h).mem_iff (a := d)
  simp only [List.mem_eraseDups, List.mem_filter, List.mem_flatMap, List.any_eq_true, hmem]

def SeparatelyDeclared (texts : List (Path × String)) : Prop :=
  texts.Pairwise fun t u => ∀ name, declares [t] name = true → declares [u] name = false

/-- A name that stands in one text only has its declarations there, wherever that text stands. -/
theorem declarationsOf_perm {texts texts' : List (Path × String)} (h : texts.Perm texts')
    (hs : SeparatelyDeclared texts) (name : String) :
    declarationsOf texts name = declarationsOf texts' name := by
  induction h with
  | nil => rfl
  | @cons t texts texts' _ ih =>
    rw [declarationsOf_cons t texts, declarationsOf_cons t texts', ih (List.pairwise_cons.1 hs).2]
  | swap t u texts =>
    have hor : declarationsOf [u] name = [] ∨ declarationsOf [t] name = [] := by
      have hut := (List.pairwise_cons.1 hs).1 t (by simp) name
      rw [declarationsOf_eq_nil_iff, declarationsOf_eq_nil_iff]
      cases hu : declares [u] name with
      | true => exact .inr (hut hu)
      | false => exact .inl rfl
    rw [declarationsOf_cons u (t :: texts), declarationsOf_cons t texts, declarationsOf_cons t (u :: texts),
      declarationsOf_cons u texts]
    rcases hor with hu | ht
    · rw [hu, List.nil_append, List.nil_append]
    · rw [ht, List.nil_append, List.nil_append]
  | trans h₁ _ ih₁ ih₂ =>
    have hsym : ∀ {t u : Path × String}, (∀ name, declares [t] name = true → declares [u] name = false) →
        ∀ name, declares [u] name = true → declares [t] name = false := by
      intro t u htu name hu
      rw [← Bool.not_eq_true]
      intro ht
      rw [htu name ht] at hu
      cases hu
    rw [ih₁ hs, ih₂ ((h₁.pairwise_iff hsym).1 hs)]

/-- The order of the texts decides neither whether they can be analysed nor which calls there are: the graphs have the
same callers, each with the same callees up to their order. Without a name that two texts declare the graphs are equal,
and so is everything that is written of them. -/
theorem ofTexts_perm {texts texts' : List (Path × String)} (h : texts.Perm texts') :
    ((∃ a, ofTexts texts = .ok a) ↔ ∃ a', ofTexts texts' = .ok a') ∧
    ∀ a a', ofTexts texts = .ok a → ofTexts texts' = .ok a' →
      (∀ name, a.graph.contains name = a'.graph.contains name) ∧
      (∀ caller callee, a.graph.hasEdge caller callee = a'.graph.hasEdge caller callee) ∧
      (∀ caller, (a.graph.callees? caller).map List.length = (a'.graph.callees? caller).map List.length) ∧
      a.graph.edgeCount = a'.graph.edgeCount ∧
      (SeparatelyDeclared texts →
        a.graph = a'.graph ∧ ∀ format, a.graph.render format = a'.graph.render format) := by
  refine ⟨?_, fun a a' ha ha' => ?_⟩
  · simp only [exists_ofTexts_iff, h.mem_iff]
  have hcallees := (views_of_ofTexts ha).2
  have hcallees' := (views_of_ofTexts ha').2
  rw [← declares_perm h] at hcallees'
  have hlength : ∀ caller,
      (a.graph.callees? caller).map List.length = (a'.graph.callees? caller).map List.length := by
    intro caller
    rw [hcallees, hcallees']
    cases declares texts caller with
    | false => rfl
    | true => simp [(calleesOf_perm h caller).length_eq]
  refine ⟨?_, ?_, hlength, CallGraph.edgeCount_eq hlength, fun hs => ?_⟩
  · intro name
    rw [(declared_of_ofTexts ha name).2, (declared_of_ofTexts ha' name).2, declares_perm h]
  · intro caller callee
    rw [Bool.eq_iff_iff, hasEdge_of_ofTexts ha, hasEdge_of_ofTexts ha', (calleesOf_perm h caller).mem_iff]
  · have hgraph : a.graph = a'.graph := by
      apply CallGraph.ext_callees?
      intro name
      rw [hcallees, hcallees', calleesOf_declaredIn, calleesOf_declaredIn, declarationsOf_perm h hs,
        declares_perm h]
    exact ⟨hgraph, fun format => by rw [hgraph]⟩

/-- Two files with a name declared twice in one of them, and calls between the files in both directions. -/
def crossing : List (Path × String) :=
  [(⟨"a.go"⟩, "func A() { C(); B() }\nfunc (t *T) M() { A() }\nfunc A() { C(); t.M(); T.M() }\n"),
    (⟨"b.go"⟩, "func B() { A() }\nfunc C() { C(); B() }\n")]

theorem ofTexts_perm_crossing :
    ∃ a a', ofTexts crossing = .ok a ∧ ofTexts crossing.reverse = .ok a' ∧
      a.graph.callees? "A" = some ["C", "B", "T.M"] ∧ a'.graph.toDot = a.graph.toDot := by
  have heval : ((ofTexts crossing).toOption.bind fun a => a.graph.callees? "A") =
        some ["C", "B", "T.M"] := by decide +kernel
  have hsplit : (declaredIn [crossing.head!]).map (fun d => d.declaration.name) = ["A", "T.M", "A"] ∧
      (declaredIn [crossing.getLast!]).map (fun d => d.declaration.name) = ["B", "C"] := by decide +kernel
  have hs : SeparatelyDeclared crossing := by
    have hnames : ∀ texts name, declares texts name = true ↔
        name ∈ (declaredIn texts).map fun d => d.declaration.name := by
      simp [declares]
    refine List.pairwise_pair.2 fun name hname => ?_
    rw [← Bool.not_eq_true, hnames]
    rw [hnames] at hname
    have hfirst : name ∈ ["A", "T.M", "A"] := hsplit.1 ▸ hname
    intro hlast
    have hsecond : name ∈ ["B", "C"] := hsplit.2 ▸ hlast
    revert hfirst hsecond
    simp only [List.mem_cons, List.not_mem_nil, or_false]
    rintro (rfl | rfl | rfl) <;> decide
  obtain ⟨hiff, hsame⟩ := ofTexts_perm (List.reverse_perm crossing).symm
  cases ha : ofTexts crossing with
  | error e => simp [ha, Except.toOption] at heval
  | ok a =>
    obtain ⟨a', ha'⟩ := hiff.1 ⟨a, ha⟩
    have hdot := ((hsame a a' ha ha').2.2.2.2 hs).2 .dot
    refine ⟨a, a', rfl, ha', ?_, hdot.symm⟩
    simpa [ha, Except.toOption] using heval

/-! ## One file more -/

theorem declares_insert {before after : List (Path × String)} {extra : Path × String} {name : String}
    (h : declares (before ++ after) name = true) : declares (before ++ extra :: after) name = true := by
  rw [← List.singleton_append, declares_append, declares_append]
  rw [declares_append] at h
  cases hb : declares before name with
  | true => rfl
  | false =>
    rw [hb, Bool.false_or] at h
    rw [h, Bool.or_true, Bool.or_true]

theorem calleesOf_subset {nodes nodes' : List DeclaredNode} (h : nodes ⊆ nodes') (name : String) :
    calleesOf nodes name ⊆ calleesOf nodes' name := by
  intro callee hc
  obtain ⟨⟨d, hd, hname⟩, e, he, hcall⟩ := (mem_calleesOf_iff nodes name callee).1 hc
  exact (mem_calleesOf_iff nodes' name callee).2 ⟨⟨d, h hd, hname⟩, e, h he, hcall⟩

/-- Of the callees after the change, those that were declared before it. -/
theorem filter_calleesOf {before after : List (Path × String)} {extra : Path × String} (name : String) :
    (calleesOf (declaredIn (before ++ extra :: after)) name).filter (declares (before ++ after)) =
      (((declarationsOf (before ++ extra :: after) name).flatMap fun d => d.node.targets).filter
        (declares (before ++ after))).eraseDups := by
  rw [calleesOf_declaredIn, filter_eraseDups, List.filter_filter]
  congr 1
  apply List.filter_congr
  intro callee _
  cases hd : declares (before ++ after) callee with
  | false => rfl
  | true => rw [declares_insert hd]; rfl

/-- A further file keeps all callers and calls. A caller that it does not declare has, of the names declared before,
exactly the callees it had, in their order; a file that is appended leaves the callees of every caller at the front and
the first record of every name in place. -/
theorem ofTexts_insert {before after : List (Path × String)} {extra : Path × String} {a a' : Analysis}
    (h : ofTexts (before ++ after) = .ok a) (h' : ofTexts (before ++ extra :: after) = .ok a') :
    (∀ name, a.graph.contains name = true → a'.graph.contains name = true) ∧
    (∀ caller callee, a.graph.hasEdge caller callee = true → a'.graph.hasEdge caller callee = true) ∧
    (∀ caller, a.declarations.contains caller = true → declares [extra] caller = false →
      ∃ callees, a'.graph.callees? caller = some callees ∧
        a.graph.callees? caller = some (callees.filter a.declarations.contains)) ∧
    (after = [] → ∀ name, a.declarations.contains name = true →
      (∃ callees callees', a.graph.callees? name = some callees ∧ a'.graph.callees? name = some callees' ∧
        callees <+: callees'.filter a.declarations.contains) ∧
      a'.declarations.get? name = a.declarations.get? name) := by
  obtain ⟨hrecords, hcallees⟩ := views_of_ofTexts h
  obtain ⟨hrecords', hcallees'⟩ := views_of_ofTexts h'
  have hdeclared : a.declarations.contains = declares (before ++ after) :=
    funext fun name => (declared_of_ofTexts h name).1
  have hkept : ∀ name, a.declarations.contains name = true →
      a.graph.callees? name = some (calleesOf (declaredIn (before ++ after)) name) ∧
        a'.graph.callees? name = some (calleesOf (declaredIn (before ++ extra :: after)) name) := by
    intro name hname
    rw [hdeclared] at hname
    rw [hcallees, hcallees', if_pos hname, if_pos (declares_insert hname)]
    exact ⟨rfl, rfl⟩
  refine ⟨?_, ?_, ?_, ?_⟩
  · intro name hname
    rw [(declared_of_ofTexts h name).2] at hname
    rw [(declared_of_ofTexts h' name).2, declares_insert hname]
  · intro caller callee hedge
    have hsub : declaredIn (before ++ after) ⊆ declaredIn (before ++ extra :: after) := by
      rw [← List.singleton_append, declaredIn_append, declaredIn_append, declaredIn_append]
      exact List.append_subset.2 ⟨List.subset_append_left _ _,
        fun d hd => List.mem_append_right _ (List.mem_append_right _ hd)⟩
    rw [hasEdge_of_ofTexts h']
    exact calleesOf_subset hsub caller ((hasEdge_of_ofTexts h caller callee).1 hedge)
  · intro caller hcaller hextra
    obtain ⟨hold, hnew⟩ := hkept caller hcaller
    refine ⟨_, hnew, ?_⟩
    rw [hold, hdeclared, filter_calleesOf, calleesOf_declaredIn, ← List.singleton_append,
      declarationsOf_append, declarationsOf_append, declarationsOf_append,
      (declarationsOf_eq_nil_iff [extra] caller).2 hextra, List.nil_append]
  · rintro rfl name hname
    obtain ⟨hold, hnew⟩ := hkept name hname
    refine ⟨⟨_, _, hold, hnew, ?_⟩, ?_⟩
    · rw [hdeclared, filter_calleesOf, calleesOf_declaredIn, List.append_nil, declarationsOf_append,
        List.flatMap_append, List.filter_append, List.eraseDups_append]
      exact List.prefix_append _ _
    · have hv := fun ds => DeclarationIndex.valid_ofList ds
      obtain ⟨d, hd⟩ := (DeclarationIndex.contains_iff_get? (hrecords ▸ hv _) name).1 hname
      rw [hd, hrecords', DeclarationIndex.get?_eq_find? (hv _), DeclarationIndex.records_ofList,
        declaredIn_append, List.map_append, List.find?_append]
      rw [hrecords, DeclarationIndex.get?_eq_find? (hv _), DeclarationIndex.records_ofList,
        List.append_nil] at hd
      rw [hd, Option.some_or]

def oneFile : List (Path × String) := [(⟨"a.go"⟩, "func A() { X(); B() }\nfunc B() { A() }\n")]

/-- Declares a name that `oneFile` calls and one that it declares too. -/
def further : Path × String := (⟨"b.go"⟩, "func X() {}\nfunc B() { X(); B(); A() }\n")

theorem ofTexts_insert_further :
    ∃ a a', ofTexts oneFile = .ok a ∧ ofTexts (oneFile ++ [further]) = .ok a' ∧
      a'.graph.callees? "A" = some ["X", "B"] ∧ a.graph.callees? "A" = some ["B"] ∧
      (∃ callees, a.graph.callees? "B" = some callees ∧ callees <+: ["A", "B"]) ∧
      a'.declarations.get? "B" = a.declarations.get? "B" := by
  have heval : ((ofTexts (oneFile ++ [])).toOption.map fun a => ["A", "B", "X"].map a.declarations.contains) =
        some [true, true, false] ∧
      ((ofTexts (oneFile ++ [further])).toOption.map fun a => ["A", "B"].map a.graph.callees?) =
        some [some ["X", "B"], some ["A", "X", "B"]] ∧
      declares [further] "A" = false := by decide +kernel
  cases ha : ofTexts (oneFile ++ []) with
  | error e =>
    rw [ha] at heval
    cases heval.1
  | ok a =>
    cases ha' : ofTexts (oneFile ++ [further]) with
    | error e => simp [ha', Except.toOption] at heval
    | ok a' =>
      simp only [ha, ha', Except.toOption, Option.map_some, List.map_cons, List.map_nil, Option.some.injEq,
        List.cons.injEq, and_true] at heval
      obtain ⟨⟨hA, hB, hX⟩, ⟨hcA, hcB⟩, hextra⟩ := heval
      obtain ⟨-, -, hfilter, hfront⟩ := ofTexts_insert ha ha'
      obtain ⟨callees, hcallees, hold⟩ := hfilter "A" hA hextra
      obtain ⟨⟨front, all, hfrontB, hallB, hprefix⟩, hget⟩ := hfront rfl "B" hB
      rw [hcA] at hcallees
      rw [hcB] at hallB
      cases hcallees
      cases hallB
      refine ⟨a, a', ha, rfl, hcA, ?_, ⟨front, hfrontB, ?_⟩, hget⟩
      · simpa [hB, hX] using hold
      · simpa [hA, hB, hX] using hprefix

end CallLineage.Analysis
