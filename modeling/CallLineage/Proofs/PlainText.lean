import CallLineage.Ignore
import CallLineage.Proofs.Names
/-! Reading a plain text back.
Nothing is quoted in it, so names are found only if they hold no white space. Then a line that begins with two blanks is
that of a callee whatever the names are, since a caller has at most one blank in front of its heading, when its name is
empty. All names of an analysis are of this kind. -/
namespace CallLineage

open IgnoreRule (isSpace)

namespace PlainText

def callee? : List Char → Option String
  | ' ' :: ' ' :: '-' :: ' ' :: name => some (String.ofList name)
  | _ => none

def caller (line : List Char) : String := String.ofList (line.takeWhile (· != ' '))

/-- The callees of a caller further up, and then the callers of these lines with their callees. -/
def blocks : List (List Char) → List String × List (String × List String)
  | [] => ([], [])
  | line :: rest =>
    match callee? line with
    | some callee => (callee :: (blocks rest).1, (blocks rest).2)
    | none => ([], (caller line, (blocks rest).1) :: (blocks rest).2)

def lines (text : List Char) : List (List Char) := (text.splitOn '\n').dropLast

def read (text : String) : List (String × List String) := (blocks (lines text.toList)).2

/-! ## Lines -/

def callerLine (name : String) : List Char := name.toList ++ " calls:".toList

def calleeLine (name : String) : List Char := "  - ".toList ++ name.toList

theorem lines_append {line : List Char} (h : '\n' ∉ line) (rest : List Char) :
    lines (line ++ '\n' :: rest) = line :: lines rest := by
  rw [lines, lines, List.splitOn_append_cons_self_of_not_mem h,
    List.dropLast_cons_of_ne_nil (List.splitOn_ne_nil _ _)]

theorem lines_flatMap (ls : List (List Char)) (h : ∀ line ∈ ls, '\n' ∉ line) :
    lines (ls.flatMap fun line => line ++ ['\n']) = ls := by
  induction ls with
  | nil => rfl
  | cons line ls ih =>
    obtain ⟨hline, hls⟩ := List.forall_mem_cons.1 h
    rw [List.flatMap_cons, List.append_assoc, List.singleton_append, lines_append hline, ih hls]

def Unspaced (name : String) : Prop := ∀ c ∈ name.toList, isSpace c = false

instance (name : String) : Decidable (Unspaced name) := List.decidableBAll _ _

variable {name : String}

theorem Unspaced.notMem (h : Unspaced name) {c : Char} (hc : isSpace c = true) : c ∉ name.toList := by
  intro hmem
  rw [h c hmem] at hc
  cases hc

theorem callee?_calleeLine (name : String) : callee? (calleeLine name) = some name := by
  simp [callee?, calleeLine]

theorem callee?_callerLine (h : Unspaced name) : callee? (callerLine name) = none := by
  rw [callerLine]
  cases hname : name.toList with
  | nil => rfl
  | cons c cs =>
    have hc : c ≠ ' ' := by
      rintro rfl
      exact h.notMem (c := ' ') rfl (by simp [hname])
    simp [callee?, hc]

theorem caller_callerLine (h : Unspaced name) : caller (callerLine name) = name := by
  have hname : ∀ c ∈ name.toList, (c != ' ') = true := by
    intro c hc
    simp only [bne_iff_ne]
    rintro rfl
    exact h.notMem (c := ' ') rfl hc
  have hblank : " calls:".toList.takeWhile (· != ' ') = [] := rfl
  rw [caller, callerLine, List.takeWhile_append_of_pos hname, hblank, List.append_nil, String.ofList_toList]

/-! ## Blocks -/

theorem blocks_calleeLines (callees : List String) (rest : List (List Char)) :
    blocks (callees.map calleeLine ++ rest) = (callees ++ (blocks rest).1, (blocks rest).2) := by
  induction callees with
  | nil => rfl
  | cons callee callees ih => simp [blocks, callee?_calleeLine, ih]

/-- Blocks come back as they were written, if no caller holds white space. -/
theorem blocks_entryLines (entries : List (String × List String)) (h : ∀ e ∈ entries, Unspaced e.1) :
    blocks (entries.flatMap fun e => callerLine e.1 :: e.2.map calleeLine) = ([], entries) := by
  induction entries with
  | nil => rfl
  | cons e entries ih =>
    obtain ⟨he, hentries⟩ := List.forall_mem_cons.1 h
    rw [List.flatMap_cons, List.cons_append, blocks, callee?_callerLine he, blocks_calleeLines, ih hentries,
      caller_callerLine he]
    simp

end PlainText

namespace CallGraph

def Unspaced (g : CallGraph) : Prop :=
  ∀ e ∈ g.toList, PlainText.Unspaced e.1 ∧ ∀ callee ∈ e.2, PlainText.Unspaced callee

instance (g : CallGraph) : Decidable g.Unspaced :=
  have (e : String × List String) : Decidable (∀ callee ∈ e.2, PlainText.Unspaced callee) := List.decidableBAll _ _
  List.decidableBAll _ _

theorem lines_toText {g : CallGraph} (h : g.Unspaced) :
    PlainText.lines g.toText.toList =
      g.toList.flatMap fun e => PlainText.callerLine e.1 :: e.2.map PlainText.calleeLine := by
  have htext : g.toText.toList = (g.toList.flatMap fun e =>
      PlainText.callerLine e.1 :: e.2.map PlainText.calleeLine).flatMap fun line => line ++ ['\n'] := by
    simp [toText, String.toList_join, List.flatMap_map, List.flatMap_assoc, PlainText.callerLine, PlainText.calleeLine]
  rw [htext]
  apply PlainText.lines_flatMap
  intro line hline
  obtain ⟨e, he, hline⟩ := List.mem_flatMap.1 hline
  rcases List.mem_cons.1 hline with rfl | hline
  · simpa [PlainText.callerLine] using (h e he).1.notMem (c := '\n') rfl
  · obtain ⟨callee, hcallee, rfl⟩ := List.mem_map.1 hline
    simpa [PlainText.calleeLine] using ((h e he).2 callee hcallee).notMem (c := '\n') rfl

theorem read_toText {g : CallGraph} (h : g.Unspaced) : PlainText.read g.toText = g.toList := by
  rw [PlainText.read, lines_toText h, PlainText.blocks_entryLines _ fun e he => (h e he).1]

end CallGraph

/-! ## Names of an analysis -/

theorem Go.isNameChar_eq_false_of_isSpace {c : Char} (h : isSpace c = true) : isNameChar c = false := by
  have hspaces : ∀ n ∈ [0x09, 0x0a, 0x0b, 0x0c, 0x0d, 0x20, 0x85, 0xa0, 0x1680, 0x2000, 0x2001, 0x2002, 0x2003, 0x2004,
      0x2005, 0x2006, 0x2007, 0x2008, 0x2009, 0x200a, 0x2028, 0x2029, 0x202f, 0x205f, 0x3000],
      isNameChar (Char.ofNat n) = false := by decide +kernel
  rw [← Char.ofNat_toNat c]
  apply hspaces
  have hblank : c = ' ' ↔ c.toNat = 0x20 := Char.toNat_inj.symm
  have hrange : '\t' ≤ c ∧ c ≤ '\r' ↔ 0x09 ≤ c.toNat ∧ c.toNat ≤ 0x0d := Iff.rfl
  simp only [isSpace, Bool.or_eq_true, Bool.and_eq_true, beq_iff_eq, decide_eq_true_eq, hblank, hrange] at h
  simp only [List.mem_cons, List.not_mem_nil]
  omega

theorem Go.Worded.unspaced_name {d : Declaration} (h : Worded d) : PlainText.Unspaced d.name := by
  have hword : ∀ w, isWord w = true → PlainText.Unspaced w := by
    intro w hw c hc
    rw [Bool.eq_false_iff]
    intro hspace
    have hno := isNameChar_eq_false_of_isSpace hspace
    rw [isNameChar_of_isWord hw c hc] at hno
    cases hno
  intro c hc
  rw [h.name_eq, qualifiedName.eq_def] at hc
  split at hc
  · rename_i r hr
    simp only [String.toList_append, List.mem_append] at hc
    rcases hc with (hc | hc) | hc
    · exact hword r (h.receiver r hr) c hc
    · rw [List.mem_singleton.1 hc]
      rfl
    · exact hword _ h.function c hc
  · exact hword _ h.function c hc

theorem Analysis.Produced.unspaced_graph {a : Analysis} (h : Produced a) : a.graph.Unspaced := by
  have hworded := h.worded
  obtain ⟨root, sources, rfl⟩ := h.exists_sources
  have hdeclared : ∀ name, (collect sources).contains name = true → PlainText.Unspaced name := by
    intro name hname
    obtain ⟨d, hd, rfl⟩ := (DeclarationIndex.contains_iff_exists (valid_collect sources) name).1 hname
    exact (hworded d hd).unspaced_name
  have hclosed := closed_ofSources root sources
  rintro ⟨name, callees⟩ he
  have hcallees := (SortedMap.mem_entries_iff _ _ _).1 he
  constructor
  · exact hdeclared name (hclosed.caller name ((CallGraph.contains_iff _ _).2 ⟨callees, hcallees⟩))
  · intro callee hcallee
    have hsome : (ofSources root sources).graph.callees? name = some callees := hcallees
    have hedge : (ofSources root sources).graph.hasEdge name callee = true := by
      simpa [CallGraph.hasEdge, hsome] using hcallee
    exact hdeclared callee (hclosed.callee name callee hedge).1

namespace CallGraph

/-- Plain texts tell graphs apart, if no name holds white space: callers, callees and their order are read back. The
graphs of analyses are all of this kind. -/
theorem toText_faithful :
    (∀ g : CallGraph, g.Unspaced → PlainText.read g.toText = g.toList) ∧
    (∀ g g' : CallGraph, g.Unspaced → g'.Unspaced → (g.toText = g'.toText ↔ g = g')) ∧
    ∀ a : Analysis, a.Produced → a.graph.Unspaced := by
  refine ⟨fun g h => read_toText h, fun g g' h h' => ⟨fun htext => ?_, fun heq => heq ▸ rfl⟩,
    fun a h => h.unspaced_graph⟩
  have hentries : g.toList = g'.toList := by
    rw [← read_toText h, ← read_toText h', htext]
  cases g
  cases g'
  exact congrArg mk (SortedMap.ext hentries)

/-- White space in a name can stand for a line of its own. -/
example : (ofList [("a", ["b\nc calls:"])]).toText = (ofList [("a", ["b"]), ("c", [])]).toText := by decide

/-- Names that look like parts of lines, and an empty one. -/
def markNames : CallGraph :=
  .ofList [("-", ["calls:", "-", ""]), ("", []), ("calls:", ["", "-"]), ("--", [])]

theorem toText_faithful_markNames :
    markNames.Unspaced ∧ (markNames.addEdge "--" "-").Unspaced ∧
    PlainText.read markNames.toText = [("", []), ("-", ["calls:", "-", ""]), ("--", []), ("calls:", ["", "-"])] ∧
    markNames.toText ≠ (markNames.addEdge "--" "-").toText ∧
    ∃ a, Analysis.ofTexts Analysis.sameFunction = .ok a ∧ a.graph.Unspaced := by
  obtain ⟨hread, hequal, hproduced⟩ := toText_faithful
  have h : markNames.Unspaced := by decide
  have h' : (markNames.addEdge "--" "-").Unspaced := by decide
  refine ⟨h, h', ?_, ?_, ?_⟩
  · rw [hread _ h]
    decide
  · rw [Ne, hequal _ _ h h']
    decide
  · have hok : (Analysis.ofTexts Analysis.sameFunction).isOk = true := by decide +kernel
    cases ha : Analysis.ofTexts Analysis.sameFunction with
    | error e =>
      rw [ha] at hok
      cases hok
    | ok a => exact ⟨a, rfl, hproduced a (.texts ha)⟩

end CallGraph

end CallLineage
