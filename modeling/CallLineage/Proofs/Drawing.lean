import CallLineage.Export
import CallLineage.Proofs.CallGraph
import CallLineage.Proofs.Utf8
/-! Reading a drawing back.
A name stands between quotes, and inside them only an escaped quote is not the end. A reader that knows this much finds
the ends of names and of lines whatever the names hold, so a drawing shows all callers and calls, and nothing else. -/
namespace CallLineage

namespace Drawing

inductive Token
  | name (text : String)
  | mark (c : Char)
  deriving DecidableEq

/-- Reads on, from outside of quotes or from behind the first part of a name. A name goes up to the first quote that
is not escaped; both escapes are undone. -/
def tokens : Option String → List Char → List Token
  | none, [] => []
  | none, '"' :: rest => tokens (some "") rest
  | none, c :: rest => .mark c :: tokens none rest
  | some _, [] => []
  | some s, '\\' :: '\\' :: rest => tokens (some (s.push '\\')) rest
  | some s, '\\' :: '"' :: rest => tokens (some (s.push '"')) rest
  | some s, '"' :: rest => .name s :: tokens none rest
  | some s, c :: rest => tokens (some (s.push c)) rest

inductive Item
  | node (caller : String)
  | edge (caller callee : String)
  deriving DecidableEq

def item? : List Token → Option Item
  | [.mark ' ', .mark ' ', .name caller, .mark ' ', .mark '-', .mark '>', .mark ' ', .name callee, .mark ';'] =>
    some (.edge caller callee)
  | .mark ' ' :: .mark ' ' :: .name caller :: .mark ' ' :: .mark '[' :: _ => some (.node caller)
  | _ => none

/-- The items of a text, line by line. A line ends outside of quotes. -/
def items (text : List Char) : List Item :=
  ((tokens none text).splitOnP (· == .mark '\n')).filterMap item?

def nodes (text : String) : List String :=
  (items text.toList).filterMap fun
    | .node caller => some caller
    | .edge _ _ => none

def edges (text : String) : List (String × String) :=
  (items text.toList).filterMap fun
    | .node _ => none
    | .edge caller callee => some (caller, callee)

/-! ## Tokens -/

/-- The text reads as the tokens, and reading goes on behind it from outside of quotes. -/
def Lexes (text : String) (ts : List Token) : Prop :=
  ∀ rest, tokens none (text.toList ++ rest) = ts ++ tokens none rest

theorem Lexes.append {a b : String} {s t : List Token} (ha : Lexes a s) (hb : Lexes b t) :
    Lexes (a ++ b) (s ++ t) := by
  intro rest
  rw [String.toList_append, List.append_assoc, ha, hb, List.append_assoc]

theorem lexes_plain (text : String) (h : '"' ∉ text.toList) : Lexes text (text.toList.map .mark) := by
  intro rest
  generalize text.toList = cs at h
  induction cs with
  | nil => rfl
  | cons c cs ih =>
    simp only [List.mem_cons, not_or] at h
    simp [tokens, Ne.symm h.1, ih h.2]

def escapeChar (c : Char) : List Char :=
  if c = '\\' then ['\\', '\\'] else if c = '"' then ['\\', '"'] else [c]

theorem toList_replaceChar (s : String) (c : Char) (text : String) :
    (CallGraph.replaceChar s c text).toList = s.toList.flatMap fun d => if d = c then text.toList else [d] := by
  simp only [CallGraph.replaceChar, String.toList_join, List.flatMap_map]
  congr 1
  funext d
  by_cases h : d = c <;> simp [h]

/-- One pass does what the two do: the second adds no backslash to those of the first, which stand before none of the
quotes of the name. -/
theorem toList_escapeDot (s : String) : (CallGraph.escapeDot s).toList = s.toList.flatMap escapeChar := by
  rw [CallGraph.escapeDot, toList_replaceChar, toList_replaceChar, List.flatMap_assoc]
  congr 1
  funext c
  by_cases hb : c = '\\'
  · simp [escapeChar, hb]
  · by_cases hq : c = '"' <;> simp [escapeChar, hb, hq]

/-- Between quotes, reading undoes the escapes one character after another. -/
theorem tokens_escapeChar (s : String) (c : Char) (rest : List Char) :
    tokens (some s) (escapeChar c ++ rest) = tokens (some (s.push c)) rest := by
  by_cases hb : c = '\\'
  · simp [escapeChar, hb, tokens]
  · by_cases hq : c = '"'
    · simp [escapeChar, hq, tokens]
    · simp [escapeChar, hb, hq, tokens]

theorem tokens_flatMap_escapeChar (s : String) (cs rest : List Char) :
    tokens (some s) (cs.flatMap escapeChar ++ '"' :: rest) = .name (s ++ String.ofList cs) :: tokens none rest := by
  induction cs generalizing s with
  | nil => simp [tokens]
  | cons c cs ih =>
    rw [List.flatMap_cons, List.append_assoc, tokens_escapeChar, ih]
    congr 2
    apply String.toList_injective
    simp

theorem lexes_quoted (name : String) : Lexes ("\"" ++ CallGraph.escapeDot name ++ "\"") [.name name] := by
  intro rest
  have hname := tokens_flatMap_escapeChar "" name.toList rest
  simpa [tokens, toList_escapeDot] using hname

/-! ## Lines -/

/-- The lines of a text; what stands behind the last line end is one as well. -/
def lines (text : List Char) : List (List Token) := (tokens none text).splitOn (.mark '\n')

def Lined (text : String) (ls : List (List Token)) : Prop :=
  ∀ rest, lines (text.toList ++ rest) = ls ++ lines rest

theorem Lined.append {a b : String} {s t : List (List Token)} (ha : Lined a s) (hb : Lined b t) :
    Lined (a ++ b) (s ++ t) := by
  intro rest
  rw [String.toList_append, List.append_assoc, ha, hb, List.append_assoc]

theorem lined_join {α : Type} (l : List α) {text : α → String} {ls : α → List (List Token)}
    (h : ∀ a, Lined (text a) (ls a)) : Lined (String.join (l.map text)) (l.flatMap ls) := by
  induction l with
  | nil => simp [Lined]
  | cons a l ih => simpa using (h a).append ih

theorem lined_line {line : String} {ts : List Token} (h : Lexes line ts) (hts : .mark '\n' ∉ ts) :
    Lined (line ++ "\n") [ts] := by
  intro rest
  have hline : tokens none ((line ++ "\n").toList ++ rest) = ts ++ .mark '\n' :: tokens none rest := by
    rw [String.toList_append, List.append_assoc, h]
    simp [tokens]
  rw [lines, hline, List.splitOn_append_cons_self_of_not_mem hts]
  rfl

theorem lined_plain (line : String) (hquote : '"' ∉ line.toList) (hend : '\n' ∉ line.toList) :
    Lined (line ++ "\n") [line.toList.map .mark] :=
  lined_line (lexes_plain line hquote) (by simpa using hend)

def headerLines : List (List Token) :=
  ["digraph CallGraph \x7b".toList.map .mark, "  rankdir=TB;".toList.map .mark,
    "  node [shape=box, style=".toList.map .mark ++ [.name "rounded,filled"] ++
      ", fillcolor=".toList.map .mark ++ [.name "#ffffff"] ++
      ", fontname=".toList.map .mark ++ [.name "Courier"] ++ ", fontsize=10];".toList.map .mark,
    "  edge [arrowhead=vee, arrowsize=0.8];".toList.map .mark, []]

def nodeLine (caller : String) : List Token :=
  .mark ' ' :: .mark ' ' :: .name caller ::
    (" [shape=" ++ (if caller.contains '.' then "box" else "ellipse") ++ "];").toList.map .mark

def edgeLine (caller callee : String) : List Token :=
  [.mark ' ', .mark ' ', .name caller, .mark ' ', .mark '-', .mark '>', .mark ' ', .name callee, .mark ';']

theorem lined_dotHeader : Lined CallGraph.dotHeader headerLines := by
  have hfill := ((lexes_plain "  node [shape=box, style=" (by simp)).append (lexes_quoted "rounded,filled")).append
    (lexes_plain ", fillcolor=" (by simp))
  have hfont := (hfill.append (lexes_quoted "#ffffff")).append (lexes_plain ", fontname=" (by simp))
  have hsize := (hfont.append (lexes_quoted "Courier")).append (lexes_plain ", fontsize=10];" (by simp))
  have hopen := (lined_plain "digraph CallGraph \x7b" (by simp) (by simp)).append
    (lined_plain "  rankdir=TB;" (by simp) (by simp))
  have hdefaults := (hopen.append (lined_line hsize (by simp))).append
    (lined_plain "  edge [arrowhead=vee, arrowsize=0.8];" (by simp) (by simp))
  have hlines := hdefaults.append (lined_plain "" (by simp) (by simp))
  have htext : CallGraph.dotHeader =
      "digraph CallGraph \x7b" ++ "\n" ++ ("  rankdir=TB;" ++ "\n") ++
        ("  node [shape=box, style=" ++ ("\"" ++ CallGraph.escapeDot "rounded,filled" ++ "\"") ++
          ", fillcolor=" ++ ("\"" ++ CallGraph.escapeDot "#ffffff" ++ "\"") ++
          ", fontname=" ++ ("\"" ++ CallGraph.escapeDot "Courier" ++ "\"") ++ ", fontsize=10];" ++ "\n") ++
        ("  edge [arrowhead=vee, arrowsize=0.8];" ++ "\n") ++ ("" ++ "\n") := by
    decide +kernel
  rw [htext]
  exact hlines

theorem lined_dotNode (caller : String) : Lined (CallGraph.dotNode caller) [nodeLine caller] := by
  let shape := if caller.contains '.' then "box" else "ellipse"
  have hshape : '"' ∉ shape.toList ∧ '\n' ∉ shape.toList := by
    by_cases h : caller.contains '.' <;> simp [shape, h]
  have hnode : CallGraph.dotNode caller =
      "  " ++ ("\"" ++ CallGraph.escapeDot caller ++ "\"") ++ (" [shape=" ++ shape ++ "];") ++ "\n" := by
    apply String.toList_injective
    simp [CallGraph.dotNode, shape]
  have hlexes := ((lexes_plain "  " (by simp)).append (lexes_quoted caller)).append
    (lexes_plain (" [shape=" ++ shape ++ "];") (by simpa using hshape.1))
  have hline := lined_line hlexes (by simpa using hshape.2)
  rwa [← hnode] at hline

theorem lined_dotEdge (caller callee : String) :
    Lined (CallGraph.dotEdge caller callee) [edgeLine caller callee] := by
  have hedge : CallGraph.dotEdge caller callee =
      "  " ++ ("\"" ++ CallGraph.escapeDot caller ++ "\"") ++ " -> " ++
        ("\"" ++ CallGraph.escapeDot callee ++ "\"") ++ ";" ++ "\n" := by
    apply String.toList_injective
    simp [CallGraph.dotEdge]
  have harrow := ((lexes_plain "  " (by simp)).append (lexes_quoted caller)).append (lexes_plain " -> " (by simp))
  have hlexes := (harrow.append (lexes_quoted callee)).append (lexes_plain ";" (by simp))
  have hline := lined_line hlexes (by simp)
  rwa [← hedge] at hline

end Drawing

namespace CallGraph

open Drawing

/-- A drawing has a line for each caller and a line for each call, between lines that are the same for all graphs. -/
theorem lines_toDot (g : CallGraph) :
    lines g.toDot.toList = headerLines ++ g.toList.map (fun e => nodeLine e.1) ++ [[]] ++
      g.calls.map (fun call => edgeLine call.1 call.2) ++ [[.mark '\x7d'], []] := by
  have hnodes := lined_join g.toList fun e => lined_dotNode e.1
  have hedges := lined_join g.toList fun e => lined_join e.2 (lined_dotEdge e.1)
  have hblank := lined_plain "" (by simp) (by simp)
  have hclose := lined_plain "\x7d" (by simp) (by simp)
  have htext := (((lined_dotHeader.append hnodes).append hblank).append hedges).append hclose
  have hend : lines [] = [[]] := rfl
  simpa [toDot, calls, List.map_flatMap, ← List.map_eq_flatMap, Function.comp_def, hend] using htext []

theorem items_toDot (g : CallGraph) :
    items g.toDot.toList = g.toList.map (fun e => .node e.1) ++ g.calls.map fun call => .edge call.1 call.2 := by
  have hheader : headerLines.filterMap item? = [] := by decide
  change (lines g.toDot.toList).filterMap item? = _
  rw [lines_toDot]
  simp [hheader, List.filterMap_cons, List.filterMap_map, Function.comp_def, item?, nodeLine, edgeLine]

theorem nodes_toDot (g : CallGraph) : nodes g.toDot = g.toList.map Prod.fst := by
  have hcallers : g.toList.filterMap (fun e => some e.1) = g.toList.map Prod.fst := by simp
  have hcalls : g.calls.filterMap (fun _ => (none : Option String)) = [] := by simp
  rw [nodes, items_toDot, List.filterMap_append, List.filterMap_map, List.filterMap_map]
  exact (congrArg₂ (· ++ ·) hcallers hcalls).trans (List.append_nil _)

theorem edges_toDot (g : CallGraph) : edges g.toDot = g.calls := by
  have hcallers : g.toList.filterMap (fun _ => (none : Option (String × String))) = [] := by simp
  have hcalls : g.calls.filterMap (fun call => some (call.1, call.2)) = g.calls := by simp
  rw [edges, items_toDot, List.filterMap_append, List.filterMap_map, List.filterMap_map]
  exact congrArg₂ (· ++ ·) hcallers hcalls

/-- The nodes of a drawing are the callers in the order of their bytes, and its edges are all calls, caller by caller
and in the order of the callees of each. So drawings tell graphs apart. -/
theorem toDot_faithful (g : CallGraph) :
    nodes g.toDot = g.toList.map Prod.fst ∧
    (nodes g.toDot).Pairwise (fun a b => Utf8.encode a < Utf8.encode b) ∧
    (∀ name, name ∈ nodes g.toDot ↔ g.contains name = true) ∧
    edges g.toDot = g.calls ∧
    (∀ caller callee, (caller, callee) ∈ edges g.toDot ↔ g.hasEdge caller callee = true) ∧
    ∀ g' : CallGraph, g.toDot = g'.toDot ↔ g = g' := by
  refine ⟨nodes_toDot g, ?_, ?_, edges_toDot g, ?_, ?_⟩
  · rw [nodes_toDot]
    exact g.callers.keys_sorted.imp Utf8.encode_lt_iff.2
  · intro name
    rw [nodes_toDot]
    exact g.callers.mem_keys_iff name
  · intro caller callee
    simp [edges_toDot, mem_calls_iff, hasEdge]
  · intro g'
    constructor
    · intro htext
      apply ext_calls
      · rw [← nodes_toDot, ← nodes_toDot, htext]
      · rw [← edges_toDot, ← edges_toDot, htext]
    · rintro rfl
      rfl

/-- Names that look like the lines of a drawing, and names made of what is escaped. -/
def drawnNames : CallGraph :=
  .ofList [("a\";\n  \"b\" -> \"c", ["\\\"", "\"\\", "d"]), ("\\", []), ("a", ["b\" -> \"c"])]

theorem toDot_faithful_drawnNames :
    nodes drawnNames.toDot = ["\\", "a", "a\";\n  \"b\" -> \"c"] ∧
    edges drawnNames.toDot =
      [("a", "b\" -> \"c"), ("a\";\n  \"b\" -> \"c", "\\\""), ("a\";\n  \"b\" -> \"c", "\"\\"),
        ("a\";\n  \"b\" -> \"c", "d")] ∧
    drawnNames.toDot ≠ (drawnNames.addEdge "a" "d").toDot := by
  obtain ⟨hnodes, -, -, hedges, -, hequal⟩ := toDot_faithful drawnNames
  rw [hnodes, hedges, Ne, hequal]
  decide

end CallGraph

end CallLineage
