import CallLineage.Export
import CallLineage.Proofs.Json.RoundTrip
import CallLineage.Proofs.Utf8
/-! Every value of the wire format comes back from its JSON form.
A graph is read by binding one caller after another; since its callers are written in order, each binding goes to the
end and the entries come back as they were, from the form on one line and from the form on many. -/
namespace CallLineage

open Utf8 (Symbol)
open Json Json.Reader

/-! ## Sorted bindings -/

theorem SortedMap.entries_insert_of_lt {α : Type} {m : SortedMap α} {k : String} (h : ∀ e ∈ m.entries, e.1 < k)
    (v : α) : (m.insert k v).entries = m.entries ++ [(k, v)] := by
  have hlast : ∀ l : List (String × α), (∀ e ∈ l, e.1 < k) → alterEntries k (fun _ => v) l = l ++ [(k, v)] := by
    intro l hl
    induction l with
    | nil => rfl
    | cons e l ih =>
      have hlt : e.1 < k := hl e List.mem_cons_self
      have hne : k ≠ e.1 := by
        intro heq
        rw [heq] at hlt
        exact String.lt_irrefl _ hlt
      rw [alterEntries, if_neg (String.lt_asymm hlt), if_neg hne, ih fun e' he' => hl e' (List.mem_cons_of_mem e he'),
        List.cons_append]
  exact hlast m.entries h

/-! ## Declarations -/

theorem Declaration.reads_toJson {d : Declaration} (h : d.line < UInt64.size) :
    Reads Declaration.reader (symbolsOf d.toJson) d := by
  obtain ⟨name, function, receiver, file, line⟩ := d
  have hname := reads_string name
  have hfunction := reads_string function
  have hfile := reads_string file.text
  have hline : Reads natural (symbolsOf (toString line)) line := reads_natural h
  cases receiver with
  | none =>
    exact reads_record (.cons rfl (hname.map _) (.cons rfl (hfunction.map _)
      (.cons rfl (hfile.map _) (.cons rfl (hline.map _) (.nil _))))) rfl
  | some type =>
    exact reads_record (.cons rfl (hname.map _) (.cons rfl (hfunction.map _)
      (.cons rfl ((reads_optionalString type).map _)
        (.cons rfl (hfile.map _) (.cons rfl (hline.map _) (.nil _)))))) rfl

/-! ## Call graphs -/

namespace CallGraph

/-- What a graph under construction does with a caller: it binds the list of callees that follows. -/
def bindCaller (m : SortedMap (List String)) (caller : String) :
    Except Fault (Option (Reader (SortedMap (List String)))) :=
  .ok (some (do return m.insert caller (← Reader.list string)))

/-- Callers that come in order fill a graph up to the one that has them all. -/
theorem fills_bindCaller {write : List String → List Symbol}
    (hwrite : ∀ callees, Reads (Reader.list string) (write callees) callees) {m whole : SortedMap (List String)}
    {rest : List (String × List String)} (h : m.entries ++ rest = whole.entries) :
    Fills bindCaller m (rest.map fun e => (e.1, write e.2)) whole := by
  induction rest generalizing m with
  | nil =>
    have hm : m = whole := by
      apply SortedMap.ext
      simpa using h
    rw [hm]
    exact .nil whole
  | cons e rest ih =>
    have hlt : ∀ e' ∈ m.entries, e'.1 < e.1 := by
      have hsorted := whole.sorted
      rw [← h, List.pairwise_append] at hsorted
      exact fun e' he' => hsorted.2.2 e' he' e List.mem_cons_self
    have hentries : (m.insert e.1 e.2).entries ++ rest = whole.entries := by
      rw [SortedMap.entries_insert_of_lt hlt, ← h]
      simp
    exact .cons rfl ((hwrite e.2).map (m.insert e.1)) (ih hentries)

theorem reads_spread {gap space close : List Symbol} (hgap : Blank gap) (hspace : Blank space)
    (hclose : Blank close) {write : List String → List Symbol}
    (hwrite : ∀ callees, Reads (Reader.list string) (write callees) callees) (g : CallGraph) :
    Reads CallGraph.reader
      (.char '\x7b' :: (spread gap ((g.toList.map fun e => (e.1, write e.2)).map (memberText space)) ++
        (close ++ [.char '\x7d']))) g where
  starts := ⟨.char '\x7b', _, rfl, by decide, by decide⟩
  ok {front rest} hfront _ := by
    have hfills : Fills bindCaller .empty (g.toList.map fun e => (e.1, write e.2)) g.callers :=
      fills_bindCaller hwrite rfl
    rw [CallGraph.reader, List.cons_append, bind_of_ok (peek_blank hfront (by decide) _), if_pos (by decide),
      bind_of_ok (drop_cons ..)]
    simp only [List.append_assoc, List.singleton_append]
    exact hfills.members_fuel hgap hspace hclose rest _

/-! ### The form on one line -/

theorem reads_toCompactJson (g : CallGraph) : Reads CallGraph.reader (symbolsOf g.toCompactJson) g := by
  have hcallees : ∀ callees : List String,
      Reads (Reader.list string) (symbolsOf (Json.list (callees.map quote))) callees :=
    fun callees => reads_list fun s _ => reads_string s
  have hgraph := reads_spread blank_nil blank_nil blank_nil hcallees g
  have htext : symbolsOf g.toCompactJson =
      .char '\x7b' :: (spread [] ((g.toList.map fun e => (e.1, symbolsOf (Json.list (e.2.map quote)))).map
        (memberText [])) ++ ([] ++ [.char '\x7d'])) := by
    simp [toCompactJson, symbolsOf_object, Function.comp_def]
  rw [htext]
  exact hgraph

/-! ### The form on many lines -/

theorem symbolsOf_lines (indent : String) {items : List String} (h : items ≠ []) :
    symbolsOf "\n" ++ symbolsOf (String.intercalate ",\n" (items.map fun i => indent ++ i)) =
      spread (symbolsOf ("\n" ++ indent)) (items.map symbolsOf) := by
  induction items with
  | nil => exact absurd rfl h
  | cons i items ih =>
    cases items with
    | nil => simp [spread]
    | cons j items =>
      have htail := ih (List.cons_ne_nil j items)
      simp only [List.map_cons, spread, String.intercalate_cons_cons, symbolsOf_append, List.append_assoc] at htail ⊢
      have hcomma : symbolsOf ",\n" = .char ',' :: symbolsOf "\n" := rfl
      rw [hcomma, List.cons_append, htail]
      simp

/-- Items between brackets, each on a line of its own, are items with blanks around them. -/
theorem symbolsOf_bracketed (opening closing : String) {indent : String} (hindent : Blank (symbolsOf indent))
    (items : List String) :
    ∃ gap close, Blank gap ∧ Blank close ∧ symbolsOf (bracketed opening closing indent items) =
      symbolsOf opening ++ (spread gap (items.map symbolsOf) ++ (close ++ symbolsOf closing)) := by
  have hline : Blank (symbolsOf ("\n" ++ indent)) := by
    rw [symbolsOf_append]
    exact Blank.append (by decide) hindent
  have hgap : Blank (symbolsOf ("\n" ++ (indent ++ "  "))) := by
    rw [← String.append_assoc, symbolsOf_append]
    exact hline.append (by decide)
  by_cases hempty : items = []
  · rw [hempty]
    exact ⟨_, [], hgap, blank_nil, by simp [bracketed, spread]⟩
  · have hlines := symbolsOf_lines (indent ++ "  ") hempty
    refine ⟨_, _, hgap, hline, ?_⟩
    rw [← hlines]
    simp [bracketed, hempty]

theorem reads_bracketed_list (callees : List String) :
    Reads (Reader.list string) (symbolsOf (bracketed "[" "]" "  " (callees.map quote))) callees := by
  obtain ⟨gap, close, hgap, hclose, htext⟩ :=
    symbolsOf_bracketed "[" "]" (by decide : Blank (symbolsOf "  ")) (callees.map quote)
  have hlist := reads_spread_list hgap hclose (fun s (_ : s ∈ callees) => reads_string s)
  rw [htext, List.map_map]
  exact hlist

/-- The lines of a graph, without the line end behind them. -/
theorem reads_bracketed (g : CallGraph) :
    Reads CallGraph.reader (symbolsOf (bracketed "\x7b" "\x7d" "" (g.toList.map fun e =>
      quote e.1 ++ ": " ++ bracketed "[" "]" "  " (e.2.map quote)))) g := by
  obtain ⟨gap, close, hgap, hclose, htext⟩ :=
    symbolsOf_bracketed "\x7b" "\x7d" (by decide : Blank (symbolsOf "")) (g.toList.map fun e =>
      quote e.1 ++ ": " ++ bracketed "[" "]" "  " (e.2.map quote))
  have hgraph := reads_spread hgap (by decide : Blank (symbolsOf " ")) hclose reads_bracketed_list g
  have hmember : ∀ e : String × List String,
      symbolsOf (quote e.1 ++ ": " ++ bracketed "[" "]" "  " (e.2.map quote)) =
        memberText (symbolsOf " ") (e.1, symbolsOf (bracketed "[" "]" "  " (e.2.map quote))) := by
    intro e
    rw [symbolsOf_append, symbolsOf_append, List.append_assoc]
    rfl
  rw [htext, List.map_map]
  simp only [List.map_map, Function.comp_def, hmember] at hgraph ⊢
  exact hgraph

theorem whole_toJson (g : CallGraph) : whole CallGraph.reader (symbolsOf g.toJson) = .ok g := by
  rw [toJson, symbolsOf_append]
  exact g.reads_bracketed.whole_blank (by decide)

end CallGraph

/-! ## The wire format -/

/-- A value that is read from a written text is read from the bytes of that text. -/
theorem Json.whole_encode {α : Type} {r : Reader α} {text : String} {a : α} (h : whole r (symbolsOf text) = .ok a) :
    whole r (Utf8.symbols (Utf8.encode text)) = .ok a := by
  rw [Utf8.symbols_encode_self]
  exact h

/-- Reading undoes writing for every value of the wire format, whatever its strings hold: requests, answers,
declarations whose line has 64 bits, and call graphs, these from both of their forms. -/
theorem whole_written :
    (∀ r : Request, whole Request.reader (Utf8.symbols (Utf8.encode r.toJson)) = .ok r) ∧
    (∀ c : CodeAnalysis, whole CodeAnalysis.reader (Utf8.symbols (Utf8.encode c.toJson)) = .ok c) ∧
    (∀ d : Declaration, d.line < UInt64.size →
      whole Declaration.reader (Utf8.symbols (Utf8.encode d.toJson)) = .ok d) ∧
    (∀ g : CallGraph, whole CallGraph.reader (Utf8.symbols (Utf8.encode g.toCompactJson)) = .ok g) ∧
    ∀ g : CallGraph, whole CallGraph.reader (Utf8.symbols (Utf8.encode g.toJson)) = .ok g := by
  refine ⟨?_, ?_, ?_, ?_, ?_⟩
  · intro r
    exact whole_encode r.reads_toJson.whole
  · intro c
    exact whole_encode c.reads_toJson.whole
  · intro d hd
    exact whole_encode (Declaration.reads_toJson hd).whole
  · intro g
    exact whole_encode g.reads_toCompactJson.whole
  · intro g
    exact whole_encode g.whole_toJson

/-- A method on the last line there is, of a receiver without a name, with quotes, backslashes, control characters and
characters of two and four bytes in its strings. -/
def lastLine : Declaration :=
  ⟨".\"\\\x00\x1f", "é\n\r\t", some "", ⟨"a b/\x7f😀.go"⟩, UInt64.size - 1⟩

theorem whole_written_lastLine : lastLine.line < UInt64.size ∧
    whole Declaration.reader (Utf8.symbols (Utf8.encode lastLine.toJson)) = .ok lastLine := by
  have hline : lastLine.line < UInt64.size := by decide
  exact ⟨hline, whole_written.2.2.1 lastLine hline⟩

end CallLineage
