import Mathlib.Data.List.TakeWhile
import CallLineage.Proofs.Json.RoundTrip
import CallLineage.Proofs.Utf8
import CallLineage.Server
/-! What a server writes for a stream of requests.
`Decodes` says which requests stand in an input and how it ends. A server answers them in order, each with one line,
so an input that ends cleanly may be followed by any other. -/
namespace CallLineage

open Json.Reader
open Utf8 (Symbol)

namespace Server

/-! ## One request -/

theorem nextRequest_eq (input : List Symbol) :
    nextRequest input =
      if input.dropWhile isBlank = [] then .ok none
      else (Request.reader (input.dropWhile isBlank)).map some := by
  rw [nextRequest, peek]
  cases input.dropWhile isBlank with
  | nil => rfl
  | cons s text =>
    rw [if_neg (List.cons_ne_nil s text)]
    change (Request.reader (s :: text) >>= fun next => .ok (some next)) = _
    cases Request.reader (s :: text) <;> rfl

theorem blank_of_nextRequest {input : List Symbol} (h : nextRequest input = .ok none) :
    ∀ s ∈ input, isBlank s = true := by
  rw [nextRequest_eq] at h
  split at h
  · exact List.dropWhile_eq_nil_iff.mp ‹_›
  · cases hr : Request.reader (input.dropWhile isBlank) with
    | error e =>
      rw [hr] at h
      cases h
    | ok next =>
      rw [hr] at h
      cases h

theorem reader_of_nextRequest {input rest : List Symbol} {r : Request}
    (h : nextRequest input = .ok (some (r, rest))) :
    input.dropWhile isBlank ≠ [] ∧ Request.reader (input.dropWhile isBlank) = .ok (r, rest) := by
  rw [nextRequest_eq] at h
  split at h
  · cases h
  · refine ⟨‹_›, ?_⟩
    cases hr : Request.reader (input.dropWhile isBlank) with
    | error e =>
      rw [hr] at h
      cases h
    | ok next =>
      rw [hr] at h
      cases h
      rfl

theorem nextRequest_blank {gap : List Symbol} (h : ∀ s ∈ gap, isBlank s = true) (input : List Symbol) :
    nextRequest (gap ++ input) = nextRequest input := by
  rw [nextRequest_eq, nextRequest_eq, List.dropWhile_append_of_pos h]

/-- What stands behind a request does not change it. -/
theorem nextRequest_append {input rest : List Symbol} {r : Request}
    (h : nextRequest input = .ok (some (r, rest))) (more : List Symbol) :
    nextRequest (input ++ more) = .ok (some (r, rest ++ more)) := by
  obtain ⟨hne, hr⟩ := reader_of_nextRequest h
  rw [nextRequest_eq, dropWhile_append_of_ne_nil hne, if_neg (by simp [hne]),
    (Request.closesOn_reader _).append hr]
  rfl

/-- A request ends behind a plain character. -/
theorem exists_last_of_nextRequest {input rest : List Symbol} {r : Request}
    (h : nextRequest input = .ok (some (r, rest))) :
    ∃ front c, input = front ++ .char c :: rest ∧ c.toNat < 0x80 := by
  obtain ⟨-, hr⟩ := reader_of_nextRequest h
  obtain ⟨front, c, htext, hc⟩ := (Request.closesOn_reader _).behind hr
  refine ⟨input.takeWhile isBlank ++ front, c, ?_, hc⟩
  rw [List.append_assoc, ← htext, List.takeWhile_append_dropWhile]

/-! ## All requests -/

/-- The requests of an input in order, and what is wrong with the text behind them, if anything is. -/
inductive Decodes : List Symbol → List Request → Option Json.Fault → Prop
  | done {input : List Symbol} (h : nextRequest input = .ok none) : Decodes input [] none
  | broken {input : List Symbol} {e : Json.Fault} (h : nextRequest input = .error e) : Decodes input [] (some e)
  | next {input rest : List Symbol} {r : Request} {rs : List Request} {fault : Option Json.Fault}
      (h : nextRequest input = .ok (some (r, rest))) (hrest : Decodes rest rs fault) : Decodes input (r :: rs) fault

theorem exists_decodes (input : List Symbol) : ∃ rs fault, Decodes input rs fault := by
  induction hn : input.length using Nat.strongRecOn generalizing input with
  | ind n ih =>
    subst hn
    cases h : nextRequest input with
    | error e => exact ⟨[], some e, .broken h⟩
    | ok next =>
      cases next with
      | none => exact ⟨[], none, .done h⟩
      | some next =>
        obtain ⟨r, rest⟩ := next
        obtain ⟨front, c, hinput, -⟩ := exists_last_of_nextRequest h
        have hlt : rest.length < input.length := by simp [hinput]; omega
        obtain ⟨rs, fault, hrest⟩ := ih rest.length hlt rest rfl
        exact ⟨r :: rs, fault, .next h hrest⟩

theorem Decodes.append {a b : List Symbol} {rs rs' : List Request} {fault : Option Json.Fault}
    (ha : Decodes a rs none) (hb : Decodes b rs' fault) : Decodes (a ++ b) (rs ++ rs') fault := by
  -- The requests of the first input are read as before; the blanks at its end go to the second.
  generalize hnone : (none : Option Json.Fault) = clean at ha
  induction ha with
  | broken h => cases hnone
  | next h hrest ih => exact .next (nextRequest_append h b) (ih hnone)
  | @done a h =>
    have hblank := nextRequest_blank (blank_of_nextRequest h) b
    cases hb with
    | done hb => exact .done (hblank.trans hb)
    | broken hb => exact .broken (hblank.trans hb)
    | next hb hrest => exact .next (hblank.trans hb) hrest

/-- A written request is read back, with blanks in front or without. -/
theorem nextRequest_written {gap : List Symbol} (h : Json.Blank gap) (r : Request) (rest : List Symbol) :
    nextRequest (gap ++ (Json.symbolsOf r.toJson ++ rest)) = .ok (some (r, rest)) := by
  have hreads := r.reads_toJson
  have hok := hreads.at_head (nofun : Json.Stops [])
  rw [List.append_nil] at hok
  obtain ⟨s, text, htext, hs, -⟩ := hreads.starts
  have hnext : nextRequest (Json.symbolsOf r.toJson) = .ok (some (r, [])) := by
    rw [nextRequest_eq, htext, List.dropWhile_cons_of_neg (by simp [hs]), if_neg (List.cons_ne_nil s text),
      ← htext, hok]
    rfl
  rw [nextRequest_blank h, nextRequest_append hnext, List.nil_append]

theorem decodes_written (ps : List (List Symbol × Request)) (h : ∀ p ∈ ps, Json.Blank p.1) :
    Decodes (ps.flatMap fun p => p.1 ++ Json.symbolsOf p.2.toJson) (ps.map Prod.snd) none := by
  induction ps with
  | nil => exact .done rfl
  | cons p ps ih =>
    rw [List.flatMap_cons, List.append_assoc]
    exact .next (nextRequest_written (h p List.mem_cons_self) p.2 _)
      (ih fun q hq => h q (List.mem_cons_of_mem p hq))

theorem exists_char_of_isBlank {s : Symbol} (h : isBlank s = true) : ∃ c, s = .char c ∧ c.toNat < 0x80 := by
  rcases Json.isBlank_cases h with rfl | rfl | rfl | rfl
  all_goals exact ⟨_, rfl, by decide⟩

theorem Decodes.exists_last {text : List Symbol} {rs : List Request} (h : Decodes text rs none) :
    text = [] ∨ ∃ front c, text = front ++ [.char c] ∧ c.toNat < 0x80 := by
  generalize hnone : (none : Option Json.Fault) = clean at h
  induction h with
  | broken h => cases hnone
  | @done text h =>
    have hblank := blank_of_nextRequest h
    by_cases hnil : text = []
    · exact .inl hnil
    · obtain ⟨c, hlast, hc⟩ := exists_char_of_isBlank (hblank _ (List.getLast_mem hnil))
      exact .inr ⟨text.dropLast, c, by rw [← hlast, List.dropLast_concat_getLast], hc⟩
  | @next input rest r rs fault h hrest ih =>
    obtain ⟨front, c, rfl, hc⟩ := exists_last_of_nextRequest h
    obtain rfl | ⟨front', c', rfl, hc'⟩ := ih hnone
    · exact .inr ⟨front, c, rfl, hc⟩
    · exact .inr ⟨front ++ .char c :: front', c', by rw [List.append_assoc, List.cons_append], hc'⟩

/-- An input that is read to its end may be cut there. -/
theorem Decodes.endsPlain {bs : Bytes} {rs : List Request} (h : Decodes (Utf8.symbols bs) rs none) :
    Utf8.EndsPlain bs := by
  obtain hnil | ⟨front, c, htext, hc⟩ := h.exists_last
  · have hbs := Utf8.bytes_symbols bs
    rw [hnil] at hbs
    subst hbs
    exact fun front b h => absurd h (by simp [Utf8.bytes])
  · exact Utf8.endsPlain_of_symbols htext hc

/-! ## Lines -/

/-- The answer to a request; the empty one where the analysis fails. -/
def reply (s : Server) (t : FileTree) (r : Request) : CodeAnalysis :=
  match s.handle t r with
  | .ok c => c
  | .error _ => .empty

theorem answer_eq (s : Server) (t : FileTree) (r : Request) :
    s.answer t r = Utf8.encode (s.reply t r).toJson := by
  unfold answer reply
  cases s.handle t r <;> rfl

theorem newline_not_mem_answer (s : Server) (t : FileTree) (r : Request) : 0x0a ∉ s.answer t r := by
  rw [answer_eq]
  intro h
  exact (s.reply t r).oneLine_toJson (Utf8.mem_encode_ascii h (by decide))

theorem whole_answer (s : Server) (t : FileTree) (r : Request) :
    whole CodeAnalysis.reader (Utf8.symbols (s.answer t r)) = .ok (s.reply t r) := by
  rw [answer_eq, Utf8.symbols_encode_self]
  exact (s.reply t r).reads_toJson.whole

theorem Decodes.serveFrom_eq {input : List Symbol} {rs : List Request} {fault : Option Json.Fault}
    (h : Decodes input rs fault) (s : Server) (t : FileTree) {n : Nat} (hn : input.length < n) (count : Nat)
    (written : Bytes) :
    s.serveFrom t n count ⟨written, none⟩ input =
      ⟨count + rs.length, written ++ rs.flatMap (fun r => s.answer t r ++ [0x0a]), fault.map .decode⟩ := by
  induction h generalizing n count written with
  | done h =>
    obtain ⟨n, rfl⟩ := Nat.exists_eq_add_of_lt hn
    simp [serveFrom, h]
  | broken h =>
    obtain ⟨n, rfl⟩ := Nat.exists_eq_add_of_lt hn
    simp [serveFrom, h]
  | @next input rest r rs fault h hrest ih =>
    obtain ⟨n, rfl⟩ := Nat.exists_eq_add_of_lt hn
    obtain ⟨front, c, hinput, -⟩ := exists_last_of_nextRequest h
    have hlt : rest.length < input.length + n := by simp [hinput]; omega
    simp [serveFrom, h, Sink.write, ih hlt]
    omega

/-- Everything about serving without a limit: the requests of the input decide it. -/
theorem Decodes.serve_eq {input : Bytes} {rs : List Request} {fault : Option Json.Fault}
    (h : Decodes (Utf8.symbols input) rs fault) (s : Server) (t : FileTree) :
    s.serve t input none =
      ⟨rs.length, rs.flatMap (fun r => s.answer t r ++ [0x0a]), fault.map .decode⟩ := by
  have hlen := Utf8.length_symbols_le input
  rw [serve, h.serveFrom_eq s t (by omega), Nat.zero_add, List.nil_append]

/-- Serving an input that ends cleanly and then another is serving both in one. What is written is one line for each
request of the input, and the line holds the answer to it; requests that are written one after another, with blanks
between them or without, are the requests of their input. -/
theorem serve_framed (s : Server) (t : FileTree) :
    (∀ a b : Bytes, (s.serve t a none).failure = none →
      s.serve t (a ++ b) none =
        ⟨(s.serve t a none).count + (s.serve t b none).count,
          (s.serve t a none).output ++ (s.serve t b none).output, (s.serve t b none).failure⟩) ∧
    (∀ input : Bytes, ∃ rs fault, Decodes (Utf8.symbols input) rs fault ∧
      s.serve t input none =
        ⟨rs.length, rs.flatMap (fun r => s.answer t r ++ [0x0a]), fault.map .decode⟩ ∧
      ∀ r ∈ rs, 0x0a ∉ s.answer t r ∧
        whole CodeAnalysis.reader (Utf8.symbols (s.answer t r)) = .ok (s.reply t r)) ∧
    ∀ ps : List (String × Request), (∀ p ∈ ps, Json.Blank (Json.symbolsOf p.1)) →
      Decodes (Utf8.symbols (Utf8.encode (String.join (ps.map fun p => p.1 ++ p.2.toJson))))
        (ps.map Prod.snd) none := by
  refine ⟨?_, ?_, ?_⟩
  · intro a b hclean
    obtain ⟨rs, fault, ha⟩ := exists_decodes (Utf8.symbols a)
    obtain ⟨rs', fault', hb⟩ := exists_decodes (Utf8.symbols b)
    have hfault : fault = none := by simpa [ha.serve_eq s t] using hclean
    subst hfault
    have hboth := ha.append hb
    -- The bytes may be cut there as well, since the first input ends in a bracket or a blank.
    rw [← Utf8.symbols_append b ha.endsPlain] at hboth
    simp [ha.serve_eq s t, hb.serve_eq s t, hboth.serve_eq s t]
  · intro input
    obtain ⟨rs, fault, h⟩ := exists_decodes (Utf8.symbols input)
    exact ⟨rs, fault, h, h.serve_eq s t, fun r _ => ⟨s.newline_not_mem_answer t r, s.whole_answer t r⟩⟩
  · intro ps hps
    have h := decodes_written (ps.map fun p => (Json.symbolsOf p.1, p.2)) (List.forall_mem_map.mpr hps)
    rw [List.flatMap_map, List.map_map] at h
    have htext : Utf8.symbols (Utf8.encode (String.join (ps.map fun p => p.1 ++ p.2.toJson))) =
        ps.flatMap fun p => Json.symbolsOf p.1 ++ Json.symbolsOf p.2.toJson := by
      simp [Utf8.symbols_encode_self, Json.symbolsOf, List.flatMap_map, List.map_flatMap]
    rwa [htext]

def oneCall : FileTree :=
  ⟨.dir [("p", .dir [("a.go", .file (Utf8.encode "func A() { B() }\nfunc B() {}\n"))])], ⟨"/p"⟩⟩

/-- Requests of both kinds and in both forms, and then one that breaks off. -/
def twoRequests : Bytes := Utf8.encode "[\"GET_LINEAGES\"] \x7b\"type\":\"PING\"\x7d\n"

def brokenOff : Bytes := Utf8.encode "[\"PING\",null]\x7b\"type"

theorem serve_framed_oneCall :
    (serve ⟨⟨"/p"⟩, .standard, []⟩ oneCall twoRequests none).failure = none ∧
      (serve ⟨⟨"/p"⟩, .standard, []⟩ oneCall (twoRequests ++ brokenOff) none).count = 3 ∧
      (serve ⟨⟨"/p"⟩, .standard, []⟩ oneCall (twoRequests ++ brokenOff) none).failure =
        some (.decode .ended) := by
  have hclean : (serve ⟨⟨"/p"⟩, .standard, []⟩ oneCall twoRequests none).failure = none := by
    decide +kernel
  have hcounts : (serve ⟨⟨"/p"⟩, .standard, []⟩ oneCall twoRequests none).count = 2 ∧
      (serve ⟨⟨"/p"⟩, .standard, []⟩ oneCall brokenOff none).count = 1 ∧
      (serve ⟨⟨"/p"⟩, .standard, []⟩ oneCall brokenOff none).failure = some (.decode .ended) := by
    decide +kernel
  have h := (serve_framed ⟨⟨"/p"⟩, .standard, []⟩ oneCall).1 twoRequests brokenOff hclean
  refine ⟨hclean, ?_, ?_⟩
  · rw [congrArg Served.count h, hcounts.1, hcounts.2.1]
  · rw [congrArg Served.failure h, hcounts.2.2]

end Server

end CallLineage
