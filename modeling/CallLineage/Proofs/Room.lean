import CallLineage.Proofs.Serving
/-! Serving into a sink that takes a limited number of bytes.
A line that fits is written as into any sink and leaves less room; the first line that does not fit is cut where the
room ends, and serving stops there. So what is written is the beginning of what would be written without a limit. -/
namespace CallLineage

/-- Whether the sink, and not the input, is the reason of a failure. -/
def ServeFailure.isOfSink : ServeFailure → Bool
  | decode _ => false
  | encode | write => true

namespace Server

variable (s : Server) (t : FileTree)

def line (r : Request) : Bytes := s.answer t r ++ [0x0a]

def lines (rs : List Request) : Bytes := rs.flatMap (s.line t)

@[simp] theorem lines_nil : s.lines t [] = [] := rfl

@[simp] theorem lines_cons (r : Request) (rs : List Request) : s.lines t (r :: rs) = s.line t r ++ s.lines t rs := rfl

theorem lines_append (rs rs' : List Request) : s.lines t (rs ++ rs') = s.lines t rs ++ s.lines t rs' :=
  List.flatMap_append

@[simp] theorem length_line (r : Request) : (s.line t r).length = (s.answer t r).length + 1 := by
  simp [line]

/-- The failure at a line that does not fit: room for the answer may be left, but then none for the end of the line. -/
def stopAt (r : Request) (room : Nat) : ServeFailure := if room < (s.answer t r).length then .encode else .write

variable {s t} {input rest : List Utf8.Symbol} {r : Request}

/-- One request: its line is written whole if it fits, and else it is cut and serving stops. -/
theorem serveFrom_request (h : nextRequest input = .ok (some (r, rest))) (fuel count room : Nat) (written : Bytes) :
    s.serveFrom t (fuel + 1) count ⟨written, some room⟩ input =
      if (s.line t r).length ≤ room then
        s.serveFrom t fuel (count + 1) ⟨written ++ s.line t r, some (room - (s.line t r).length)⟩ rest
      else ⟨count, written ++ (s.line t r).take room, some (s.stopAt t r room)⟩ := by
  rw [length_line, serveFrom, h]
  by_cases hbody : (s.answer t r).length ≤ room
  · by_cases hend : (s.answer t r).length + 1 ≤ room
    · have hleft : 1 ≤ room - (s.answer t r).length := by omega
      have htake : (s.answer t r).take room = s.answer t r := List.take_of_length_le hbody
      have hnewline : List.take (room - (s.answer t r).length) [(0x0a : UInt8)] = [0x0a] :=
        List.take_of_length_le hleft
      simp [Sink.write, hbody, hend, hleft, htake, hnewline, line, Nat.sub_sub]
    · have hroom : room = (s.answer t r).length := by omega
      rw [if_neg hend]
      simp [Sink.write, line, stopAt, hroom]
  · have hlt : room < (s.answer t r).length := by omega
    have hend : ¬(s.answer t r).length + 1 ≤ room := by omega
    have htake : (s.line t r).take room = (s.answer t r).take room := List.take_append_of_le_length (by omega)
    simp [Sink.write, hbody, hend, htake, stopAt, hlt]

variable {rs : List Request} {fault : Option Json.Fault}

/-- With room for all lines, serving is as without a limit. -/
theorem Decodes.serveFrom_of_le (h : Decodes input rs fault) {n room : Nat} (hn : input.length < n)
    (hroom : (s.lines t rs).length ≤ room) (count : Nat) (written : Bytes) :
    s.serveFrom t n count ⟨written, some room⟩ input =
      ⟨count + rs.length, written ++ s.lines t rs, fault.map .decode⟩ := by
  induction h generalizing n room count written with
  | done h =>
    obtain ⟨n, rfl⟩ := Nat.exists_eq_add_of_lt hn
    simp [serveFrom, h]
  | broken h =>
    obtain ⟨n, rfl⟩ := Nat.exists_eq_add_of_lt hn
    simp [serveFrom, h]
  | @next input rest r rs fault h hrest ih =>
    obtain ⟨n, rfl⟩ := Nat.exists_eq_add_of_lt hn
    obtain ⟨front, c, hinput, -⟩ := exists_last_of_nextRequest h
    have hlt : rest.length < input.length + n := by simp [hinput]; omega
    rw [lines_cons, List.length_append] at hroom
    have hfits : (s.line t r).length ≤ room := by omega
    rw [serveFrom_request h, if_pos hfits, ih hlt (by omega), lines_cons, List.append_assoc, List.length_cons,
      Nat.add_assoc, Nat.add_comm 1]

/-- Without room for all lines there is a first request whose line does not fit, and nothing is written after it. -/
theorem Decodes.serveFrom_of_lt (h : Decodes input rs fault) {n room : Nat} (hn : input.length < n)
    (hroom : room < (s.lines t rs).length) (count : Nat) (written : Bytes) :
    ∃ before r later, rs = before ++ r :: later ∧ (s.lines t before).length ≤ room ∧
      room < (s.lines t before).length + (s.line t r).length ∧
      s.serveFrom t n count ⟨written, some room⟩ input =
        ⟨count + before.length,
          written ++ (s.lines t before ++ (s.line t r).take (room - (s.lines t before).length)),
          some (s.stopAt t r (room - (s.lines t before).length))⟩ := by
  induction h generalizing n room count written with
  | done h => simp at hroom
  | broken h => simp at hroom
  | @next input rest r rs fault h hrest ih =>
    obtain ⟨n, rfl⟩ := Nat.exists_eq_add_of_lt hn
    rw [serveFrom_request h]
    by_cases hfits : (s.line t r).length ≤ room
    · obtain ⟨front, c, hinput, -⟩ := exists_last_of_nextRequest h
      have hlt : rest.length < input.length + n := by simp [hinput]; omega
      rw [lines_cons, List.length_append] at hroom
      have hless : room - (s.line t r).length < (s.lines t rs).length := by omega
      obtain ⟨before, r', later, hrs, hle, hcut, hserved⟩ := ih hlt hless (count + 1) (written ++ s.line t r)
      have hlength : (s.lines t (r :: before)).length = (s.line t r).length + (s.lines t before).length := by simp
      refine ⟨r :: before, r', later, by rw [hrs, List.cons_append], by omega, by omega, ?_⟩
      rw [if_pos hfits, hserved, hlength, Nat.sub_sub, lines_cons, List.length_cons, Nat.add_assoc, Nat.add_comm 1]
      simp only [List.append_assoc]
    · refine ⟨[], r, rs, rfl, Nat.zero_le _, by simpa using hfits, ?_⟩
      rw [if_neg hfits]
      rfl

section Serve

variable {input : Bytes} {n : Nat} (h : Decodes (Utf8.symbols input) rs fault)

include h

theorem Decodes.serve_of_le (hle : (s.lines t rs).length ≤ n) : s.serve t input (some n) = s.serve t input none := by
  have hlen : (Utf8.symbols input).length < input.length + 1 := Nat.lt_succ_of_le (Utf8.length_symbols_le input)
  rw [h.serve_eq s t, serve, h.serveFrom_of_le hlen hle, Nat.zero_add, List.nil_append]
  rfl

theorem Decodes.serve_of_lt (hlt : n < (s.lines t rs).length) : ∃ before r later, rs = before ++ r :: later ∧
    (s.lines t before).length ≤ n ∧ n < (s.lines t before).length + (s.line t r).length ∧
    s.serve t input (some n) =
      ⟨before.length, s.lines t before ++ (s.line t r).take (n - (s.lines t before).length),
        some (s.stopAt t r (n - (s.lines t before).length))⟩ := by
  have hlen : (Utf8.symbols input).length < input.length + 1 := Nat.lt_succ_of_le (Utf8.length_symbols_le input)
  obtain ⟨before, r, later, hrs, hle, hline, hserved⟩ := h.serveFrom_of_lt (s := s) (t := t) hlen hlt 0 []
  rw [Nat.zero_add, List.nil_append] at hserved
  exact ⟨before, r, later, hrs, hle, hline, hserved⟩

end Serve

/-- What a sink that takes `n` bytes gets is the first `n` bytes of what is written without a limit. Serving fails
because of the sink exactly when that is longer, whatever is wrong with the input behind, and otherwise it ends as
without a limit. When it fails there is one request whose line does not fit: the lines before it are written whole, its
own is cut, and requests behind it add nothing. -/
theorem serve_room (s : Server) (t : FileTree) (input : Bytes) (n : Nat) :
    (s.serve t input (some n)).output = (s.serve t input none).output.take n ∧
    ((s.serve t input (some n)).failure.any ServeFailure.isOfSink = true ↔
      n < (s.serve t input none).output.length) ∧
    ((s.serve t input none).output.length ≤ n → s.serve t input (some n) = s.serve t input none) ∧
    ∃ rs fault, Decodes (Utf8.symbols input) rs fault ∧ (s.serve t input none).output = s.lines t rs ∧
      (n < (s.lines t rs).length → ∃ before r later, rs = before ++ r :: later ∧
        (s.lines t before).length ≤ n ∧ n < (s.lines t before).length + (s.line t r).length ∧
        s.serve t input (some n) =
          ⟨before.length, s.lines t before ++ (s.line t r).take (n - (s.lines t before).length),
            some (s.stopAt t r (n - (s.lines t before).length))⟩) := by
  obtain ⟨rs, fault, h⟩ := exists_decodes (Utf8.symbols input)
  have hfull : s.serve t input none = ⟨rs.length, s.lines t rs, fault.map .decode⟩ := h.serve_eq s t
  have hwritten : (s.serve t input none).output = s.lines t rs := by rw [hfull]
  rw [hwritten]
  refine ⟨?_, ?_, h.serve_of_le, rs, fault, h, rfl, h.serve_of_lt⟩
  · rcases Nat.lt_or_ge n (s.lines t rs).length with hlt | hle
    · obtain ⟨before, r, later, hrs, hle, hline, hserved⟩ := h.serve_of_lt hlt
      rw [hserved, hrs, lines_append, lines_cons, List.take_append, List.take_of_length_le hle,
        List.take_append_of_le_length (by omega)]
    · rw [h.serve_of_le hle, hwritten, List.take_of_length_le hle]
  · rcases Nat.lt_or_ge n (s.lines t rs).length with hlt | hle
    · obtain ⟨before, r, later, -, -, -, hserved⟩ := h.serve_of_lt hlt
      have hstop : (s.stopAt t r (n - (s.lines t before).length)).isOfSink = true := by
        rw [stopAt]
        split <;> rfl
      simp [hserved, hstop, hlt]
    · have hclean : (fault.map ServeFailure.decode).any ServeFailure.isOfSink = false := by
        cases fault <;> rfl
      simp [h.serve_of_le hle, hfull, hclean, hle]

def small : Server := ⟨⟨"/p"⟩, .standard, []⟩

def oneFunction : FileTree :=
  ⟨.dir [("p", .dir [("a.go", .file (Utf8.encode "func A() { A() }\n"))])], ⟨"/p"⟩⟩

/-- A sink that is full within the second of three lines is not told of the fault in the input behind them, and one that
is full at their end is. -/
theorem serve_room_oneFunction :
    ((small.serve oneFunction (twoRequests ++ brokenOff) none).output.length = 93 ∧
      (small.serve oneFunction (twoRequests ++ brokenOff) none).failure = some (.decode .ended)) ∧
    ((small.serve oneFunction (twoRequests ++ brokenOff) (some 65)).failure.any ServeFailure.isOfSink = true ∧
      ∃ before r later, (before ++ r :: later).length = 3 ∧
        small.serve oneFunction (twoRequests ++ brokenOff) (some 65) =
          ⟨before.length,
            small.lines oneFunction before ++
              (small.line oneFunction r).take (65 - (small.lines oneFunction before).length),
            some (small.stopAt oneFunction r (65 - (small.lines oneFunction before).length))⟩) ∧
    small.serve oneFunction (twoRequests ++ brokenOff) (some 93) =
      small.serve oneFunction (twoRequests ++ brokenOff) none := by
  have hlength : (small.serve oneFunction (twoRequests ++ brokenOff) none).output.length = 93 := by decide +kernel
  have hended : (small.serve oneFunction (twoRequests ++ brokenOff) none).count = 3 ∧
      (small.serve oneFunction (twoRequests ++ brokenOff) none).failure = some (.decode .ended) := by
    decide +kernel
  obtain ⟨-, hfails, -, rs, fault, hdecodes, hlines, hcut⟩ :=
    serve_room small oneFunction (twoRequests ++ brokenOff) 65
  obtain ⟨-, -, hfits, -⟩ := serve_room small oneFunction (twoRequests ++ brokenOff) 93
  have hthree : rs.length = 3 := by rw [← hended.1, hdecodes.serve_eq]
  obtain ⟨before, r, later, hrs, -, -, hserved⟩ := hcut (by rw [← hlines, hlength]; decide)
  exact ⟨⟨hlength, hended.2⟩, ⟨hfails.2 (by rw [hlength]; decide), before, r, later, hrs ▸ hthree, hserved⟩,
    hfits (Nat.le_of_eq hlength)⟩

end Server

end CallLineage
