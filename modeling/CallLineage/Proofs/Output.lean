import CallLineage.CommandLine
import CallLineage.Proofs.Arguments
import CallLineage.Proofs.Overwriting
/-! Runs that write the graph to a file.
The file is written last, when all that can fail before it has succeeded, and with what is printed when no file is
named. So a run that fails changes nothing, and a run that succeeds changes the one file, also when the file is among
those that were read. -/
namespace CallLineage.CommandLine

open Arguments

/-! ## Arguments -/

def outputOption : OptionRule := ⟨"output", some 'o', .single, nonEmpty⟩

theorem single_topRule : topRule.Single := by
  simp [CommandRule.Single, topRule, configOption]

theorem single_analyzeRule : analyzeRule.Single := by
  simp [CommandRule.Single, analyzeRule, configOption]

theorem once_output : analyzeRule.Once "output" where
  positional := by simp [analyzeRule, dirPositional]
  option := by simp [analyzeRule, configOption]

theorem eq_outputOption {o : OptionRule} (h : o ∈ analyzeRule.options) (hname : o.name = "output") :
    o = outputOption := by
  simp only [analyzeRule, List.mem_cons, List.not_mem_nil, or_false] at h
  rcases h with rfl | rfl | rfl | rfl | rfl | rfl <;> simp_all [configOption, outputOption]

/-- The arguments of `analyze` follow its name, and the options before it name no file to write. -/
theorem exists_of_parse_analyze {args : List String} {vs : Values} (h : parse args = .ok (.analyze vs)) :
    ∃ lead rest own top, args = lead ++ "analyze" :: rest ∧ read analyzeRule rest = .ok own ∧ vs = own ++ top ∧
      top.get? "output" = none ∧
        ∀ rest own, read analyzeRule rest = .ok own →
          parse (lead ++ "analyze" :: rest) = .ok (.analyze (own ++ top)) := by
  rw [parse] at h
  obtain ⟨⟨top, name, rest⟩, hlead, hcommand⟩ := exists_of_bind_eq_ok h
  obtain ⟨lead, hargs, hkept, hagain⟩ := exists_of_readLeading single_topRule hlead
  dsimp only at hcommand
  split at hcommand
  · obtain ⟨own, hread, hvalues⟩ := exists_of_bind_eq_ok hcommand
    cases hvalues
    refine ⟨lead, rest, own, top, hargs, hread, rfl, hkept "output" (by simp [topRule, configOption]), ?_⟩
    intro rest own hread
    have hlead := hagain rest ((lead ++ "analyze" :: rest).length + 1) (by rw [List.length_append]; omega)
    rw [parse, hlead]
    simp only [bind, Except.bind, hread, pure, Except.pure]
  · obtain ⟨own, -, hvalues⟩ := exists_of_bind_eq_ok hcommand
    cases hvalues
  · obtain ⟨own, -, hvalues⟩ := exists_of_bind_eq_ok hcommand
    cases hvalues
  · split at hcommand
    · cases hcommand
    · split at hcommand <;> cases hcommand
    · cases hcommand
  · cases hcommand

/-- A command line that names a file to write has one without it, with the same other values. -/
theorem exists_parse_without {args : List String} {vs : Values} {file : String} (h : parse args = .ok (.analyze vs))
    (hfile : vs.get? "output" = some file) : ∃ before spelled after, args = before ++ spelled ++ after ∧
      spelled ∈ outputOption.spellings file ∧ parse (before ++ after) = .ok (.analyze (vs.without "output")) := by
  obtain ⟨lead, rest, own, top, rfl, hread, rfl, htop, hparse⟩ := exists_of_parse_analyze h
  have hown : own.get? "output" = some file := by
    cases hown : own.get? "output" with
    | none =>
      rw [Values.get?_append_of_eq_none hown, htop] at hfile
      cases hfile
    | some own => rw [← hfile, Values.get?_append_of_eq_some hown]
  obtain ⟨o, ho, hname, before, spelled, after, rfl, hspelled, hwithout⟩ :=
    exists_read_without once_output single_analyzeRule hread hown
  refine ⟨lead ++ "analyze" :: before, spelled, after, by simp, eq_outputOption ho hname ▸ hspelled, ?_⟩
  rw [List.append_assoc, List.cons_append, hparse _ _ hwithout, Values.without_append, Values.without_eq_self htop]

example : outputOption.spellings "f" = [["--output", "f"], ["--output=f"], ["-o", "f"], ["-of"], ["-o=f"]] := by
  decide

/-! ## Runs -/

def drawn (w : World) (vs : Values) : Except String (Analysis × String) := do
  let c := withOptions (← configOf w vs (dirOf w vs)) vs
  let format ← ExportFormat.ofName c.format
  let a ← analysisOf w (dirOf w vs) c
  return (a, a.graph.render format)

/-- The end of a run that found what to write: the text is printed, or written to the file that is named. -/
def delivered (w : World) (d : Analysis × String) : Option String → Except String Outcome
  | none => .ok (Outcome.printed w d.2)
  | some file =>
    match w.tree.write ⟨file⟩ (Utf8.encode d.2) with
    | .error _ => .error ("failed to write " ++ file)
    | .ok tree =>
      .ok ⟨0, none, [], some ("Wrote " ++ toString d.1.graph.size ++ " functions, " ++
        toString d.1.graph.edgeCount ++ " edges to " ++ file), tree⟩

variable {w : World} {args : List String} {vs : Values}

theorem analyze_eq (w : World) (vs : Values) :
    analyze w vs = drawn w vs >>= fun d => delivered w d (vs.get? "output") := by
  simp only [analyze, drawn, delivered, bind_assoc, pure_bind]
  rfl

theorem drawn_without (w : World) (vs : Values) : drawn w (vs.without "output") = drawn w vs := by
  have hdir : dirOf w (vs.without "output") = dirOf w vs := by
    rw [dirOf, dirOf, Values.get?_without (by decide)]
  have hconfig : configOf w (vs.without "output") (dirOf w vs) = configOf w vs (dirOf w vs) := by
    rw [configOf, configOf, Values.get?_without (by decide)]
  have hoptions : ∀ c, withOptions c (vs.without "output") = withOptions c vs := by
    intro c
    rw [withOptions, withOptions, Values.getAll_without (by decide), Values.getAll_without (by decide),
      Values.has_without (by decide), Values.get?_without (by decide)]
  simp only [drawn, hdir, hconfig, hoptions]

/-- A run that found what to write fails only when the file cannot be written. -/
theorem delivered_cases (w : World) (d : Analysis × String) (file : String) :
    (∃ e reason, w.tree.write ⟨file⟩ (Utf8.encode d.2) = .error e ∧ delivered w d (some file) = .error reason) ∨
      ∃ t notice, w.tree.write ⟨file⟩ (Utf8.encode d.2) = .ok t ∧
        delivered w d (some file) = .ok ⟨0, none, [], notice, t⟩ := by
  cases hwrite : w.tree.write ⟨file⟩ (Utf8.encode d.2) with
  | error e => exact .inl ⟨e, _, rfl, by rw [delivered, hwrite]⟩
  | ok t => exact .inr ⟨t, _, rfl, by rw [delivered, hwrite]⟩

theorem code_of_delivered {d : Analysis × String} {file : Option String} {o : Outcome}
    (h : delivered w d file = .ok o) : o.code = 0 := by
  cases file with
  | none =>
    cases h
    rfl
  | some file =>
    rcases delivered_cases w d file with ⟨e, reason, -, herror⟩ | ⟨t, notice, -, hok⟩
    · rw [herror] at h
      cases h
    · rw [hok] at h
      cases h
      rfl

theorem code_of_analyze (o : Outcome) (h : analyze w vs = .ok o) : o.code = 0 := by
  rw [analyze_eq] at h
  obtain ⟨d, -, hdelivered⟩ := exists_of_bind_eq_ok h
  exact code_of_delivered hdelivered

theorem code_of_callers (o : Outcome) (h : callers w vs = .ok o) : o.code = 0 := by
  obtain ⟨c, -, hconfig⟩ := exists_of_bind_eq_ok h
  obtain ⟨a, -, hanalysis⟩ := exists_of_bind_eq_ok hconfig
  dsimp only at hanalysis
  split at hanalysis
  · cases hanalysis
  · cases hanalysis
    rfl

theorem code_of_info (o : Outcome) (h : info w vs = .ok o) : o.code = 0 := by
  obtain ⟨c, -, hconfig⟩ := exists_of_bind_eq_ok h
  obtain ⟨a, -, hanalysis⟩ := exists_of_bind_eq_ok hconfig
  cases hanalysis
  rfl

theorem unchanged_of_ofExcept {r : Except String Outcome} (hok : ∀ o, r = .ok o → o.code = 0)
    (h : (Outcome.ofExcept w r).code ≠ 0) :
    (Outcome.ofExcept w r).tree = w.tree ∧ (Outcome.ofExcept w r).output = [] := by
  cases r with
  | error reason => exact ⟨rfl, rfl⟩
  | ok o => exact absurd (hok o rfl) h

/-- A run that fails prints nothing and leaves the files as they were. -/
theorem unchanged_of_run (h : (run w args).code ≠ 0) : (run w args).tree = w.tree ∧ (run w args).output = [] := by
  rw [run] at h ⊢
  split at h
  · rename_i stop _
    cases stop with
    | help => exact absurd rfl h
    | version => exact absurd rfl h
    | usage => exact ⟨rfl, rfl⟩
  · exact unchanged_of_ofExcept code_of_analyze h
  · exact unchanged_of_ofExcept code_of_callers h
  · exact unchanged_of_ofExcept code_of_info h

theorem run_of_parse (h : parse args = .ok (.analyze vs)) :
    run w args = Outcome.ofExcept w (drawn w vs >>= fun d => delivered w d (vs.get? "output")) := by
  rw [run, h, ← analyze_eq]

/-- How a run with a file to write ends, beside the same run without one: neither comes to its text, or the text is
printed and cannot be written, or it is printed and written. -/
theorem run_cases {plain : List String} {file : String} (w : World) (hargs : parse args = .ok (.analyze vs))
    (hfile : vs.get? "output" = some file) (hplain : parse plain = .ok (.analyze (vs.without "output"))) :
    (∃ reason, run w args = Outcome.failed w reason ∧ run w plain = Outcome.failed w reason) ∨
    (∃ text reason e, run w args = Outcome.failed w reason ∧ run w plain = Outcome.printed w text ∧
      w.tree.write ⟨file⟩ (Utf8.encode text) = .error e) ∨
    ∃ text notice t, run w args = ⟨0, none, [], notice, t⟩ ∧ run w plain = Outcome.printed w text ∧
      w.tree.write ⟨file⟩ (Utf8.encode text) = .ok t := by
  have hwrites := run_of_parse (w := w) hargs
  have hprints := run_of_parse (w := w) hplain
  rw [hfile] at hwrites
  rw [drawn_without, Values.get?_without_self] at hprints
  cases hdrawn : drawn w vs with
  | error reason =>
    rw [hdrawn] at hwrites hprints
    exact .inl ⟨reason, hwrites, hprints⟩
  | ok d =>
    rw [hdrawn] at hwrites hprints
    rcases delivered_cases w d file with ⟨e, reason, hwrite, herror⟩ | ⟨t, notice, hwrite, hok⟩
    · exact .inr (.inl ⟨d.2, reason, e, hwrites.trans (congrArg (Outcome.ofExcept w) herror), hprints, hwrite⟩)
    · exact .inr (.inr ⟨d.2, notice, t, hwrites.trans (congrArg (Outcome.ofExcept w) hok), hprints, hwrite⟩)

/-- A run that fails prints nothing and changes no file. A run with a file to write prints nothing. Its command line
has one without the file, which differs in the one option only; the run succeeds when that one does and what that one
prints can be written. The file then holds what the other run prints, and every other entry is as it was. All this holds
whatever stands in the file before, so also when it is among the sources or the ignore rules. -/
theorem run_output (w : World) (args : List String) :
    ((run w args).code ≠ 0 → (run w args).tree = w.tree ∧ (run w args).output = []) ∧
    ∀ vs file, parse args = .ok (.analyze vs) → vs.get? "output" = some file →
      (run w args).output = [] ∧ ∃ before spelled after, args = before ++ spelled ++ after ∧
        spelled ∈ outputOption.spellings file ∧ parse (before ++ after) = .ok (.analyze (vs.without "output")) ∧
        ((run w args).code = 0 ↔ (run w (before ++ after)).code = 0 ∧
          ∃ t, w.tree.write ⟨file⟩ (run w (before ++ after)).output = .ok t) ∧
        ((run w args).code = 0 → ¬w.tree.IsLink ⟨file⟩ →
          (run w args).tree.read ⟨file⟩ = .ok (run w (before ++ after)).output ∧
          ∃ place, (run w args).tree.find ⟨file⟩ = .ok place ∧
            FileTree.Wrote w.tree (run w args).tree place.names (run w (before ++ after)).output) := by
  refine ⟨unchanged_of_run, fun vs file hargs hfile => ?_⟩
  obtain ⟨before, spelled, after, hsplit, hspelled, hplain⟩ := exists_parse_without hargs hfile
  rcases run_cases w hargs hfile hplain with ⟨reason, hwrites, hprints⟩ |
    ⟨text, reason, e, hwrites, hprints, hwrite⟩ | ⟨text, notice, t, hwrites, hprints, hwrite⟩
  · refine ⟨by rw [hwrites]; rfl, before, spelled, after, hsplit, hspelled, hplain, ?_, fun hcode => ?_⟩
    · simp [hwrites, hprints, Outcome.failed]
    · simp [hwrites, Outcome.failed] at hcode
  · refine ⟨by rw [hwrites]; rfl, before, spelled, after, hsplit, hspelled, hplain, ?_, fun hcode => ?_⟩
    · simp [hwrites, hprints, Outcome.failed, Outcome.printed, hwrite]
    · simp [hwrites, Outcome.failed] at hcode
  · refine ⟨by rw [hwrites], before, spelled, after, hsplit, hspelled, hplain, ?_, fun _ hlink => ?_⟩
    · simp [hwrites, hprints, Outcome.printed, hwrite]
    · obtain ⟨place, hfind, hwrote, hread⟩ := FileTree.exists_wrote_of_write hwrite hlink
      rw [hwrites, hprints]
      exact ⟨hread, place, hfind, hwrote⟩

def lone : World :=
  ⟨⟨.dir [("p", .dir [("a.go", .file (Utf8.encode "func A() { A() }\n"))])], ⟨"/p"⟩⟩, [], []⟩

/-- The only source can be the file to write, and then holds its own graph. A file in a directory that is missing cannot
be written, and nothing is. -/
theorem run_output_lone :
    (run lone ["analyze"]).output = Utf8.encode "A calls:\n  - A\n" ∧
    ((run lone ["analyze", "-o", "a.go"]).code = 0 ∧ ¬lone.tree.IsLink ⟨"a.go"⟩ ∧
      ∃ before spelled after, ["analyze", "-o", "a.go"] = before ++ spelled ++ after ∧
        spelled ∈ outputOption.spellings "a.go" ∧ parse (before ++ after) = .ok (.analyze []) ∧
        (run lone ["analyze", "-o", "a.go"]).tree.read ⟨"a.go"⟩ = .ok (run lone (before ++ after)).output) ∧
    ((run lone ["analyze", "--output=q/x"]).code ≠ 0 ∧ (run lone ["analyze", "--output=q/x"]).tree = lone.tree) := by
  have hcode : (run lone ["analyze", "-o", "a.go"]).code = 0 := by decide +kernel
  have hfails : (run lone ["analyze", "--output=q/x"]).code ≠ 0 := by decide +kernel
  have hlink : ¬lone.tree.IsLink ⟨"a.go"⟩ := by
    rintro ⟨directory, name, target, hlast, hchild⟩
    cases hlast
    cases hchild
  obtain ⟨-, before, spelled, after, hargs, hspelled, hplain, -, hwritten⟩ :=
    (run_output lone ["analyze", "-o", "a.go"]).2 [("output", "a.go")] "a.go" rfl rfl
  exact ⟨by decide +kernel,
    ⟨hcode, hlink, before, spelled, after, hargs, hspelled, hplain, (hwritten hcode hlink).1⟩,
    hfails, ((run_output lone ["analyze", "--output=q/x"]).1 hfails).1⟩

end CallLineage.CommandLine
