import CallLineage.Arguments
/-! What the arguments of a command are read as.
Arguments are options, each with the arguments that spell it, and positional values. What stands before and after an
option is read as it would be without the option, so an option that may be given once can be left out: all others keep
their values. -/
namespace CallLineage.Arguments

/-! ## Values -/

namespace Values

def without (vs : Values) (name : String) : Values := vs.filter (·.1 != name)

variable {vs : Values} {name other value : String}

theorem without_append (vs more : Values) (name : String) :
    Values.without (vs ++ more) name = vs.without name ++ more.without name :=
  List.filter_append vs more

theorem without_concat_self (vs : Values) (name value : String) :
    Values.without (vs ++ [(name, value)]) name = vs.without name := by
  simp [without]

theorem without_concat_of_ne (h : other ≠ name) :
    Values.without (vs ++ [(other, value)]) name = vs.without name ++ [(other, value)] := by
  simp [without, h]

theorem get?_without (h : other ≠ name) : (vs.without name).get? other = vs.get? other := by
  rw [get?, get?, without]
  induction vs with
  | nil => rfl
  | cons x vs ih =>
    obtain ⟨n, v⟩ := x
    by_cases hn : n = name
    · have hb : (other == n) = false := beq_false_of_ne (hn ▸ h)
      rw [List.filter_cons_of_neg (by simpa using hn), ih, List.lookup_cons, hb]
    · rw [List.filter_cons_of_pos (by simpa using hn), List.lookup_cons, List.lookup_cons, ih]

theorem getAll_without (h : other ≠ name) : (vs.without name).getAll other = vs.getAll other := by
  rw [getAll, getAll, without, List.filter_filter]
  congr 2
  funext x
  by_cases hx : x.1 = other <;> simp [hx, h]

theorem has_without (h : other ≠ name) : (vs.without name).has other = vs.has other := by
  rw [has, has, without, List.any_filter]
  congr 1
  funext x
  by_cases hx : x.1 = other <;> simp [hx, h]

theorem has_eq_isSome (vs : Values) (name : String) : vs.has name = (vs.get? name).isSome := by
  rw [has, get?]
  induction vs with
  | nil => rfl
  | cons x vs ih =>
    obtain ⟨n, v⟩ := x
    rw [List.any_cons, List.lookup_cons, ih]
    by_cases hn : n = name
    · simp [hn]
    · rw [beq_false_of_ne hn, beq_false_of_ne (Ne.symm hn), Bool.false_or]

theorem get?_without_self (vs : Values) (name : String) : (vs.without name).get? name = none := by
  rw [← Option.not_isSome_iff_eq_none, ← has_eq_isSome]
  simp [has, without]

theorem without_eq_self (h : vs.get? name = none) : vs.without name = vs := by
  have hhas : vs.has name = false := by rw [has_eq_isSome, h, Option.isSome_none]
  rw [has, List.any_eq_false] at hhas
  exact List.filter_eq_self.2 fun x hx => by simpa using hhas x hx

theorem get?_append_of_eq_none {more : Values} (h : vs.get? name = none) :
    Values.get? (vs ++ more) name = more.get? name := by
  rw [get?] at h
  rw [get?, List.lookup_append, h, Option.none_or, get?]

theorem get?_append_of_eq_some {more : Values} (h : vs.get? name = some value) :
    Values.get? (vs ++ more) name = some value := by
  rw [get?] at h
  rw [get?, List.lookup_append, h, Option.some_or]

theorem get?_concat_of_ne (h : other ≠ name) : Values.get? (vs ++ [(other, value)]) name = vs.get? name := by
  have hb : (name == other) = false := beq_false_of_ne (Ne.symm h)
  simp [get?, List.lookup_append, List.lookup_cons, hb]

end Values

/-! ## One value -/

theorem exists_of_bind_eq_ok {ε α β : Type} {x : Except ε α} {f : α → Except ε β} {b : β} (h : x >>= f = .ok b) :
    ∃ a, x = .ok a ∧ f a = .ok b := by
  cases x with
  | error e => cases h
  | ok a => exact ⟨a, rfl, h⟩

variable {rule : CommandRule} {o : OptionRule} {vs vs' : Values} {name value : String}

theorem addOption_eq_ok_iff : addOption vs o value = .ok vs' ↔
    o.allows value = true ∧ (o.arity = .many ∨ vs.has o.name = false) ∧ vs' = vs ++ [(o.name, value)] := by
  rw [addOption]
  by_cases hallows : o.allows value = true <;> by_cases hmany : o.arity = .many <;>
    cases hhas : vs.has o.name <;> simp [hallows, hmany, eq_comm]

theorem addOption_without (h : addOption vs o value = .ok vs') (hname : o.name ≠ name) :
    addOption (vs.without name) o value = .ok (vs'.without name) := by
  obtain ⟨hallows, honce, rfl⟩ := addOption_eq_ok_iff.1 h
  rw [Values.without_concat_of_ne hname]
  exact addOption_eq_ok_iff.2 ⟨hallows, by rwa [Values.has_without hname], rfl⟩

theorem exists_of_addPositional (h : addPositional rule vs value = .ok vs') :
    ∃ p ∈ rule.positionals, vs' = vs ++ [(p.name, value)] := by
  rw [addPositional] at h
  split at h
  · cases h
  · rename_i p hfind
    split at h
    · cases h
      exact ⟨p, List.mem_of_find?_eq_some hfind, rfl⟩
    · cases h

theorem addPositional_without (hname : ∀ p ∈ rule.positionals, p.name ≠ name)
    (h : addPositional rule vs value = .ok vs') :
    addPositional rule (vs.without name) value = .ok (vs'.without name) := by
  have hfind : (rule.positionals.find? fun p => !(vs.without name).has p.name) =
      rule.positionals.find? fun p => !vs.has p.name := by
    rw [← List.head?_filter, ← List.head?_filter, List.filter_congr fun p hp => ?_]
    rw [Values.has_without (hname p hp)]
  rw [addPositional] at h ⊢
  rw [hfind]
  split at h
  · cases h
  · rename_i p hp
    split at h
    · cases h
      rw [if_pos ‹_›, Values.without_concat_of_ne (hname p (List.mem_of_find?_eq_some hp))]
    · cases h

/-! ## Options -/

def OptionRule.spellings (o : OptionRule) (value : String) : List (List String) :=
  if o.arity = .flag then [["--" ++ o.name]]
  else
    [["--" ++ o.name, value], ["--" ++ o.name ++ "=" ++ value]] ++
      match o.short with
      | none => []
      | some c => [["-" ++ c.toString, value], ["-" ++ c.toString ++ value], ["-" ++ c.toString ++ "=" ++ value]]

/-- No flag has a short name, so an argument gives one option at most. -/
def CommandRule.Single (rule : CommandRule) : Prop := ∀ o ∈ rule.options, o.short.isSome = true → o.arity ≠ .flag

/-- The arguments `a :: tail` are read as a value of an option, whatever was read before and whatever follows. -/
structure Gives (rule : CommandRule) (o : OptionRule) (value a : String) (tail : List String) : Prop where
  mem : o ∈ rule.options
  spelled : a :: tail ∈ o.spellings value
  option : a ≠ "--" ∧ isValue a = false
  reads : ∀ vs rest, readOption rule vs a (tail ++ rest) = (addOption vs o value).map (·, rest)

theorem bind_pair (x : Except Stop Values) (rest : List String) : (do return (← x, rest)) = x.map (·, rest) := by
  cases x <;> rfl

theorem takeNext_cons (hvalue : isValue value = true) (vs : Values) (o : OptionRule) (rest : List String) :
    takeNext vs o (value :: rest) = (addOption vs o value).map (·, rest) := by
  rw [takeNext, if_pos hvalue, bind_pair]

theorem map_pair_eq_ok_iff {x : Except Stop Values} {rest rest' : List String} :
    x.map (·, rest) = .ok (vs', rest') ↔ x = .ok vs' ∧ rest = rest' := by
  cases x <;> simp [Except.map]

theorem exists_of_takeNext {rest rest' : List String} (h : takeNext vs o rest = .ok (vs', rest')) :
    ∃ value, isValue value = true ∧ rest = value :: rest' ∧ addOption vs o value = .ok vs' := by
  cases rest with
  | nil => cases h
  | cons value rest =>
    by_cases hvalue : isValue value = true
    · rw [takeNext_cons hvalue, map_pair_eq_ok_iff] at h
      exact ⟨value, hvalue, by rw [h.2], h.1⟩
    · simp [takeNext, hvalue] at h

/-- What a reader of options does when it succeeds: it reads a value of an option from the first arguments, and would
do so whatever was read before and whatever follows them. -/
def ReadsOne (rule : CommandRule) (a : String) (read : Values → List String → Except Stop (Values × List String)) :
    Prop :=
  ∀ vs rest vs' rest', read vs rest = .ok (vs', rest') → ∃ o ∈ rule.options, ∃ value tail,
    a :: tail ∈ o.spellings value ∧ rest = tail ++ rest' ∧ addOption vs o value = .ok vs' ∧
      ∀ vs rest, read vs (tail ++ rest) = (addOption vs o value).map (·, rest)

namespace ReadsOne

variable {a : String} {read : Values → List String → Except Stop (Values × List String)}

theorem of_map (value : String) (hmem : o ∈ rule.options) (hspelled : [a] ∈ o.spellings value)
    (h : ∀ vs rest, read vs rest = (addOption vs o value).map (·, rest)) : ReadsOne rule a read := by
  intro vs rest vs' rest' hread
  rw [h, map_pair_eq_ok_iff] at hread
  exact ⟨o, hmem, value, [], hspelled, hread.2, hread.1, h⟩

theorem of_takeNext (hmem : o ∈ rule.options) (hspelled : ∀ value, [a, value] ∈ o.spellings value)
    (h : ∀ vs rest, read vs rest = takeNext vs o rest) : ReadsOne rule a read := by
  intro vs rest vs' rest' hread
  rw [h] at hread
  obtain ⟨value, hvalue, rfl, hadd⟩ := exists_of_takeNext hread
  refine ⟨o, hmem, value, [value], hspelled value, rfl, hadd, fun vs rest => ?_⟩
  rw [h, List.singleton_append, takeNext_cons hvalue]

theorem of_error (h : ∀ vs rest, ∃ stop, read vs rest = .error stop) : ReadsOne rule a read := by
  intro vs rest vs' rest' hread
  obtain ⟨stop, hstop⟩ := h vs rest
  rw [hstop] at hread
  cases hread

end ReadsOne

theorem readsOne_readLong (rule : CommandRule) (body : List Char) :
    ReadsOne rule (String.ofList ('-' :: '-' :: body)) fun vs rest => readLong rule vs body rest := by
  have hbody : body.takeWhile (· != '=') ++ body.dropWhile (· != '=') = body := List.takeWhile_append_dropWhile
  have hequals := List.head?_dropWhile_not (· != '=') body
  cases hfind : rule.options.find? fun o => o.name == String.ofList (body.takeWhile (· != '=')) with
  | none =>
    refine .of_error fun vs rest => ?_
    simp only [readLong, hfind]
    repeat' split
    all_goals exact ⟨_, rfl⟩
  | some o =>
    have hmem := List.mem_of_find?_eq_some hfind
    have hname : o.name = String.ofList (body.takeWhile (· != '=')) := by simpa using List.find?_some hfind
    cases hdrop : body.dropWhile (· != '=') with
    | nil =>
      have hlong : String.ofList ('-' :: '-' :: body) = "--" ++ o.name := by
        rw [hdrop, List.append_nil] at hbody
        rw [← String.toList_inj, hname, hbody]
        simp
      rw [hlong]
      cases harity : o.arity with
      | flag =>
        refine .of_map "" hmem (by simp [OptionRule.spellings, harity]) fun vs rest => ?_
        simp only [readLong, hfind, hdrop, harity, bind_pair]
      | single | many =>
        refine .of_takeNext hmem (by simp [OptionRule.spellings, harity]) fun vs rest => ?_
        simp only [readLong, hfind, hdrop, harity]
    | cons c v =>
      have hc : c = '=' := by simpa [hdrop] using hequals
      have hlong : String.ofList ('-' :: '-' :: body) = "--" ++ o.name ++ "=" ++ String.ofList v := by
        rw [hdrop, hc] at hbody
        rw [← String.toList_inj, hname]
        simp [hbody]
      rw [hlong]
      cases harity : o.arity with
      | flag =>
        refine .of_error fun vs rest => ⟨.usage, ?_⟩
        simp only [readLong, hfind, hdrop, harity]
      | single | many =>
        refine .of_map (String.ofList v) hmem (by simp [OptionRule.spellings, harity]) fun vs rest => ?_
        simp only [readLong, hfind, hdrop, harity, bind_pair]

theorem readsOne_readShort (hrule : rule.Single) (c : Char) (cs : List Char) :
    ReadsOne rule (String.ofList ('-' :: c :: cs)) fun vs rest => readShort rule rest (c :: cs) vs := by
  cases hfind : rule.options.find? fun o => o.short == some c with
  | none =>
    refine .of_error fun vs rest => ?_
    simp only [readShort, hfind]
    repeat' split
    all_goals exact ⟨_, rfl⟩
  | some o =>
    have hmem := List.mem_of_find?_eq_some hfind
    have hshort : o.short = some c := by simpa using List.find?_some hfind
    have harity : o.arity ≠ .flag := hrule o hmem (by rw [hshort, Option.isSome_some])
    have hargument : String.ofList ('-' :: c :: cs) = "-" ++ c.toString ++ String.ofList cs := by
      rw [← String.toList_inj]
      simp
    rw [hargument]
    cases cs with
    | nil =>
      refine .of_takeNext hmem (by simp [OptionRule.spellings, harity, hshort]) fun vs rest => ?_
      simp only [readShort, hfind, if_neg harity]
    | cons d v =>
      by_cases hd : d = '='
      · have hvalue : String.ofList (d :: v) = "=" ++ String.ofList v := by
          rw [← String.toList_inj, hd]
          simp
        rw [hvalue, hd, ← String.append_assoc]
        refine .of_map (String.ofList v) hmem (by simp [OptionRule.spellings, harity, hshort]) fun vs rest => ?_
        simp only [readShort, hfind, if_neg harity, bind_pair]
      · refine .of_map (String.ofList (d :: v)) hmem (by simp [OptionRule.spellings, harity, hshort]) fun vs rest => ?_
        simp only [readShort, hfind, if_neg harity]
        split
        · contradiction
        · simp_all
        · rw [bind_pair]

theorem exists_eq_ofList_of_isValue {a : String} (h : isValue a = false) :
    ∃ c cs, a = String.ofList ('-' :: c :: cs) := by
  rw [isValue, Bool.or_eq_false_iff, beq_eq_false_iff_ne, bne_eq_false_iff_eq] at h
  obtain ⟨hdash, hhead⟩ := h
  obtain ⟨body, hbody⟩ := List.head?_eq_some_iff.1 hhead
  cases body with
  | nil => exact absurd (by rw [← String.toList_inj, hbody]; rfl) hdash
  | cons c cs => exact ⟨c, cs, by rw [← hbody, String.ofList_toList]⟩

theorem readsOne_readOption (hrule : rule.Single) {a : String} (h : isValue a = false) :
    ReadsOne rule a fun vs rest => readOption rule vs a rest := by
  obtain ⟨c, cs, rfl⟩ := exists_eq_ofList_of_isValue h
  by_cases hc : c = '-'
  · subst hc
    simpa only [readOption, String.toList_ofList] using readsOne_readLong rule cs
  · have hread : ∀ vs rest, readOption rule vs (String.ofList ('-' :: c :: cs)) rest =
        readShort rule rest (c :: cs) vs := by
      intro vs rest
      rw [readOption, String.toList_ofList]
      split
      · simp_all
      · simp_all
      · contradiction
    simpa only [hread] using readsOne_readShort hrule c cs

theorem exists_gives (hrule : rule.Single) {a : String} {rest rest' : List String} (hdashes : a ≠ "--")
    (hvalue : isValue a = false) (h : readOption rule vs a rest = .ok (vs', rest')) :
    ∃ o value tail, rest = tail ++ rest' ∧ Gives rule o value a tail ∧ addOption vs o value = .ok vs' := by
  obtain ⟨o, hmem, value, tail, hspelled, hrest, hadd, hreads⟩ := readsOne_readOption hrule hvalue vs rest vs' rest' h
  exact ⟨o, value, tail, hrest, ⟨hmem, hspelled, ⟨hdashes, hvalue⟩, hreads⟩, hadd⟩

/-! ## All arguments -/

inductive Reads (rule : CommandRule) : Values → List String → Values → Prop
  | done (vs : Values) : Reads rule vs [] vs
  | rest {vs vs' : Values} {args : List String} (h : args.foldlM (addPositional rule) vs = .ok vs') :
    Reads rule vs ("--" :: args) vs'
  | positional {vs added vs' : Values} {a : String} {args : List String} (value : isValue a = true)
    (add : addPositional rule vs a = .ok added) (next : Reads rule added args vs') : Reads rule vs (a :: args) vs'
  | option {vs added vs' : Values} {o : OptionRule} {value a : String} {tail args : List String}
    (gives : Gives rule o value a tail) (add : addOption vs o value = .ok added) (next : Reads rule added args vs') :
    Reads rule vs (a :: tail ++ args) vs'

theorem ne_dashes_of_isValue {a : String} (h : isValue a = true) : a ≠ "--" := by
  rintro rfl
  revert h
  decide

theorem readAll_value {fuel : Nat} {a : String} {args : List String} (h : isValue a = true) :
    readAll rule (fuel + 1) vs (a :: args) = addPositional rule vs a >>= fun added => readAll rule fuel added args := by
  rw [readAll, if_neg (by simpa using ne_dashes_of_isValue h), if_pos h]

theorem readAll_option {fuel : Nat} {a : String} {args : List String} (hdashes : a ≠ "--") (h : isValue a = false) :
    readAll rule (fuel + 1) vs (a :: args) =
      readOption rule vs a args >>= fun read => readAll rule fuel read.1 read.2 := by
  rw [readAll, if_neg (by simpa using hdashes), if_neg (by simp [h])]

theorem reads_of_readAll (hrule : rule.Single) {fuel : Nat} {args : List String} (hfuel : args.length < fuel)
    (h : readAll rule fuel vs args = .ok vs') : Reads rule vs args vs' := by
  induction fuel generalizing vs args with
  | zero => cases hfuel
  | succ fuel ih =>
    cases args with
    | nil =>
      cases h
      exact .done _
    | cons a args =>
      have hargs : args.length < fuel := by simpa using hfuel
      by_cases hdashes : a = "--"
      · subst hdashes
        exact .rest h
      · cases hvalue : isValue a with
        | true =>
          rw [readAll_value hvalue] at h
          obtain ⟨added, hadd, hnext⟩ := exists_of_bind_eq_ok h
          exact .positional hvalue hadd (ih hargs hnext)
        | false =>
          rw [readAll_option hdashes hvalue] at h
          obtain ⟨⟨added, rest⟩, hread, hnext⟩ := exists_of_bind_eq_ok h
          obtain ⟨o, value, tail, rfl, hgives, hadd⟩ := exists_gives hrule hdashes hvalue hread
          rw [List.length_append] at hargs
          exact .option hgives hadd (ih (by omega) hnext)

theorem Reads.readAll_eq {fuel : Nat} {args : List String} (h : Reads rule vs args vs') (hfuel : args.length < fuel) :
    readAll rule fuel vs args = .ok vs' := by
  induction h generalizing fuel with
  | done vs =>
    obtain ⟨fuel, rfl⟩ := Nat.exists_eq_add_one.2 hfuel
    rfl
  | rest h =>
    obtain ⟨fuel, rfl⟩ := Nat.exists_eq_add_one.2 (Nat.zero_lt_of_lt hfuel)
    exact h
  | positional value add next ih =>
    obtain ⟨fuel, rfl⟩ := Nat.exists_eq_add_one.2 (Nat.zero_lt_of_lt hfuel)
    rw [readAll_value value, add]
    exact ih (by simpa using hfuel)
  | option gives add next ih =>
    obtain ⟨fuel, rfl⟩ := Nat.exists_eq_add_one.2 (Nat.zero_lt_of_lt hfuel)
    rw [List.cons_append, readAll_option gives.option.1 gives.option.2, gives.reads, add]
    exact ih (by simp at hfuel; omega)

theorem read_eq_ok_iff (hrule : rule.Single) {args : List String} : read rule args = .ok vs ↔
    Reads rule [] args vs ∧ (rule.positionals.all fun p => !p.required || vs.has p.name) = true := by
  constructor
  · intro h
    obtain ⟨found, hreads, hfound⟩ := exists_of_bind_eq_ok h
    split at hfound
    · cases hfound
      exact ⟨reads_of_readAll hrule (Nat.lt_succ_self _) hreads, ‹_›⟩
    · cases hfound
  · rintro ⟨hreads, hrequired⟩
    rw [read, hreads.readAll_eq (Nat.lt_succ_self _)]
    exact if_pos hrequired

theorem readLeading_value {fuel : Nat} {a : String} (h : isValue a = true) (vs : Values) (rest : List String) :
    readLeading rule (fuel + 1) vs (a :: rest) = .ok (vs, a, rest) := by
  rw [readLeading, if_neg (by simpa using ne_dashes_of_isValue h), if_pos h]

theorem readLeading_option {fuel : Nat} {a : String} {args : List String} (hdashes : a ≠ "--") (h : isValue a = false) :
    readLeading rule (fuel + 1) vs (a :: args) =
      readOption rule vs a args >>= fun read => readLeading rule fuel read.1 read.2 := by
  rw [readLeading, if_neg (by simpa using hdashes), if_neg (by simp [h])]

/-- The options in front of a subcommand are read whatever follows its name, and only they are. -/
theorem exists_of_readLeading (hrule : rule.Single) {fuel : Nat} {args rest : List String}
    (h : readLeading rule fuel vs args = .ok (vs', name, rest)) : ∃ lead, args = lead ++ name :: rest ∧
      (∀ other, (∀ o ∈ rule.options, o.name ≠ other) → vs'.get? other = vs.get? other) ∧
        ∀ rest fuel, lead.length < fuel → readLeading rule fuel vs (lead ++ name :: rest) = .ok (vs', name, rest) := by
  induction fuel generalizing vs args with
  | zero => cases h
  | succ fuel ih =>
    cases args with
    | nil => cases h
    | cons a args =>
      by_cases hdashes : a = "--"
      · simp [readLeading, hdashes] at h
      · cases hvalue : isValue a with
        | true =>
          rw [readLeading_value hvalue] at h
          cases h
          refine ⟨[], rfl, fun _ _ => rfl, fun rest fuel hfuel => ?_⟩
          obtain ⟨fuel, rfl⟩ := Nat.exists_eq_add_one.2 hfuel
          exact readLeading_value hvalue _ rest
        | false =>
          rw [readLeading_option hdashes hvalue] at h
          obtain ⟨⟨added, more⟩, hread, hnext⟩ := exists_of_bind_eq_ok h
          obtain ⟨o, value, tail, rfl, hgives, hadd⟩ := exists_gives hrule hdashes hvalue hread
          obtain ⟨lead, rfl, hkept, hlead⟩ := ih hnext
          refine ⟨a :: tail ++ lead, by simp, fun other hother => ?_, fun rest fuel hfuel => ?_⟩
          · obtain ⟨-, -, rfl⟩ := addOption_eq_ok_iff.1 hadd
            rw [hkept other hother, Values.get?_concat_of_ne (hother o hgives.mem)]
          · obtain ⟨fuel, rfl⟩ := Nat.exists_eq_add_one.2 (Nat.zero_lt_of_lt hfuel)
            rw [List.append_assoc, List.cons_append, readLeading_option hdashes hvalue, hgives.reads, hadd]
            exact hlead rest fuel (by simp at hfuel; omega)

/-! ## One option left out -/

/-- Whether a name is of no positional value, and of options that may be given once. -/
structure CommandRule.Once (rule : CommandRule) (name : String) : Prop where
  positional : ∀ p ∈ rule.positionals, p.name ≠ name
  option : ∀ o ∈ rule.options, o.name = name → o.arity ≠ .many

section Without

variable {args : List String} (hname : rule.Once name)

include hname

theorem get?_of_addPositional {a : String} (h : addPositional rule vs a = .ok vs') : vs'.get? name = vs.get? name := by
  obtain ⟨p, hp, rfl⟩ := exists_of_addPositional h
  exact Values.get?_concat_of_ne (hname.positional p hp)

theorem foldlM_without (h : args.foldlM (addPositional rule) vs = .ok vs') :
    args.foldlM (addPositional rule) (vs.without name) = .ok (vs'.without name) ∧ vs'.get? name = vs.get? name := by
  induction args generalizing vs with
  | nil =>
    cases h
    exact ⟨rfl, rfl⟩
  | cons a args ih =>
    rw [List.foldlM_cons] at h ⊢
    obtain ⟨added, hadd, hnext⟩ := exists_of_bind_eq_ok h
    rw [addPositional_without hname.positional hadd, ← get?_of_addPositional hname hadd]
    exact ih hnext

/-- What is read after the option does not depend on it, and its value stays. -/
theorem Reads.without (h : Reads rule vs args vs') (hget : vs.get? name = some value) :
    Reads rule (vs.without name) args (vs'.without name) ∧ vs'.get? name = some value := by
  induction h with
  | done vs => exact ⟨.done _, hget⟩
  | rest h =>
    obtain ⟨hrest, hsame⟩ := foldlM_without hname h
    exact ⟨.rest hrest, hsame.trans hget⟩
  | positional isValue add next ih =>
    obtain ⟨hnext, hvalue⟩ := ih ((get?_of_addPositional hname add).trans hget)
    exact ⟨.positional isValue (addPositional_without hname.positional add) hnext, hvalue⟩
  | @option vs added vs' o _ _ _ _ gives add next ih =>
    obtain ⟨-, hadds, rfl⟩ := addOption_eq_ok_iff.1 add
    have hne : o.name ≠ name := by
      intro heq
      rw [heq, Values.has_eq_isSome, hget] at hadds
      exact hadds.elim (hname.option o gives.mem heq) nofun
    obtain ⟨hnext, hvalue⟩ := ih ((Values.get?_concat_of_ne hne).trans hget)
    exact ⟨.option gives (addOption_without add hne) hnext, hvalue⟩

/-- An option that was given stands somewhere among the arguments, and the others are read as before without it. -/
theorem Reads.exists_without (h : Reads rule vs args vs') (hbefore : vs.get? name = none)
    (hget : vs'.get? name = some value) : ∃ o ∈ rule.options, o.name = name ∧ ∃ before spelled after,
      args = before ++ spelled ++ after ∧ spelled ∈ o.spellings value ∧
        Reads rule vs (before ++ after) (vs'.without name) := by
  induction h with
  | done vs =>
    rw [hbefore] at hget
    cases hget
  | rest h =>
    rw [(foldlM_without hname h).2, hbefore] at hget
    cases hget
  | @positional vs added vs' a args isValue add next ih =>
    obtain ⟨o, ho, hoption, before, spelled, after, rfl, hspelled, hreads⟩ :=
      ih ((get?_of_addPositional hname add).trans hbefore) hget
    exact ⟨o, ho, hoption, a :: before, spelled, after, rfl, hspelled, .positional isValue add hreads⟩
  | @option vs added vs' o given a tail args gives add next ih =>
    obtain ⟨-, -, rfl⟩ := addOption_eq_ok_iff.1 add
    by_cases hoption : o.name = name
    · -- The option itself: what follows is read without it.
      have hadded : Values.get? (vs ++ [(o.name, given)]) name = some given := by
        rw [Values.get?_append_of_eq_none hbefore]
        simp [Values.get?, hoption]
      obtain ⟨hreads, hgiven⟩ := next.without hname hadded
      rw [hoption, Values.without_concat_self, Values.without_eq_self hbefore] at hreads
      rw [hgiven] at hget
      cases hget
      exact ⟨o, gives.mem, hoption, [], a :: tail, args, rfl, gives.spelled, hreads⟩
    · obtain ⟨o', ho', hoption', before, spelled, after, rfl, hspelled, hreads⟩ :=
        ih ((Values.get?_concat_of_ne hoption).trans hbefore) hget
      refine ⟨o', ho', hoption', a :: tail ++ before, spelled, after, by simp, hspelled, ?_⟩
      rw [List.append_assoc]
      exact .option gives add hreads

/-- An option of a command can be left out of its arguments. -/
theorem exists_read_without (hrule : rule.Single) (h : read rule args = .ok vs) (hget : vs.get? name = some value) :
    ∃ o ∈ rule.options, o.name = name ∧ ∃ before spelled after, args = before ++ spelled ++ after ∧
      spelled ∈ o.spellings value ∧ read rule (before ++ after) = .ok (vs.without name) := by
  obtain ⟨hreads, hrequired⟩ := (read_eq_ok_iff hrule).1 h
  obtain ⟨o, ho, hoption, before, spelled, after, hargs, hspelled, hwithout⟩ := hreads.exists_without hname rfl hget
  refine ⟨o, ho, hoption, before, spelled, after, hargs, hspelled, (read_eq_ok_iff hrule).2 ⟨hwithout, ?_⟩⟩
  rw [List.all_eq_true] at hrequired ⊢
  intro p hp
  rw [Values.has_without (hname.positional p hp)]
  exact hrequired p hp

end Without

end CallLineage.Arguments
