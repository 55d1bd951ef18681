import CallLineage.Declaration
import CallLineage.Proofs.SortedMap
/-! What an index of declarations answers after any sequence of insertions.
The names, the records and the positions of first records stay in step: one insertion keeps them so, and with that every
history of insertions does. -/
namespace CallLineage.DeclarationIndex

/-- The names and the stored positions are in step with the records. -/
structure Valid (x : DeclarationIndex) : Prop where
  declared : ∀ name, x.contains name = x.records.any fun d => d.name == name
  /-- The position of a name is that of its first record. -/
  first : ∀ name, x.first.get? name = x.records.findIdx? fun d => d.name == name

theorem valid_empty : empty.Valid := ⟨fun _ => rfl, fun _ => rfl⟩

theorem Valid.insert {x : DeclarationIndex} (hx : x.Valid) (d : Declaration) : (x.insert d).Valid := by
  refine ⟨fun name => ?_, fun name => ?_⟩
  · have hdeclared := hx.declared name
    simp only [contains, SortedMap.contains] at hdeclared
    by_cases hn : name = d.name
    · simp [DeclarationIndex.insert, insertNew, contains, SortedMap.contains, hn]
    · simp [DeclarationIndex.insert, insertNew, contains, SortedMap.contains, hn, Ne.symm hn, hdeclared]
  · have hc : x.contains d.name = (x.records.findIdx? fun e => e.name == d.name).isSome := by
      rw [hx.declared, List.findIdx?_isSome]
    simp only [DeclarationIndex.insert, insertNew, List.findIdx?_append]
    cases hd : x.contains d.name with
    | true =>
      -- The name keeps the position it has.
      rw [hd] at hc
      obtain ⟨i, hi⟩ := Option.isSome_iff_exists.1 hc.symm
      by_cases hn : d.name = name
      · subst hn
        simp [hx.first, hi]
      · simp [hx.first, hn]
    | false =>
      have hnone : (x.records.findIdx? fun e => e.name == d.name) = none := by simpa [hd] using hc.symm
      by_cases hn : name = d.name
      · subst hn
        simp [hnone]
      · simp [hx.first, hn, Ne.symm hn]

theorem valid_extend {x : DeclarationIndex} (hx : x.Valid) (ds : List Declaration) :
    (x.extend ds).Valid := by
  induction ds generalizing x with
  | nil => exact hx
  | cons d ds ih => exact ih (hx.insert d)

theorem valid_ofList (ds : List Declaration) : (ofList ds).Valid := valid_extend valid_empty ds

@[simp] theorem records_extend (x : DeclarationIndex) (ds : List Declaration) :
    (x.extend ds).records = x.records ++ ds := by
  induction ds generalizing x with
  | nil => simp [extend]
  | cons d ds ih =>
    have h := ih (x.insert d)
    simpa [extend, insert, insertNew] using h

@[simp] theorem records_ofList (ds : List Declaration) : (ofList ds).records = ds := by
  simp [ofList, empty]

theorem extend_append (x : DeclarationIndex) (ds es : List Declaration) :
    x.extend (ds ++ es) = (x.extend ds).extend es := by
  simp [extend]

/-- A look-up answers the first record of the name. -/
theorem get?_eq_find? {x : DeclarationIndex} (hx : x.Valid) (name : String) :
    x.get? name = x.records.find? fun d => d.name == name := by
  rw [get?, hx.first, List.find?_eq_bind_findIdx?_getElem?]

theorem contains_iff_exists {x : DeclarationIndex} (hx : x.Valid) (name : String) :
    x.contains name = true ↔ ∃ d ∈ x.records, d.name = name := by
  rw [hx.declared]
  simp

theorem contains_iff_get? {x : DeclarationIndex} (hx : x.Valid) (name : String) :
    x.contains name = true ↔ ∃ d, x.get? name = some d := by
  rw [contains_iff_exists hx, get?_eq_find? hx, ← Option.isSome_iff_exists, List.find?_isSome]
  simp

theorem mem_names_iff (x : DeclarationIndex) (name : String) :
    name ∈ x.names ↔ x.contains name = true :=
  x.declared.mem_keys_iff name

theorem keys_first {x : DeclarationIndex} (hx : x.Valid) : x.names = x.first.keys := by
  apply SortedMap.keys_congr
  intro name
  rw [← contains, hx.declared, SortedMap.contains, hx.first, List.findIdx?_isSome]

/-- A stored position is one of a record, and the look-up answers that record. -/
theorem exists_record_of_first {x : DeclarationIndex} (hx : x.Valid) {name : String} {i : Nat}
    (h : x.first.get? name = some i) : ∃ h : i < x.records.length, x.get? name = some x.records[i] := by
  have hlt : i < x.records.length := by
    rw [hx.first, List.findIdx?_eq_some_iff_getElem] at h
    exact h.1
  refine ⟨hlt, ?_⟩
  rw [get?, h, Option.bind_some, List.getElem?_eq_getElem hlt]

theorem insertNew_flag {x : DeclarationIndex} (hx : x.Valid) (d : Declaration) :
    (x.insertNew d).2 = true ↔ ∀ e ∈ x.records, e.name ≠ d.name := by
  simp [insertNew, hx.declared]

/-! ## Histories -/

inductive Operation
  | insert (d : Declaration)
  | extend (ds : List Declaration)

namespace Operation

def given : Operation → List Declaration
  | insert d => [d]
  | extend ds => ds

def apply (x : DeclarationIndex) : Operation → DeclarationIndex
  | insert d => x.insert d
  | extend ds => x.extend ds

theorem apply_eq (x : DeclarationIndex) (op : Operation) : apply x op = x.extend op.given := by
  cases op <;> rfl

end Operation

def after (ops : List Operation) : DeclarationIndex := ops.foldl Operation.apply empty

def inserted (ops : List Operation) : List Declaration := ops.flatMap Operation.given

theorem after_eq_ofList (ops : List Operation) : after ops = ofList (inserted ops) := by
  have hrun : ∀ x, ops.foldl Operation.apply x = x.extend (inserted ops) := by
    intro x
    induction ops generalizing x with
    | nil => rfl
    | cons op ops ih =>
      have hall : inserted (op :: ops) = op.given ++ inserted ops := List.flatMap_cons
      rw [List.foldl_cons, ih, Operation.apply_eq, hall, extend_append]
  exact hrun empty

/-- What a history of insertions leaves behind. The records are those that were inserted, in order. The names are
theirs, once each, and they are the names with a position. An insertion is told to be new exactly when no record before
it has its name. A look-up answers the earliest record of a name, and nothing exactly for names that are not declared;
the position it goes by lies among the records. -/
theorem after_exact (ops : List Operation) :
    (after ops).records = inserted ops ∧
    (∀ name, name ∈ (after ops).names ↔ ∃ d ∈ inserted ops, d.name = name) ∧
    (after ops).names.Pairwise (· < ·) ∧
    (after ops).names = (after ops).first.keys ∧
    (∀ d, ((after ops).insertNew d).1 = after (ops ++ [.insert d]) ∧
      (((after ops).insertNew d).2 = true ↔ ∀ e ∈ inserted ops, e.name ≠ d.name)) ∧
    (∀ name d, (after ops).get? name = some d ↔ d.name = name ∧
      ∃ earlier later, inserted ops = earlier ++ d :: later ∧ ∀ e ∈ earlier, e.name ≠ name) ∧
    (∀ name, (after ops).get? name = none ↔ name ∉ (after ops).names) ∧
    ∀ name i, (after ops).first.get? name = some i →
      ∃ h : i < (after ops).records.length, (after ops).get? name = some (after ops).records[i] := by
  have hvalid : (after ops).Valid := by
    rw [after_eq_ofList]
    exact valid_ofList _
  have hrecords : (after ops).records = inserted ops := by rw [after_eq_ofList, records_ofList]
  refine ⟨hrecords, ?_, (after ops).declared.keys_sorted, keys_first hvalid, ?_, ?_, ?_, ?_⟩
  · intro name
    rw [mem_names_iff, contains_iff_exists hvalid, hrecords]
  · intro d
    refine ⟨?_, ?_⟩
    · rw [after, after, List.foldl_append]
      rfl
    · rw [insertNew_flag hvalid, hrecords]
  · intro name d
    rw [get?_eq_find? hvalid, hrecords, List.find?_eq_some_iff_append]
    simp
  · intro name
    rw [mem_names_iff, contains_iff_get? hvalid, ← Option.isSome_iff_exists]
    simp
  · intro name i hi
    exact exists_record_of_first hvalid hi

/-- Two functions of one name in two files, and a method that is added between them. -/
def repeatedNames : List Operation :=
  [.extend [.of none "main" ⟨"cmd/main.go"⟩ 5, .of (some "Store") "Get" ⟨"store.go"⟩ 10],
    .insert (.of none "main" ⟨"other/main.go"⟩ 3)]

theorem after_exact_repeatedNames :
    (after repeatedNames).first.get? "main" = some 0 ∧
      (∃ h : 0 < (after repeatedNames).records.length,
        (after repeatedNames).get? "main" = some (after repeatedNames).records[0]) ∧
      (after repeatedNames).names = ["Store.Get", "main"] := by
  have hfirst : (after repeatedNames).first.get? "main" = some 0 := by decide
  obtain ⟨-, -, -, hnames, -, -, -, hposition⟩ := after_exact repeatedNames
  refine ⟨hfirst, hposition "main" 0 hfirst, ?_⟩
  rw [hnames]
  decide

end CallLineage.DeclarationIndex
