import CallLineage.Proofs.Listing
/-! The functions of one file, asked for by any spelling of its path.
A path below the root is compared by what follows the root, and a relative one as it stands; both are compared by the
segments that count. The records that remain are sorted by line, and those of one line keep their order. -/
namespace CallLineage

/-! ## Spellings -/

namespace Path

/-- The segments of a path that count wherever they stand: neither nothing nor a single dot. -/
def words (p : Path) : List (List Char) := (segments p.text.toList).filter fun s => s != [] && s != ['.']

def partOf (s : List Char) : Component := if s = ['.', '.'] then .parent else .name (String.ofList s)

theorem partOf_injective : Function.Injective partOf := by
  intro s s' h
  by_cases hs : s = ['.', '.'] <;> by_cases hs' : s' = ['.', '.'] <;> simp_all [partOf, String.ofList_inj]

theorem parts_eq_map_words (p : Path) : p.parts = p.words.map partOf := by
  rw [parts, words]
  induction segments p.text.toList with
  | nil => rfl
  | cons s segs ih =>
    by_cases hempty : s = []
    · simp [componentOf, hempty, ih]
    · by_cases hhere : s = ['.']
      · simp [componentOf, hhere, ih]
      · by_cases hparent : s = ['.', '.'] <;> simp [componentOf, partOf, hempty, hhere, hparent, ih]

theorem parts_eq_iff {p q : Path} : p.parts = q.parts ↔ p.words = q.words := by
  rw [parts_eq_map_words, parts_eq_map_words, List.map_inj_right fun _ _ h => partOf_injective h]

/-- A relative path that does not begin with a dot consists of its parts. -/
theorem lead_eq_nil_iff {p : Path} (h : p.isAbsolute = false) : p.lead = [] ↔ p.components.head? ≠ some .here := by
  have hparts : p.parts.head? ≠ some .here := by
    intro hhead
    rcases cases_of_mem_parts (List.mem_of_head? hhead) with heq | ⟨_, heq⟩ <;> cases heq
  rw [components_eq]
  by_cases hhere : (segments p.text.toList).head? = some ['.']
  · simp [lead, h, hhere]
  · simp [lead, h, hhere, hparts]

/-- Relative paths of which one does not begin with a dot have the same components when neither does and the segments
that count are the same. -/
theorem same_iff_words {p q : Path} (hp : p.isAbsolute = false) (hq : q.isAbsolute = false)
    (hhere : q.components.head? ≠ some .here) :
    p.same q = true ↔ p.components.head? ≠ some .here ∧ p.words = q.words := by
  have hparts : ∀ {r : Path}, r.isAbsolute = false → r.components.head? ≠ some .here → r.components = r.parts := by
    intro r hr hnot
    rw [components_eq, (lead_eq_nil_iff hr).2 hnot, List.nil_append]
  rw [same, beq_iff_eq, ← parts_eq_iff]
  constructor
  · intro h
    have hnot : p.components.head? ≠ some .here := h ▸ hhere
    exact ⟨hnot, by rw [← hparts hp hnot, ← hparts hq hhere, h]⟩
  · rintro ⟨hnot, h⟩
    rw [hparts hp hnot, hparts hq hhere, h]

theorem below?_join (base : Path) {p : Path} (hp : p.isAbsolute = false) (hlead : p.lead = []) :
    base.below? (base.join p) = some p.components := by
  simp [below?, components_join base hp hlead]

end Path

/-! ## Records in the order of their lines -/

namespace Analysis

def byLine (ds : List Declaration) : List Declaration := ds.mergeSort fun d e => d.line ≤ e.line

theorem perm_byLine (ds : List Declaration) : (byLine ds).Perm ds := List.mergeSort_perm _ _

theorem trans_line (d e f : Declaration) : decide (d.line ≤ e.line) → decide (e.line ≤ f.line) →
    decide (d.line ≤ f.line) := by
  simp only [decide_eq_true_eq]
  exact Nat.le_trans

theorem total_line (d e : Declaration) : (decide (d.line ≤ e.line) || decide (e.line ≤ d.line)) = true := by
  simp [Nat.le_total]

theorem pairwise_byLine (ds : List Declaration) : (byLine ds).Pairwise fun d e => d.line ≤ e.line := by
  refine (List.pairwise_mergeSort trans_line total_line ds).imp ?_
  intro d e h
  exact of_decide_eq_true h

theorem filter_byLine (ds : List Declaration) (line : Nat) :
    (byLine ds).filter (fun d => d.line == line) = ds.filter fun d => d.line == line := by
  have hsorted : (ds.filter fun d => d.line == line).Pairwise fun d e => decide (d.line ≤ e.line) = true := by
    rw [List.pairwise_filter]
    refine List.pairwise_of_forall ?_
    intro d e hd he
    simp_all
  -- Records of one line are sorted already, so the sort keeps them as a sublist; and there are no more of them.
  have hsub : (ds.filter fun d => d.line == line).Sublist (byLine ds) :=
    List.sublist_mergeSort trans_line total_line hsorted List.filter_sublist
  have hkept := hsub.filter fun d => d.line == line
  rw [List.filter_filter] at hkept
  simp only [Bool.and_self] at hkept
  exact (hkept.eq_of_length ((perm_byLine ds).filter _).length_eq.symm).symm

/-- The functions of a file, in an analysis of relative files from an absolute root or from none, are the same for the
path of the file and for that path below the root. They are the records whose file has the segments of the path that
count, in the order of their lines, and those of one line are in the order in which they were found. -/
theorem functionsIn_exact {a : Analysis} {f : Path} (hroot : a.root.isAbsolute = true ∨ a.root = ⟨""⟩)
    (hfiles : ∀ d ∈ a.declarations.records, d.file.isAbsolute = false) (hf : f.isAbsolute = false)
    (hhere : f.components.head? ≠ some .here) :
    a.functionsIn (a.root.join f) = a.functionsIn f ∧
    (a.functionsIn f).Perm (a.declarations.records.filter fun d => d.file.same f) ∧
    (∀ d ∈ a.declarations.records,
      d.file.same f = true ↔ d.file.components.head? ≠ some .here ∧ d.file.words = f.words) ∧
    (a.functionsIn f).Pairwise (fun d e => d.line ≤ e.line) ∧
    ∀ line, (a.functionsIn f).filter (fun d => d.line == line) =
      a.declarations.records.filter fun d => d.file.same f && d.line == line := by
  have hplain : a.functionsIn f = byLine (a.declarations.records.filter fun d => d.file.same f) := by
    rw [functionsIn, Path.below?_relative hroot hf]
    rfl
  have hjoined : a.functionsIn (a.root.join f) = a.functionsIn f := by
    rw [functionsIn, functionsIn, Path.below?_join a.root hf ((Path.lead_eq_nil_iff hf).2 hhere),
      Path.below?_relative hroot hf, Option.getD_some]
  rw [hjoined, hplain]
  refine ⟨rfl, perm_byLine _, ?_, pairwise_byLine _, ?_⟩
  · intro d hd
    exact Path.same_iff_words (hfiles d hd) hf hhere
  · intro line
    rw [filter_byLine, List.filter_filter]
    simp only [Bool.and_comm]

/-- Records of one file in three spellings, with the last line found first and two on one line, and a record of a path
that begins with a dot. -/
def respelled : Analysis where
  root := ⟨"/p"⟩
  files := []
  declarations := .ofList [.of none "C" ⟨"a/b.go"⟩ 9, .of none "A" ⟨"./a/b.go"⟩ 1, .of none "B" ⟨"a//b.go"⟩ 2,
    .of (some "T") "B" ⟨"a/./b.go"⟩ 2]
  graph := .empty

theorem functionsIn_exact_respelled :
    respelled.functionsIn ⟨"/p/a/b.go/"⟩ = respelled.functionsIn ⟨"a/b.go/"⟩ ∧
      (respelled.functionsIn ⟨"a/b.go/"⟩).Perm
        [.of none "C" ⟨"a/b.go"⟩ 9, .of none "B" ⟨"a//b.go"⟩ 2, .of (some "T") "B" ⟨"a/./b.go"⟩ 2] ∧
      (respelled.functionsIn ⟨"a/b.go/"⟩).filter (fun d => d.line == 2) =
        [.of none "B" ⟨"a//b.go"⟩ 2, .of (some "T") "B" ⟨"a/./b.go"⟩ 2] := by
  obtain ⟨hjoin, hperm, -, -, hline⟩ := functionsIn_exact (a := respelled) (f := ⟨"a/b.go/"⟩) (.inl (by decide))
    (by decide) (by decide) (by decide)
  refine ⟨hjoin, ?_, ?_⟩
  · refine hperm.trans (.of_eq ?_)
    decide
  · rw [hline]
    decide

end Analysis

end CallLineage
