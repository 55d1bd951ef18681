import Mathlib.Data.List.TakeWhile
import CallLineage.Proofs.Order
/-! Lineages with a limit.
A limited walk does what an unlimited one does until a name at the limit comes to the head of the queue. From there on
the limited walk passes over its queue, and the unlimited one finds callers beyond the limit only. -/
namespace CallLineage

namespace Search

section

variable {x : CallerIndex} {declarations : DeclarationIndex} {k : Nat} {s : Search}

/-- A limited walk finds nothing more once all names in its queue are at the limit. -/
theorem found_run_of_limit (fuel : Nat) (h : ∀ q ∈ s.queue, k ≤ q.2) :
    (run x declarations (some k) fuel s).found = s.found := by
  induction fuel generalizing s with
  | zero => rfl
  | succ fuel ih =>
    rw [run]
    cases hq : s.queue with
    | nil => rfl
    | cons p rest =>
      obtain ⟨name, depth⟩ := p
      rw [hq] at h
      rw [step_of_limit hq ⟨k, rfl, h (name, depth) List.mem_cons_self⟩]
      exact ih fun q hqm => h q (List.mem_cons_of_mem _ hqm)

/-- An unlimited walk finds only callers beyond the limit once all names in its queue are at it. -/
theorem exists_found_run (fuel : Nat) (h : ∀ q ∈ s.queue, k ≤ q.2) :
    ∃ more, (run x declarations none fuel s).found = more ++ s.found ∧ ∀ e ∈ more, k < e.depth := by
  induction fuel generalizing s with
  | zero => exact ⟨[], rfl, List.forall_mem_nil _⟩
  | succ fuel ih =>
    rw [run]
    cases hq : s.queue with
    | nil => exact ⟨[], rfl, List.forall_mem_nil _⟩
    | cons p rest =>
      obtain ⟨name, depth⟩ := p
      rw [hq] at h
      have hdepth : ∀ e ∈ newEntries x declarations s name depth, k < e.depth := by
        intro e he
        rw [depth_of_mem_newEntries he]
        exact Nat.lt_succ_of_le (h (name, depth) List.mem_cons_self)
      have hqueue : ∀ q ∈ (step x declarations none s).queue, k ≤ q.2 := by
        rw [step_of_visit hq (by simp)]
        intro q hqm
        rcases List.mem_append.1 hqm with hqm | hqm
        · exact h q (List.mem_cons_of_mem _ hqm)
        · obtain ⟨e, he, rfl⟩ := List.mem_map.1 hqm
          exact Nat.le_of_lt (hdepth e he)
      obtain ⟨more, hmore, hfar⟩ := ih hqueue
      refine ⟨more ++ (newEntries x declarations s name depth).reverse, ?_, ?_⟩
      · rw [if_neg (by simp), hmore, step_of_visit hq (by simp), List.append_assoc]
      · intro e he
        rcases List.mem_append.1 he with he | he
        · exact hfar e he
        · exact hdepth e (List.mem_reverse.1 he)

end

/-- Side by side, the unlimited walk finds what the limited one finds, and then only callers beyond the limit. -/
theorem Invariant.exists_found_run {g : CallGraph} {declarations : DeclarationIndex} {k : Nat}
    {origin : String} {done : List (String × Nat)} {s : Search} (hv : declarations.Valid) (fuel : Nat)
    (h : Invariant g declarations (some k) origin done s) :
    ∃ more, (Search.run (CallerIndex.ofGraph g) declarations none fuel s).found =
        more ++ (Search.run (CallerIndex.ofGraph g) declarations (some k) fuel s).found ∧
      ∀ e ∈ more, k < e.depth := by
  induction fuel generalizing done s with
  | zero => exact ⟨[], rfl, List.forall_mem_nil _⟩
  | succ fuel ih =>
    cases hq : s.queue with
    | nil => exact ⟨[], by simp [Search.run, hq], List.forall_mem_nil _⟩
    | cons p rest =>
      obtain ⟨name, depth⟩ := p
      by_cases hlimit : depth < k
      · -- Below the limit both walks take the same step.
        have hsame : Search.step (CallerIndex.ofGraph g) declarations none s =
            Search.step (CallerIndex.ofGraph g) declarations (some k) s := by
          rw [step_of_visit hq (by simp), step_of_visit hq (by simpa using hlimit)]
        simpa [Search.run, hq, hsame] using ih (h.step hv hq)
      · have hqueue : ∀ q ∈ s.queue, k ≤ q.2 := by
          obtain ⟨-, -, hrest⟩ := h.head hq
          rw [hq, List.forall_mem_cons]
          exact ⟨Nat.le_of_not_lt hlimit, fun q hqm => Nat.le_trans (Nat.le_of_not_lt hlimit) (hrest q hqm)⟩
        rw [found_run_of_limit (fuel + 1) hqueue]
        exact Search.exists_found_run (fuel + 1) hqueue

end Search

namespace CallerIndex

section

variable {g : CallGraph} {declarations : DeclarationIndex} (hv : declarations.Valid)
  {origin : String} {k : Nat} {l full : Lineage}
  (hl : (ofGraph g).lineage? declarations origin (some k) = some l)
  (hfull : (ofGraph g).lineage? declarations origin none = some full)

include hv hl

theorem depth_le_limit {e : LineageEntry} (he : e ∈ l.callers) : e.depth ≤ k := by
  obtain ⟨done, s, hinv, -, -, hcallers⟩ := exists_invariant hv hl
  rw [hcallers] at he
  exact (hinv.entry e (List.mem_reverse.1 he)).2.1 k rfl

include hfull

theorem exists_callers_eq : ∃ more, full.callers = l.callers ++ more ∧ ∀ e ∈ more, k < e.depth := by
  have hstart : Search.Invariant g declarations (some k) origin [] (.start origin) := Search.invariant_start
  obtain ⟨more, hmore, hfar⟩ := hstart.exists_found_run hv (declarations.names.length + 1)
  refine ⟨more.reverse, ?_, fun e he => hfar e (List.mem_reverse.1 he)⟩
  rw [callers_of_lineage? hl, callers_of_lineage? hfull, hmore, List.reverse_append]

theorem sequence_eq {more : List LineageEntry} (hmore : full.callers = l.callers ++ more) :
    full.sequence = l.sequence ++ more.map fun e => (e.caller, e.depth) := by
  obtain ⟨-, -, -, -, horigin, -⟩ := exists_invariant hv hl
  obtain ⟨-, -, -, -, horigin', -⟩ := exists_invariant hv hfull
  simp [Lineage.sequence, hmore, horigin, horigin']

theorem callers_eq_takeWhile : l.callers = full.callers.takeWhile fun e => e.depth ≤ k := by
  obtain ⟨more, hmore, hfar⟩ := exists_callers_eq hv hl hfull
  have hnone : more.takeWhile (fun e => decide (e.depth ≤ k)) = [] := by
    cases more with
    | nil => rfl
    | cons e more =>
      have hbeyond := hfar e List.mem_cons_self
      exact List.takeWhile_cons_of_neg (by simpa using hbeyond)
  rw [hmore, List.takeWhile_append_of_pos (fun e he => by simpa using depth_le_limit hv hl he), hnone,
    List.append_nil]

/-- The first caller beyond the limit calls a name at the limit, which the limited walk has found, or the origin. -/
theorem maxDepth_eq_min : l.maxDepth = min k full.maxDepth := by
  obtain ⟨more, hmore, hfar⟩ := exists_callers_eq hv hl hfull
  have hle : l.maxDepth ≤ k := maxDepth_le hv hl fun e he => depth_le_limit hv hl he
  cases more with
  | nil =>
    have hsame : l.maxDepth = full.maxDepth := by
      rw [maxDepth_eq hv hl, maxDepth_eq hv hfull, hmore, List.append_nil]
    rw [← hsame, Nat.min_eq_right hle]
  | cons e more =>
    have he : full.callers[l.callers.length]? = some e := by simp [hmore]
    have hbeyond : k < e.depth := hfar e List.mem_cons_self
    have hfulle := depth_le_maxDepth hv hfull (List.mem_of_getElem? he)
    obtain ⟨name, depth, hcalled, -, hdepth⟩ := called_of_mem_callers hv hfull (List.mem_of_getElem? he)
    have hfirst := firstCalled_le hv hfull he
    have hfound : (name, depth) ∈ l.sequence := by
      generalize firstCalled g full.sequence e.caller = i at hcalled hfirst
      have hi : i < l.sequence.length := by
        rw [Lineage.sequence, List.length_cons, List.length_map]
        omega
      rw [sequence_eq hv hl hfull hmore, List.getElem?_append_left hi] at hcalled
      exact List.mem_of_getElem? hcalled
    have hreported := snd_le_maxDepth hv hl hfound
    omega

end

/-- The lineage of a declared name over at most a number of calls is the lineage without a limit up to its first caller
that is further away, and the greatest depth in it is the limit or the greatest depth there is. A larger limit adds
callers at the end only. -/
theorem lineage?_limited (g : CallGraph) (records : List Declaration) {origin : String}
    (ho : DeclaredBy records origin) (k : Nat) :
    ∃ full l, (ofGraph g).lineage? (.ofList records) origin none = some full ∧
      (ofGraph g).lineage? (.ofList records) origin (some k) = some l ∧
      l.callers = full.callers.takeWhile (fun e => e.depth ≤ k) ∧
      l.maxDepth = min k full.maxDepth ∧
      ∀ k', k ≤ k' → ∃ l', (ofGraph g).lineage? (.ofList records) origin (some k') = some l' ∧
        l.callers <+: l'.callers := by
  have hv := DeclarationIndex.valid_ofList records
  obtain ⟨full, hfull⟩ := exists_lineage? ho g none
  obtain ⟨l, hl⟩ := exists_lineage? ho g (some k)
  refine ⟨full, l, hfull, hl, callers_eq_takeWhile hv hl hfull, maxDepth_eq_min hv hl hfull, ?_⟩
  intro k' hk
  obtain ⟨l', hl'⟩ := exists_lineage? ho g (some k')
  have hcut : l.callers = l'.callers.takeWhile fun e => e.depth ≤ k := by
    rw [callers_eq_takeWhile hv hl hfull, callers_eq_takeWhile hv hl' hfull, List.takeWhile_takeWhile]
    congr 1
    funext e
    have hboth : e.depth ≤ k ↔ e.depth ≤ k ∧ e.depth ≤ k' := by omega
    simpa using hboth
  exact ⟨l', hl', hcut ▸ List.takeWhile_prefix _⟩

/-- A name `d` that calls the origin both directly and over two others, and a caller further away. -/
def roundabout : CallGraph :=
  ⟨((((SortedMap.empty.insert "b" ["c"]).insert "c" ["d", "o"]).insert "d" ["o", "b"]).insert "e" ["b"]).insert "o"
    ["b"]⟩

def roundaboutRecords : List Declaration :=
  [.of none "o" ⟨"o.go"⟩ 1, .of none "b" ⟨"b.go"⟩ 3, .of none "c" ⟨"b.go"⟩ 1, .of none "d" ⟨"d.go"⟩ 1,
    .of none "e" ⟨"e.go"⟩ 1]

theorem lineage?_limited_roundabout :
    DeclaredBy roundaboutRecords "o" ∧
    ∃ full l, (ofGraph roundabout).lineage? (.ofList roundaboutRecords) "o" none = some full ∧
      (ofGraph roundabout).lineage? (.ofList roundaboutRecords) "o" (some 2) = some l ∧
      full.callers.map (fun e => (e.caller, e.depth)) = [("c", 1), ("d", 1), ("b", 2), ("e", 3)] ∧
      l.callers = full.callers.take 3 ∧ l.maxDepth = 2 := by
  have ho : DeclaredBy roundaboutRecords "o" := ⟨.of none "o" ⟨"o.go"⟩ 1, by decide, rfl⟩
  have heval : (ofGraph roundabout).lineage? (.ofList roundaboutRecords) "o" none =
      some ⟨"o", [⟨"c", 1, ⟨"b.go"⟩, 1⟩, ⟨"d", 1, ⟨"d.go"⟩, 1⟩, ⟨"b", 2, ⟨"b.go"⟩, 3⟩, ⟨"e", 3, ⟨"e.go"⟩, 1⟩], 3⟩ := by
    decide +kernel
  obtain ⟨full, l, hfull, hl, hcallers, hmax, -⟩ := lineage?_limited roundabout roundaboutRecords ho 2
  rw [heval, Option.some.injEq] at hfull
  subst hfull
  exact ⟨ho, _, l, heval, hl, rfl, hcallers, hmax⟩

end CallerIndex

end CallLineage
