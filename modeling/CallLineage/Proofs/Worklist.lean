import CallLineage.Proofs.Lineage
/-! The loop that walks from callee to caller ends.
`Search.Trace` follows the loop turn by turn, without a bound on their number, and keeps what enters and what leaves the
queue. Every name enters once and only when it is declared, so there is one turn more than there are callers found; and
the depth of a name is less than the number of names that have entered with it, so it stays below the number of declared
names. -/
namespace CallLineage

namespace Search

section

variable {x : CallerIndex} {declarations : DeclarationIndex} {limit : Option Nat} {origin : String}
  {popped pushed : List (String × Nat)} {s : Search} {name : String} {depth : Nat} {rest : List (String × Nat)}

/-- The loop has come to `s`. With each turn it has taken a name from its queue, the first list in order, and the second
list has entered the queue; both are given with the depths of their names. -/
inductive Trace (x : CallerIndex) (declarations : DeclarationIndex) (limit : Option Nat) (origin : String) :
    List (String × Nat) → List (String × Nat) → Search → Prop
  | start : Trace x declarations limit origin [] (start origin).queue (start origin)
  | turn {popped pushed new rest : List (String × Nat)} {s : Search} {name : String} {depth : Nat}
      (before : Trace x declarations limit origin popped pushed s) (head : s.queue = (name, depth) :: rest)
      (behind : (step x declarations limit s).queue = rest ++ new) :
      Trace x declarations limit origin (popped ++ [(name, depth)]) (pushed ++ new) (step x declarations limit s)

/-- One step takes the head from the queue, and puts there what it reports, one call further away. -/
theorem exists_new_of_step (x : CallerIndex) (declarations : DeclarationIndex) (limit : Option Nat)
    (hq : s.queue = (name, depth) :: rest) :
    ∃ new : List LineageEntry, (step x declarations limit s).queue = rest ++ new.map (fun e => (e.caller, e.depth)) ∧
      (step x declarations limit s).found = new.reverse ++ s.found ∧ ∀ e ∈ new, e.depth = depth + 1 := by
  rcases limit_cases limit depth with hlimit | hlimit
  · rw [step_of_limit hq hlimit]
    exact ⟨[], by simp, by simp, List.forall_mem_nil _⟩
  · rw [step_of_visit hq hlimit]
    exact ⟨_, rfl, rfl, fun e he => depth_of_mem_newEntries he⟩

theorem run_of_queue_eq_nil (hq : s.queue = []) (fuel : Nat) : run x declarations limit fuel s = s := by
  cases fuel with
  | zero => rfl
  | succ fuel => simp [run, hq]

namespace Trace

/-- Names leave the queue in the order in which they entered it. -/
theorem split (h : Trace x declarations limit origin popped pushed s) : pushed = popped ++ s.queue := by
  induction h with
  | start => rfl
  | turn before head behind ih => simp [ih, head, behind]

theorem popped_eq (h : Trace x declarations limit origin popped pushed s) (hq : s.queue = []) : popped = pushed := by
  rw [h.split, hq, List.append_nil]

/-- The names that have entered the queue are the origin and the callers found. -/
theorem pushed_eq (h : Trace x declarations limit origin popped pushed s) : pushed = seen origin s.found := by
  induction h with
  | start => rfl
  | turn before head behind ih =>
    obtain ⟨entries, hqueue, hfound, -⟩ := exists_new_of_step x declarations limit head
    rw [hfound, seen_append, ← ih, List.append_cancel_left (behind.symm.trans hqueue)]

/-- A name enters the queue one call further away than one that entered before it. -/
theorem depth_lt (h : Trace x declarations limit origin popped pushed s) : ∀ p ∈ pushed, p.2 < pushed.length := by
  induction h with
  | start => simp [Search.start]
  | @turn popped pushed new rest s name depth before head behind ih =>
    intro p hp
    rw [List.length_append]
    rcases List.mem_append.1 hp with hp | hp
    · exact Nat.lt_add_right _ (ih p hp)
    · obtain ⟨entries, hqueue, -, hdepth⟩ := exists_new_of_step x declarations limit head
      have hhead : depth < pushed.length := ih (name, depth) (by simp [before.split, head])
      have hnew : 0 < new.length := List.length_pos_of_mem hp
      rw [List.append_cancel_left (behind.symm.trans hqueue)] at hp
      obtain ⟨e, he, rfl⟩ := List.mem_map.1 hp
      have hp : e.depth = depth + 1 := hdepth e he
      omega

/-- A bounded run does what the loop does for as many turns, and the rest from there. -/
theorem run_eq (h : Trace x declarations limit origin popped pushed s) (fuel : Nat) :
    run x declarations limit (popped.length + fuel) (.start origin) = run x declarations limit fuel s := by
  induction h generalizing fuel with
  | start => rw [List.length_nil, Nat.zero_add]
  | turn before head behind ih =>
    rw [List.length_append, List.length_singleton, Nat.add_assoc, Nat.add_comm 1 fuel, ih, run, head]
    rfl

theorem step (h : Trace x declarations limit origin popped (seen origin s.found) s)
    (hq : s.queue = (name, depth) :: rest) :
    Trace x declarations limit origin (popped ++ [(name, depth)])
      (seen origin (Search.step x declarations limit s).found) (Search.step x declarations limit s) := by
  obtain ⟨new, hqueue, hfound, -⟩ := exists_new_of_step x declarations limit hq
  rw [hfound, seen_append]
  exact h.turn hq hqueue

theorem invariant {g : CallGraph} (hv : declarations.Valid)
    (h : Trace (CallerIndex.ofGraph g) declarations limit origin popped pushed s) :
    Invariant g declarations limit origin popped s := by
  induction h with
  | start => exact invariant_start
  | turn before head behind ih => exact ih.step hv head

theorem length_pushed_le {g : CallGraph} (hv : declarations.Valid) (ho : declarations.contains origin = true)
    (h : Trace (CallerIndex.ofGraph g) declarations limit origin popped pushed s) :
    pushed.length ≤ declarations.names.length := by
  rw [h.pushed_eq]
  exact (h.invariant hv).length_seen_le hv ho

end Trace

end

end Search

namespace CallerIndex

open Search (seen)

def declaredNames (records : List Declaration) : List String := (records.map fun d => d.name).eraseDups

theorem length_names_ofList (records : List Declaration) :
    (DeclarationIndex.ofList records).names.length = (declaredNames records).length := by
  have hnames : (DeclarationIndex.ofList records).names.Nodup := by
    refine (DeclarationIndex.ofList records).declared.keys_sorted.imp ?_
    rintro name _ hlt rfl
    exact String.lt_irrefl name hlt
  have hdistinct : (declaredNames records).Nodup := nodup_eraseDups _
  apply List.Perm.length_eq
  rw [List.perm_ext_iff_of_nodup hnames hdistinct]
  intro name
  rw [DeclarationIndex.mem_names_iff, DeclarationIndex.contains_iff_exists (DeclarationIndex.valid_ofList records),
    DeclarationIndex.records_ofList, declaredNames, List.mem_eraseDups, List.mem_map]

/-- The lineage holds what the loop has found when its queue is empty: the bound on the turns is never reached. -/
theorem callers_eq_of_trace {g : CallGraph} {declarations : DeclarationIndex} (hv : declarations.Valid)
    {origin : String} (ho : declarations.contains origin = true) {limit : Option Nat}
    {popped pushed : List (String × Nat)} {s : Search}
    (htrace : Search.Trace (ofGraph g) declarations limit origin popped pushed s) (hq : s.queue = []) {l : Lineage}
    (hl : (ofGraph g).lineage? declarations origin limit = some l) : l.callers = s.found.reverse := by
  have hturns : popped.length ≤ declarations.names.length + 1 := by
    rw [htrace.popped_eq hq]
    exact Nat.le_succ_of_le (htrace.length_pushed_le hv ho)
  obtain ⟨fuel, hfuel⟩ := Nat.exists_eq_add_of_le hturns
  rw [callers_of_lineage? hl, hfuel, htrace.run_eq, Search.run_of_queue_eq_nil hq]

theorem toNat_succ_of_lt {n : Nat} (h : n + 1 < UInt64.size) : (UInt64.ofNat n + 1).toNat = n + 1 := by
  rw [UInt64.toNat_add, UInt64.toNat_ofNat', UInt64.toNat_one, Nat.mod_eq_of_lt (Nat.lt_of_succ_lt h),
    Nat.mod_eq_of_lt h]

/-- The loop behind the lineage of a declared name, in any graph, over an index of any records and with any limit or
none. It comes to an empty queue. On the way there no name enters the queue twice, and only declared ones do; and the
depth of a name that leaves it is less than the number of declared names, so if a machine word holds that number, the
next depth is computed without overflow. In the end there was one turn more than there are callers in the lineage, and
those are fewer than the declared names. -/
theorem lineage?_terminates (g : CallGraph) (records : List Declaration) {origin : String}
    (ho : DeclaredBy records origin) (limit : Option Nat) :
    (∃ popped pushed s, Search.Trace (ofGraph g) (.ofList records) limit origin popped pushed s ∧ s.queue = []) ∧
    ∀ popped pushed s, Search.Trace (ofGraph g) (.ofList records) limit origin popped pushed s →
      (pushed.map fun p => p.1).Nodup ∧ (∀ p ∈ pushed, DeclaredBy records p.1) ∧
      (∀ p ∈ popped, p.2 < (declaredNames records).length ∧
        ((declaredNames records).length < UInt64.size → (UInt64.ofNat p.2 + 1).toNat = p.2 + 1)) ∧
      (s.queue = [] → ∃ l, (ofGraph g).lineage? (.ofList records) origin limit = some l ∧
        l.callers = s.found.reverse ∧ popped.length = l.callers.length + 1 ∧
        l.callers.length < (declaredNames records).length) := by
  have hv := DeclarationIndex.valid_ofList records
  have hdeclared : ∀ name, (DeclarationIndex.ofList records).contains name = true ↔ DeclaredBy records name := by
    intro name
    rw [DeclarationIndex.contains_iff_exists hv, DeclarationIndex.records_ofList, DeclaredBy]
  rw [← length_names_ofList]
  obtain ⟨l, hl⟩ := exists_lineage? ho g limit
  rw [← hdeclared] at ho
  constructor
  · obtain ⟨s, -, htrace, hq, -⟩ := exists_walk
      (P := fun done s => Search.Trace (ofGraph g) (.ofList records) limit origin done (seen origin s.found) s)
      hv .start (fun _ hq htrace => htrace.step hq) hl
    exact ⟨_, _, s, htrace, hq⟩
  · intro popped pushed s htrace
    have hinv := htrace.invariant hv
    have hpushed := htrace.pushed_eq
    have hcount := htrace.length_pushed_le hv ho
    refine ⟨hpushed ▸ hinv.nodup, ?_, ?_, ?_⟩
    · intro p hp
      exact (hdeclared p.1).1 (hinv.contains_of_mem_seen hv ho p (hpushed ▸ hp))
    · intro p hp
      have hdepth := htrace.depth_lt p (htrace.split ▸ List.mem_append_left _ hp)
      exact ⟨by omega, fun hword => toNat_succ_of_lt (by omega)⟩
    · intro hq
      have hfound := callers_eq_of_trace hv ho htrace hq hl
      have hturns : popped.length = l.callers.length + 1 := by
        rw [htrace.popped_eq hq, hpushed, hfound]
        simp [seen]
      rw [← htrace.popped_eq hq] at hcount
      exact ⟨l, hl, hfound, hturns, by omega⟩

theorem lineage?_terminates_tangled :
    DeclaredBy tangledRecords "o" ∧ (declaredNames tangledRecords).length = 5 ∧
    ∃ popped pushed s, Search.Trace (ofGraph tangled) (.ofList tangledRecords) none "o" popped pushed s ∧
      s.queue = [] ∧ popped.length = 4 ∧ (pushed.map fun p => p.1).Nodup ∧ (∀ p ∈ pushed, p.1 ≠ "u") ∧
      ∀ p ∈ popped, p.2 < 5 ∧ (UInt64.ofNat p.2 + 1).toNat = p.2 + 1 := by
  have ho : DeclaredBy tangledRecords "o" := ⟨.of none "o" ⟨"o.go"⟩ 1, by decide, rfl⟩
  have hcount : (declaredNames tangledRecords).length = 5 := by decide +kernel
  have heval : (ofGraph tangled).lineage? (.ofList tangledRecords) "o" none =
      some ⟨"o", [⟨"a", 1, ⟨"a.go"⟩, 2⟩, ⟨"b", 2, ⟨"b.go"⟩, 7⟩, ⟨"c", 3, ⟨"c.go"⟩, 4⟩], 3⟩ := by decide +kernel
  obtain ⟨⟨popped, pushed, s, htrace, hq⟩, hall⟩ := lineage?_terminates tangled tangledRecords ho none
  obtain ⟨hnodup, hdeclared, hdepth, hend⟩ := hall popped pushed s htrace
  obtain ⟨l, hl, -, hturns, -⟩ := hend hq
  rw [heval, Option.some.injEq] at hl
  subst hl
  refine ⟨ho, hcount, popped, pushed, s, htrace, hq, hturns, hnodup, ?_, ?_⟩
  · intro p hp hu
    have hundeclared : ∀ d ∈ tangledRecords, d.name ≠ "u" := by decide
    obtain ⟨d, hd, hname⟩ := hdeclared p hp
    exact hundeclared d hd (hname.trans hu)
  · intro p hp
    rw [hcount] at hdepth
    exact ⟨(hdepth p hp).1, (hdepth p hp).2 (by decide)⟩

end CallerIndex

end CallLineage
