import CallLineage.Go.Source
import CallLineage.Proofs.Go.Faultless.File
/-! The first fault of a tree.
The search for it skips every node that is not marked faulty. Where the marks are right it gives what a search through
the whole tree gives; and the trees of texts have right marks, since the grammar reads only what is free of faults and
a text outside it has a tree with one fault. So a text is accepted exactly when no fault stands in its tree. -/
namespace CallLineage.Go

namespace Node

def IsFault (n : Node) : Prop := n.kind = .error ∨ n.kind = .missing

instance : DecidablePred IsFault := fun n => inferInstanceAs (Decidable (n.kind = .error ∨ n.kind = .missing))

/-- Every mark in the tree is right: a node is marked exactly when it or one below it is a fault. -/
def Marked (n : Node) : Prop := ∀ m ∈ n.preorder, m.faulty = true ↔ ∃ fault ∈ m.preorder, fault.IsFault

theorem isFault_iff (n : Node) : n.kind.isFault = true ↔ n.IsFault := by
  rw [IsFault]
  cases n.kind <;> simp [Kind.isFault]

namespace Marked

theorem faulty_iff {n : Node} (h : n.Marked) : n.faulty = true ↔ ∃ fault ∈ n.preorder, fault.IsFault :=
  h n n.mem_preorder_self

/-- A mark is right that is made from the kind of the node and the marks of its children. -/
theorem mk {k : Kind} {f : Option Field} {p : Position} {t : String} {b : Bool} {cs : List Node}
    (hb : b = true ↔ k.isFault = true ∨ ∃ c ∈ cs, c.faulty = true) (hcs : ∀ c ∈ cs, c.Marked) :
    (Node.mk k f p t b cs).Marked := by
  intro m hm
  rcases List.mem_cons.1 hm with rfl | hm
  · have hbelow : (∃ c ∈ cs, c.faulty = true) ↔ ∃ fault ∈ preorderAll cs, fault.IsFault := by
      constructor
      · rintro ⟨c, hc, hfaulty⟩
        obtain ⟨fault, hfault, h⟩ := (hcs c hc).faulty_iff.1 hfaulty
        exact ⟨fault, mem_preorderAll.2 ⟨c, hc, hfault⟩, h⟩
      · rintro ⟨fault, hfault, h⟩
        obtain ⟨c, hc, hfault⟩ := mem_preorderAll.1 hfault
        exact ⟨c, hc, (hcs c hc).faulty_iff.2 ⟨fault, hfault, h⟩⟩
    simp only [preorder, List.mem_cons, exists_eq_or_imp, ← hbelow]
    rwa [← isFault_iff]
  · obtain ⟨c, hc, hm⟩ := mem_preorderAll.1 hm
    exact hcs c hc m hm

theorem leaf (k : Kind) (p : Position) (t : String) : (Node.leaf k p t).Marked :=
  .mk (by simp) (List.forall_mem_nil _)

theorem branch (k : Kind) (p : Position) {cs : List Node} (h : ∀ c ∈ cs, c.Marked) : (Node.branch k p cs).Marked :=
  .mk (by simp) h

end Marked

theorem Faultless.marked {n : Node} (h : n.Faultless) : n.Marked := by
  induction h with
  | mk noFault below ih =>
    refine .mk ?_ ih
    simpa [noFault] using fun c hc => (below c hc).faulty_eq

mutual

/-- In a tree with right marks nothing is lost by skipping what is not marked. -/
theorem firstFault?_eq_find? : ∀ n : Node, n.Marked → n.firstFault? = n.preorder.find? (·.IsFault)
  | .mk k f p t b cs, h => by
    rw [firstFault?, preorder]
    by_cases hk : k.isFault = true
    · rw [if_pos hk, List.find?_cons_of_pos]
      exact decide_eq_true ((isFault_iff (.mk k f p t b cs)).1 hk)
    · have hself : ¬ (Node.mk k f p t b cs).IsFault := fun h => hk ((isFault_iff _).2 h)
      rw [if_neg hk, List.find?_cons_of_neg (by simpa using hself)]
      by_cases hb : b = true
      · rw [if_pos hb]
        exact firstFaultIn?_eq_find? cs fun c hc m hm => h m (List.mem_cons_of_mem _ (mem_preorderAll.2 ⟨c, hc, hm⟩))
      -- an unmarked node is skipped, and by its mark there is nothing to find below it
      · rw [if_neg hb, eq_comm, List.find?_eq_none]
        intro m hm hfault
        exact hb (h.faulty_iff.2 ⟨m, List.mem_cons_of_mem _ hm, of_decide_eq_true hfault⟩)

theorem firstFaultIn?_eq_find? : ∀ ns : List Node, (∀ n ∈ ns, n.Marked) →
    firstFaultIn? ns = (preorderAll ns).find? (·.IsFault)
  | [], _ => rfl
  | n :: ns, h => by
    obtain ⟨hn, hns⟩ := List.forall_mem_cons.1 h
    rw [firstFaultIn?, preorderAll, List.find?_append, ← firstFault?_eq_find? n hn, ← firstFaultIn?_eq_find? ns hns]
    cases n.firstFault? <;> rfl

end

theorem firstFault?_eq_none_iff {n : Node} (h : n.Marked) :
    n.firstFault? = none ↔ ∀ m ∈ n.preorder, ¬ m.IsFault := by
  simp [firstFault?_eq_find? n h]

end Node

theorem marked_sourceTree (text : String) : (sourceTree text).Marked := by
  rw [sourceTree]
  split
  · rename_i nodes rest hread
    have hnodes := (Grammar.faultless_items (Grammar.faultless_unrolled _) _ true).of_run hread
    exact .branch _ _ fun n hn => (hnodes n hn).marked
  · exact .branch _ _ (List.forall_mem_singleton.2 (.leaf _ _ _))

namespace Source

/-- The pruned search and what is accepted. In every tree with right marks the search gives the first fault in
pre-order, so none exactly when there is none. The tree of every text has right marks: the text is accepted exactly
when no error or missing node stands in its tree, and otherwise the failure names the place of the first one. -/
theorem parse_fails_at_first_fault :
    (∀ n : Node, n.Marked →
      n.firstFault? = n.preorder.find? (·.IsFault) ∧ (n.firstFault? = none ↔ ∀ m ∈ n.preorder, ¬ m.IsFault)) ∧
    ∀ path text, (sourceTree text).Marked ∧
      ((∃ s, parse path text = .ok s) ↔ ∀ m ∈ (sourceTree text).preorder, ¬ m.IsFault) ∧
      ∀ failure, parse path text = .error failure ↔
        ∃ fault, (sourceTree text).preorder.find? (·.IsFault) = some fault ∧ failure = .parse path fault.start := by
  refine ⟨fun n h => ⟨Node.firstFault?_eq_find? n h, Node.firstFault?_eq_none_iff h⟩, fun path text => ?_⟩
  have hmarked := marked_sourceTree text
  rw [← Node.firstFault?_eq_none_iff hmarked, ← Node.firstFault?_eq_find? _ hmarked, parse]
  refine ⟨hmarked, ?_, fun failure => ?_⟩
  all_goals cases (sourceTree text).firstFault? <;> simp [eq_comm]

/-- A clean clause, a block with a missing token of no width, and an error inside an error. -/
def brokenTree : Node :=
  .branch .sourceFile ⟨1, 1⟩ [
    .branch .packageClause ⟨1, 1⟩ [.leaf .token ⟨1, 1⟩ "package", .leaf .packageIdentifier ⟨1, 9⟩ "p"],
    .branch .block ⟨2, 1⟩ [.leaf .token ⟨2, 1⟩ "\x7b", .leaf .missing ⟨2, 2⟩ ""],
    .branch .error ⟨3, 1⟩ [.branch .error ⟨3, 2⟩ [.leaf .identifier ⟨3, 2⟩ "x"]]]

theorem parse_fails_at_first_fault_brokenTree :
    brokenTree.Marked ∧ brokenTree.firstFault?.map (fun m => (m.kind, m.start)) = some (.missing, ⟨2, 2⟩) ∧
    (∃ s, parse ⟨"a.go"⟩ "package p\n" = .ok s) ∧
    parse ⟨"a.go"⟩ "package p\nfunc if() {}\n" = .error (.parse ⟨"a.go"⟩ ⟨2, 6⟩) := by
  have hmarked : brokenTree.Marked := by
    unfold Node.Marked
    decide +kernel
  have hfault : ((sourceTree "package p\nfunc if() {}\n").preorder.find? (·.IsFault)).map Node.start = some ⟨2, 6⟩ := by
    decide +kernel
  obtain ⟨fault, hfind, hstart⟩ := Option.map_eq_some_iff.1 hfault
  obtain ⟨hsearch, htexts⟩ := parse_fails_at_first_fault
  refine ⟨hmarked, ?_, (htexts _ _).2.1.2 (by decide +kernel), ((htexts _ _).2.2 _).2 ⟨fault, hfind, by rw [hstart]⟩⟩
  rw [(hsearch brokenTree hmarked).1]
  decide +kernel

end Source

end CallLineage.Go
