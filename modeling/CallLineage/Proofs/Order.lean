import CallLineage.Proofs.Lineage
import CallLineage.Proofs.Transpose
/-! The order of a lineage.
A walk visits names in the order in which it found them, and meets the callers of each in the order of their bytes. So
every caller stands behind the first name that it calls, one call further away, and among the callers that share this
name it stands where its bytes put it. -/
namespace CallLineage

/-- The origin and its callers in the order in which they are reported, with their depths. -/
def Lineage.sequence (l : Lineage) : List (String × Nat) :=
  (l.origin, 0) :: l.callers.map fun e => (e.caller, e.depth)

/-- The position of the first name in a sequence that the given one calls; its length if there is no such name. -/
def firstCalled (g : CallGraph) (sequence : List (String × Nat)) (name : String) : Nat :=
  sequence.findIdx fun p => g.hasEdge name p.1

/-- One name calls an earlier name of the sequence than another, or the same one and has the smaller bytes. -/
def Precedes (g : CallGraph) (sequence : List (String × Nat)) (a b : String) : Prop :=
  firstCalled g sequence a < firstCalled g sequence b ∨
    firstCalled g sequence a = firstCalled g sequence b ∧ Utf8.encode a < Utf8.encode b

theorem Precedes.asymm {g : CallGraph} {sequence : List (String × Nat)} {a b : String}
    (h : Precedes g sequence a b) : ¬ Precedes g sequence b a := by
  rintro (hlt | ⟨heq, hlt⟩)
  · rcases h with h | ⟨h, -⟩ <;> omega
  · rcases h with h | ⟨-, h⟩
    · omega
    · exact List.lt_asymm h hlt

theorem firstCalled_append {g : CallGraph} {sequence : List (String × Nat)} {name : String}
    (h : firstCalled g sequence name < sequence.length) (more : List (String × Nat)) :
    firstCalled g (sequence ++ more) name = firstCalled g sequence name := by
  simp only [firstCalled] at h ⊢
  rw [List.findIdx_append, if_pos h]

theorem firstCalled_append_singleton {g : CallGraph} {sequence : List (String × Nat)} {name : String}
    {p : String × Nat} (hnone : ∀ q ∈ sequence, g.hasEdge name q.1 = false)
    (hedge : g.hasEdge name p.1 = true) : firstCalled g (sequence ++ [p]) name = sequence.length := by
  have hlength := List.findIdx_eq_length.2 hnone
  rw [firstCalled, List.findIdx_append, hlength, if_neg (Nat.lt_irrefl _), List.findIdx_singleton,
    if_pos hedge, Nat.zero_add]

namespace Search

/-! ## The walk -/

/-- What holds of the callers found when the given names have been visited: each is one call further away than the first
of these names that it calls, and they have been found in order. -/
structure Ordered (g : CallGraph) (done : List (String × Nat)) (s : Search) : Prop where
  called : ∀ e ∈ s.found, ∃ p, done[firstCalled g done e.caller]? = some p ∧ e.depth = p.2 + 1
  sorted : s.found.reverse.Pairwise fun e f => Precedes g done e.caller f.caller

section

variable {g : CallGraph} {declarations : DeclarationIndex} {limit : Option Nat} {origin : String}
  {done : List (String × Nat)} {s : Search} {name : String} {depth : Nat}
  {rest : List (String × Nat)}

theorem ordered_start : Ordered g [] (start origin) where
  called := by simp [start]
  sorted := by simp [start]

theorem Ordered.firstCalled_lt (h : Ordered g done s) {e : LineageEntry} (he : e ∈ s.found) :
    firstCalled g done e.caller < done.length := by
  obtain ⟨p, hp, -⟩ := h.called e he
  exact (List.getElem?_eq_some_iff.1 hp).1

/-- Visiting a name adds callers that call none of the names visited before. -/
theorem Ordered.visit (h : Ordered g done s) {new : List LineageEntry} {queue : List (String × Nat)}
    {met : List String} (hdepth : ∀ e ∈ new, e.depth = depth + 1)
    (hcalled : ∀ e ∈ new, firstCalled g (done ++ [(name, depth)]) e.caller = done.length)
    (hsorted : new.Pairwise fun e f => e.caller < f.caller) :
    Ordered g (done ++ [(name, depth)]) ⟨queue, met, new.reverse ++ s.found⟩ := by
  have hkept : ∀ e ∈ s.found, firstCalled g (done ++ [(name, depth)]) e.caller = firstCalled g done e.caller :=
    fun e he => firstCalled_append (h.firstCalled_lt he) _
  constructor
  case called =>
    intro e he
    rcases List.mem_append.1 he with he | he
    · have he := List.mem_reverse.1 he
      exact ⟨(name, depth), by simp [hcalled e he], hdepth e he⟩
    · obtain ⟨p, hp, hpd⟩ := h.called e he
      refine ⟨p, ?_, hpd⟩
      rw [hkept e he, List.getElem?_append_left (h.firstCalled_lt he)]
      exact hp
  case sorted =>
    simp only [List.reverse_append, List.reverse_reverse, List.pairwise_append, List.mem_reverse]
    refine ⟨?_, ?_, ?_⟩
    · refine h.sorted.imp_of_mem ?_
      intro e f he hf hef
      rw [Precedes, hkept e (List.mem_reverse.1 he), hkept f (List.mem_reverse.1 hf)]
      exact hef
    · refine hsorted.imp_of_mem ?_
      intro e f he hf hef
      exact .inr ⟨(hcalled e he).trans (hcalled f hf).symm, Utf8.encode_lt_iff.2 hef⟩
    · intro e he f hf
      refine .inl ?_
      rw [hkept e he, hcalled f hf]
      exact h.firstCalled_lt he

theorem pairwise_newEntries (g : CallGraph) (declarations : DeclarationIndex) (s : Search)
    (name : String) (depth : Nat) :
    (newEntries (CallerIndex.ofGraph g) declarations s name depth).Pairwise fun e f =>
      e.caller < f.caller := by
  have hle : (s.unmet ((CallerIndex.ofGraph g).direct name)).Pairwise (· ≤ ·) :=
    ((CallerIndex.pairwise_direct g name).filter _).sublist (sublist_eraseDups _)
  have hlt : (s.unmet ((CallerIndex.ofGraph g).direct name)).Pairwise (· < ·) := by
    refine hle.imp₂ ?_ (nodup_eraseDups _)
    intro a b hab hne
    exact String.not_le.1 fun hba => hne (String.le_antisymm hab hba)
  exact List.pairwise_map.1 (hlt.sublist (sublist_entriesOf declarations (depth + 1) _))

/-- A new caller calls none of the names visited before: below the limit, visiting one would have met it. -/
theorem Invariant.firstCalled_new (hv : declarations.Valid)
    (h : Invariant g declarations limit origin done s) (hq : s.queue = (name, depth) :: rest)
    (hlimit : ∀ m ∈ limit, depth < m) {e : LineageEntry}
    (he : e ∈ newEntries (CallerIndex.ofGraph g) declarations s name depth) :
    firstCalled g (done ++ [(name, depth)]) e.caller = done.length := by
  have hfresh := fresh_newEntries hv g s name depth
  refine firstCalled_append_singleton ?_ (hfresh.edge e he)
  intro p hp
  by_contra hedge
  rw [Bool.not_eq_false] at hedge
  have hsorted := h.sorted
  rw [h.split, hq, List.pairwise_append] at hsorted
  have hpd : p.2 ≤ depth := hsorted.2.2 p hp (name, depth) List.mem_cons_self
  obtain ⟨d, hd, -⟩ := hfresh.record e he
  have hdeclared := (DeclarationIndex.contains_iff_get? hv _).2 ⟨d, hd⟩
  obtain ⟨q, hqs, hqe, -⟩ := h.closed p hp (fun m hm => Nat.lt_of_le_of_lt hpd (hlimit m hm)) _ hedge hdeclared
  exact hfresh.unmet e he (hqe ▸ h.met q hqs)

theorem Ordered.step (hv : declarations.Valid) (hinv : Invariant g declarations limit origin done s)
    (hq : s.queue = (name, depth) :: rest) (h : Ordered g done s) :
    Ordered g (done ++ [(name, depth)]) (Search.step (CallerIndex.ofGraph g) declarations limit s) := by
  rcases limit_cases limit depth with hlimit | hlimit
  · rw [step_of_limit hq hlimit]
    exact h.visit (List.forall_mem_nil fun e : LineageEntry => e.depth = depth + 1) (List.forall_mem_nil _)
      List.Pairwise.nil
  · rw [step_of_visit hq hlimit]
    exact h.visit (fun e he => depth_of_mem_newEntries he)
      (fun e he => hinv.firstCalled_new hv hq hlimit he) (pairwise_newEntries g declarations s name depth)

end

end Search

/-! ## Lineages -/

theorem foldr_max_depth_le {found : List LineageEntry} {n : Nat} (h : ∀ e ∈ found, e.depth ≤ n) :
    found.foldr (fun e d => max e.depth d) 0 ≤ n := by
  induction found with
  | nil => exact Nat.zero_le n
  | cons e found ih =>
    rw [List.foldr_cons, Nat.max_le]
    exact ⟨h e List.mem_cons_self, ih fun f hf => h f (List.mem_cons_of_mem e hf)⟩

theorem le_foldr_max_depth {found : List LineageEntry} {e : LineageEntry} (he : e ∈ found) :
    e.depth ≤ found.foldr (fun e d => max e.depth d) 0 := by
  induction found with
  | nil => cases he
  | cons f found ih =>
    rw [List.foldr_cons]
    rcases List.mem_cons.1 he with rfl | he
    · exact Nat.le_max_left _ _
    · exact Nat.le_trans (ih he) (Nat.le_max_right _ _)

/-- The greatest depth is that of the last entry when depths never decrease. -/
theorem foldr_max_depth_eq {found : List LineageEntry}
    (h : found.reverse.Pairwise fun e f => e.depth ≤ f.depth) :
    found.foldr (fun e d => max e.depth d) 0 = (found.reverse.getLast?.map LineageEntry.depth).getD 0 := by
  cases found with
  | nil => rfl
  | cons e found =>
    have hle : found.foldr (fun e d => max e.depth d) 0 ≤ e.depth :=
      foldr_max_depth_le (List.pairwise_cons.1 (List.pairwise_reverse.1 h)).1
    simp [Nat.max_eq_left hle]

namespace CallerIndex

open Search (Invariant Ordered)

section

variable {g : CallGraph} {declarations : DeclarationIndex} (hv : declarations.Valid)
  {origin : String} {limit : Option Nat} {l : Lineage}
  (h : (ofGraph g).lineage? declarations origin limit = some l)

include hv h

theorem exists_ordered_walk :
    ∃ s, Invariant g declarations limit origin l.sequence s ∧ Ordered g l.sequence s ∧
      l = ⟨origin, s.found.reverse, s.found.foldr (fun e d => max e.depth d) 0⟩ := by
  obtain ⟨s, hinv, hord, -, rfl⟩ :=
    exists_walk (P := Ordered g) hv Search.ordered_start (Ordered.step hv) h
  exact ⟨s, hinv, hord, rfl⟩

theorem called_of_mem_callers {e : LineageEntry} (he : e ∈ l.callers) :
    ∃ name depth, l.sequence[firstCalled g l.sequence e.caller]? = some (name, depth) ∧
      g.hasEdge e.caller name = true ∧ e.depth = depth + 1 := by
  obtain ⟨s, -, hord, hl⟩ := exists_ordered_walk hv h
  rw [hl] at he
  obtain ⟨⟨name, depth⟩, hp, hdepth⟩ := hord.called e (List.mem_reverse.1 he)
  obtain ⟨hlt, hname⟩ := List.getElem?_eq_some_iff.1 hp
  have hedge : g.hasEdge e.caller (l.sequence[firstCalled g l.sequence e.caller]).1 = true :=
    List.findIdx_getElem (w := hlt)
  rw [hname] at hedge
  exact ⟨name, depth, hp, hedge, hdepth⟩

theorem pairwise_callers : l.callers.Pairwise fun e f => Precedes g l.sequence e.caller f.caller := by
  obtain ⟨s, -, hord, hl⟩ := exists_ordered_walk hv h
  rw [congrArg Lineage.callers hl]
  exact hord.sorted

theorem pairwise_sequence : l.sequence.Pairwise fun p q => p.2 ≤ q.2 := by
  obtain ⟨s, hinv, -, rfl⟩ := exists_ordered_walk hv h
  exact hinv.sorted

theorem pairwise_depth : l.callers.Pairwise fun e f => e.depth ≤ f.depth := by
  have htail := (List.pairwise_cons.1 (pairwise_sequence hv h)).2
  rwa [List.pairwise_map] at htail

theorem maxDepth_eq : l.maxDepth = (l.callers.getLast?.map LineageEntry.depth).getD 0 := by
  have hsorted := pairwise_depth hv h
  obtain ⟨s, -, -, rfl⟩ := exists_ordered_walk hv h
  exact foldr_max_depth_eq hsorted

theorem depth_le_maxDepth {e : LineageEntry} (he : e ∈ l.callers) : e.depth ≤ l.maxDepth := by
  obtain ⟨s, -, -, rfl⟩ := exists_ordered_walk hv h
  exact le_foldr_max_depth (List.mem_reverse.1 he)

theorem snd_le_maxDepth {p : String × Nat} (hp : p ∈ l.sequence) : p.2 ≤ l.maxDepth := by
  rcases List.mem_cons.1 hp with rfl | hp
  · exact Nat.zero_le _
  · obtain ⟨e, he, rfl⟩ := List.mem_map.1 hp
    exact depth_le_maxDepth hv h he

theorem maxDepth_le {n : Nat} (hn : ∀ e ∈ l.callers, e.depth ≤ n) : l.maxDepth ≤ n := by
  obtain ⟨s, -, -, rfl⟩ := exists_ordered_walk hv h
  exact foldr_max_depth_le fun e he => hn e (List.mem_reverse.2 he)

/-- A caller stands behind the first name that it calls, since it is further away and depths never decrease. -/
theorem firstCalled_le {i : Nat} {e : LineageEntry} (he : l.callers[i]? = some e) :
    firstCalled g l.sequence e.caller ≤ i := by
  obtain ⟨name, depth, hp, -, hdepth⟩ := called_of_mem_callers hv h (List.mem_of_getElem? he)
  have hself : l.sequence[i + 1]? = some (e.caller, e.depth) := by simp [Lineage.sequence, he]
  by_contra hbehind
  rcases Nat.lt_or_eq_of_le (Nat.lt_of_not_le hbehind) with hlater | heq
  · obtain ⟨hi, hself⟩ := List.getElem?_eq_some_iff.1 hself
    obtain ⟨hlt, hp⟩ := List.getElem?_eq_some_iff.1 hp
    have hle := List.pairwise_iff_getElem.1 (pairwise_sequence hv h) _ _ hi hlt hlater
    rw [hp, hself] at hle
    omega
  · rw [← heq, Nat.succ_eq_add_one, hself, Option.some.injEq, Prod.mk.injEq] at hp
    omega

theorem lt_iff_precedes {i j : Nat} {e f : LineageEntry} (he : l.callers[i]? = some e)
    (hf : l.callers[j]? = some f) : i < j ↔ Precedes g l.sequence e.caller f.caller := by
  have hbefore : ∀ {i j : Nat} {e f : LineageEntry}, l.callers[i]? = some e → l.callers[j]? = some f →
      i < j → Precedes g l.sequence e.caller f.caller := by
    intro i j e f he hf hij
    obtain ⟨hi, rfl⟩ := List.getElem?_eq_some_iff.1 he
    obtain ⟨hj, rfl⟩ := List.getElem?_eq_some_iff.1 hf
    exact List.pairwise_iff_getElem.1 (pairwise_callers hv h) i j hi hj hij
  refine ⟨hbefore he hf, ?_⟩
  intro hef
  rcases Nat.lt_trichotomy i j with hij | rfl | hji
  · exact hij
  · rw [he, Option.some.injEq] at hf
    subst hf
    exact absurd hef hef.asymm
  · exact absurd hef (hbefore hf he hji).asymm

end

/-- The lineage of a declared name is in one order. Of two callers the one comes first that calls the earlier name among
the origin and the callers reported; callers of the same name come in the order of their bytes. The first name that a
caller calls stands before it, and the caller is one call further away than this name; so depths never decrease, and
the greatest one is that of the last caller. -/
theorem lineage?_ordered (g : CallGraph) (records : List Declaration) {origin : String}
    (limit : Option Nat) (ho : DeclaredBy records origin) :
    ∃ l, (ofGraph g).lineage? (.ofList records) origin limit = some l ∧
      (∀ (i j : Nat) (e f : LineageEntry), l.callers[i]? = some e → l.callers[j]? = some f →
        (i < j ↔ Precedes g l.sequence e.caller f.caller)) ∧
      (∀ (i : Nat) (e : LineageEntry), l.callers[i]? = some e →
        firstCalled g l.sequence e.caller < i + 1 ∧
        ∃ name depth, l.sequence[firstCalled g l.sequence e.caller]? = some (name, depth) ∧
          g.hasEdge e.caller name = true ∧ e.depth = depth + 1) ∧
      l.callers.Pairwise (fun e f => e.depth ≤ f.depth) ∧
      l.maxDepth = (l.callers.getLast?.map LineageEntry.depth).getD 0 := by
  have hv := DeclarationIndex.valid_ofList records
  obtain ⟨l, h⟩ := exists_lineage? ho g limit
  refine ⟨l, h, ?_, ?_, pairwise_depth hv h, maxDepth_eq hv h⟩
  · intro i j e f he hf
    exact lt_iff_precedes hv h he hf
  · intro i e he
    exact ⟨Nat.lt_succ_of_le (firstCalled_le hv h he), called_of_mem_callers hv h (List.mem_of_getElem? he)⟩

/-- Two names call the origin. The name that comes last calls both of them, and is called itself by the origin; the name
before it calls the second of them and the last. -/
def shared : CallGraph :=
  ⟨((((SortedMap.empty.insert "a" ["o"]).insert "b" ["o", "b"]).insert "c" ["z", "b"]).insert "o"
    ["z"]).insert "z" ["b", "a", "z"]⟩

def sharedRecords : List Declaration :=
  [.of none "c" ⟨"c.go"⟩ 1, .of none "z" ⟨"z.go"⟩ 1, .of none "o" ⟨"o.go"⟩ 1, .of none "b" ⟨"o.go"⟩ 5,
    .of none "a" ⟨"o.go"⟩ 9]

theorem lineage?_ordered_shared :
    DeclaredBy sharedRecords "o" ∧
    ∃ l, (ofGraph shared).lineage? (.ofList sharedRecords) "o" none = some l ∧
      l.sequence = [("o", 0), ("a", 1), ("b", 1), ("z", 2), ("c", 2)] ∧
      Precedes shared l.sequence "z" "c" ∧ l.maxDepth = 2 := by
  have ho : DeclaredBy sharedRecords "o" := ⟨.of none "o" ⟨"o.go"⟩ 1, by decide, rfl⟩
  have heval : (ofGraph shared).lineage? (.ofList sharedRecords) "o" none =
      some ⟨"o", [⟨"a", 1, ⟨"o.go"⟩, 9⟩, ⟨"b", 1, ⟨"o.go"⟩, 5⟩, ⟨"z", 2, ⟨"z.go"⟩, 1⟩, ⟨"c", 2, ⟨"c.go"⟩, 1⟩], 2⟩ := by
    decide +kernel
  obtain ⟨l, hl, horder, -, -, hmax⟩ := lineage?_ordered shared sharedRecords none ho
  rw [heval, Option.some.injEq] at hl
  subst hl
  exact ⟨ho, _, heval, rfl, (horder 2 3 _ _ rfl rfl).1 (by decide), hmax⟩

end CallerIndex

end CallLineage
