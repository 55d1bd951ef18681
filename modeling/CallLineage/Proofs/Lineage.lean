import Mathlib.Order.Bounds.Basic
import CallLineage.Proofs.Search
/-! Lineages hold exactly the callers within reach, each once and at its least depth. -/
namespace CallLineage.CallerIndex

open Search (Invariant seen)

/-- The numbers of calls over which a name reaches the origin within the limit. -/
def chainLengths (g : CallGraph) (declared : String → Prop) (origin : String) (limit : Option Nat)
    (c : String) : Set Nat :=
  {k | 1 ≤ k ∧ (∀ m ∈ limit, k ≤ m) ∧ CallChain g declared origin k c}

theorem mem_seen_iff {origin c : String} {found : List LineageEntry} {k : Nat} (hc : c ≠ origin) :
    (c, k) ∈ seen origin found ↔ ∃ e ∈ found.reverse, e.caller = c ∧ e.depth = k := by
  simp [seen, hc]

theorem lineage?_eq_none_iff (x : CallerIndex) (declarations : DeclarationIndex) (origin : String)
    (limit : Option Nat) :
    x.lineage? declarations origin limit = none ↔ declarations.contains origin = false := by
  unfold lineage?
  cases declarations.contains origin <;> simp

theorem callers_of_lineage? {x : CallerIndex} {declarations : DeclarationIndex} {origin : String}
    {limit : Option Nat} {l : Lineage} (h : x.lineage? declarations origin limit = some l) :
    l.callers = (Search.run x declarations limit (declarations.names.length + 1) (.start origin)).found.reverse := by
  unfold lineage? at h
  split at h
  · cases h
    rfl
  · cases h

/-- A lineage is what a walk that has come to its end has found, and all that every step keeps holds of that walk. -/
theorem exists_walk {P : List (String × Nat) → Search → Prop} {g : CallGraph}
    {declarations : DeclarationIndex} (hv : declarations.Valid) {origin : String} {limit : Option Nat}
    {l : Lineage} (hstart : P [] (.start origin))
    (hstep : ∀ {done s name depth rest}, Invariant g declarations limit origin done s →
      s.queue = (name, depth) :: rest → P done s →
        P (done ++ [(name, depth)]) (Search.step (ofGraph g) declarations limit s))
    (h : (ofGraph g).lineage? declarations origin limit = some l) :
    ∃ s, Invariant g declarations limit origin (seen origin s.found) s ∧ P (seen origin s.found) s ∧
      s.queue = [] ∧ l = ⟨origin, s.found.reverse, s.found.foldr (fun e d => max e.depth d) 0⟩ := by
  unfold lineage? at h
  split at h
  · rename_i ho
    obtain ⟨done, hinv, hP, hq⟩ := Search.invariant_start.run hv ho hstep
      (declarations.names.length + 1) hstart (by simp)
    have hdone := hinv.split
    rw [hq, List.append_nil] at hdone
    rw [← hdone] at hinv hP
    cases h
    exact ⟨_, hinv, hP, hq, rfl⟩
  · cases h

theorem exists_invariant {g : CallGraph} {declarations : DeclarationIndex} (hv : declarations.Valid)
    {origin : String} {limit : Option Nat} {l : Lineage}
    (h : (ofGraph g).lineage? declarations origin limit = some l) :
    ∃ done s, Invariant g declarations limit origin done s ∧ s.queue = [] ∧ l.origin = origin ∧
      l.callers = s.found.reverse := by
  obtain ⟨s, hinv, -, hq, rfl⟩ := exists_walk (P := fun _ _ => True) hv trivial (fun _ _ _ => trivial) h
  exact ⟨_, s, hinv, hq, rfl, rfl⟩

section

variable {g : CallGraph} {declarations : DeclarationIndex} (hv : declarations.Valid)
  {origin : String} {limit : Option Nat} {l : Lineage}
  (h : (ofGraph g).lineage? declarations origin limit = some l)

include hv h

theorem nodup_callers : (l.callers.map fun e => e.caller).Nodup ∧ ∀ e ∈ l.callers, e.caller ≠ origin := by
  obtain ⟨done, s, hinv, -, -, hl⟩ := exists_invariant hv h
  have hn := hinv.nodup
  simp only [seen, ← hl, List.map_cons, List.map_map, List.nodup_cons] at hn
  refine ⟨hn.2, ?_⟩
  rintro e he rfl
  exact hn.1 (List.mem_map.2 ⟨e, he, rfl⟩)

theorem mem_callers_iff (c : String) :
    c ∈ l.callers.map (fun e => e.caller) ↔
      c ≠ origin ∧
        (chainLengths g (fun c => declarations.contains c = true) origin limit c).Nonempty := by
  have hne := (nodup_callers hv h).2
  obtain ⟨done, s, hinv, hq, -, hl⟩ := exists_invariant hv h
  rw [hl] at hne ⊢
  constructor
  · intro hc
    obtain ⟨e, he, rfl⟩ := List.mem_map.1 hc
    obtain ⟨hpos, hlim, -⟩ := hinv.entry e (List.mem_reverse.1 he)
    have hseen := (mem_seen_iff (hne e he)).2 ⟨e, he, rfl, rfl⟩
    exact ⟨hne e he, e.depth, hpos, hlim, hinv.chain _ hseen⟩
  · rintro ⟨hco, k, -, hlim, hchain⟩
    obtain ⟨p, hp, rfl, -⟩ := hinv.reach hq hchain hlim
    obtain ⟨e, he, hec, -⟩ := (mem_seen_iff hco).1 hp
    exact List.mem_map.2 ⟨e, he, hec⟩

theorem depth_isLeast {e : LineageEntry} (he : e ∈ l.callers) :
    IsLeast (chainLengths g (fun c => declarations.contains c = true) origin limit e.caller)
      e.depth := by
  obtain ⟨hnodup, hne⟩ := nodup_callers hv h
  have hco := hne e he
  obtain ⟨done, s, hinv, hq, -, hl⟩ := exists_invariant hv h
  rw [hl] at he hnodup
  obtain ⟨hpos, hlim, -⟩ := hinv.entry e (List.mem_reverse.1 he)
  refine ⟨⟨hpos, hlim, hinv.chain _ ((mem_seen_iff hco).2 ⟨e, he, rfl, rfl⟩)⟩, ?_⟩
  rintro k ⟨-, hk, hchain⟩
  obtain ⟨p, hp, hpc, hpk⟩ := hinv.reach hq hchain hk
  obtain ⟨e', he', hec, hed⟩ := (mem_seen_iff (hpc ▸ hco)).1 hp
  have hee : e' = e := List.inj_on_of_nodup_map hnodup he' he (hec.trans hpc)
  subst hee
  exact hed ▸ hpk

theorem record_of_mem_callers {e : LineageEntry} (he : e ∈ l.callers) :
    ∃ d, declarations.get? e.caller = some d ∧ e.file = d.file ∧ e.line = d.line := by
  obtain ⟨done, s, hinv, -, -, hl⟩ := exists_invariant hv h
  rw [hl] at he
  exact (hinv.entry e (List.mem_reverse.1 he)).2.2

end

def DeclaredBy (records : List Declaration) (name : String) : Prop :=
  ∃ d ∈ records, d.name = name

theorem exists_lineage? {records : List Declaration} {origin : String} (ho : DeclaredBy records origin)
    (g : CallGraph) (limit : Option Nat) :
    ∃ l, (ofGraph g).lineage? (.ofList records) origin limit = some l := by
  cases h : (ofGraph g).lineage? (.ofList records) origin limit with
  | some l => exact ⟨l, rfl⟩
  | none =>
    rw [lineage?_eq_none_iff, ← Bool.not_eq_true,
      DeclarationIndex.contains_iff_exists (DeclarationIndex.valid_ofList records),
      DeclarationIndex.records_ofList] at h
    exact absurd ho h

/-- The lineage of a name in any graph, over an index of any records. There is none exactly when the origin is not
declared. A caller is reported exactly when it is another declared name with a chain of calls to the origin, all of
whose callers are declared and which is no longer than the limit; it is reported once, at the length of its shortest
chain, and at the place of its first record. -/
theorem lineage?_correct (g : CallGraph) (records : List Declaration) (origin : String)
    (limit : Option Nat) :
    ((ofGraph g).lineage? (.ofList records) origin limit = none ↔ ¬ DeclaredBy records origin) ∧
    ∀ l, (ofGraph g).lineage? (.ofList records) origin limit = some l →
      (∀ c, c ∈ l.callers.map (fun e => e.caller) ↔
        c ≠ origin ∧ DeclaredBy records c ∧
          (chainLengths g (DeclaredBy records) origin limit c).Nonempty) ∧
      (l.callers.map fun e => e.caller).Nodup ∧
      ∀ e ∈ l.callers,
        IsLeast (chainLengths g (DeclaredBy records) origin limit e.caller) e.depth ∧
        ∃ d, records.find? (fun d => d.name == e.caller) = some d ∧ e.file = d.file ∧
          e.line = d.line := by
  have hv := DeclarationIndex.valid_ofList records
  have hdecl : ∀ c, (DeclarationIndex.ofList records).contains c = true ↔ DeclaredBy records c := by
    intro c
    rw [DeclarationIndex.contains_iff_exists hv, DeclarationIndex.records_ofList, DeclaredBy]
  have hchain : (fun c => (DeclarationIndex.ofList records).contains c = true) = DeclaredBy records :=
    funext fun c => propext (hdecl c)
  refine ⟨by rw [lineage?_eq_none_iff, ← hdecl, Bool.not_eq_true], ?_⟩
  intro l h
  refine ⟨?_, (nodup_callers hv h).1, ?_⟩
  · intro c
    rw [mem_callers_iff hv h, hchain]
    constructor
    · rintro ⟨hne, k, hk, hlim, hc⟩
      refine ⟨hne, ?_, k, hk, hlim, hc⟩
      cases hc with
      | start => exact absurd rfl hne
      | call _ _ hd => exact hd
    · rintro ⟨hne, -, k, hk⟩
      exact ⟨hne, k, hk⟩
  · intro e he
    have hleast := depth_isLeast hv h he
    rw [hchain] at hleast
    obtain ⟨d, hd, hf, hl⟩ := record_of_mem_callers hv h he
    rw [DeclarationIndex.get?_eq_find? hv, DeclarationIndex.records_ofList] at hd
    exact ⟨hleast, d, hd, hf, hl⟩

/-- A graph with cycles, a call of itself, a callee named twice, and a caller `u` that nothing declares. -/
def tangled : CallGraph :=
  ⟨((((((SortedMap.empty.insert "a" ["o", "o"]).insert "b" ["a", "b"]).insert "c" ["b"]).insert "o"
    ["o", "c"]).insert "u" ["o"]).insert "v" ["u"])⟩

def tangledRecords : List Declaration :=
  [.of none "o" ⟨"o.go"⟩ 1, .of none "b" ⟨"b.go"⟩ 7, .of none "a" ⟨"a.go"⟩ 2, .of none "b" ⟨"a.go"⟩ 3,
    .of none "c" ⟨"c.go"⟩ 4, .of none "v" ⟨"v.go"⟩ 5]

theorem lineage?_correct_tangled :
    ∃ l, (ofGraph tangled).lineage? (.ofList tangledRecords) "o" (some 2) = some l ∧
      l.callers = [⟨"a", 1, ⟨"a.go"⟩, 2⟩, ⟨"b", 2, ⟨"b.go"⟩, 7⟩] ∧
      IsLeast (chainLengths tangled (DeclaredBy tangledRecords) "o" (some 2) "b") 2 ∧
      ¬ (chainLengths tangled (DeclaredBy tangledRecords) "o" (some 2) "v").Nonempty := by
  have heval : (ofGraph tangled).lineage? (.ofList tangledRecords) "o" (some 2) =
      some ⟨"o", [⟨"a", 1, ⟨"a.go"⟩, 2⟩, ⟨"b", 2, ⟨"b.go"⟩, 7⟩], 2⟩ := by decide +kernel
  obtain ⟨hmem, -, hleast⟩ := (lineage?_correct tangled tangledRecords "o" (some 2)).2 _ heval
  refine ⟨_, heval, rfl, (hleast ⟨"b", 2, ⟨"b.go"⟩, 7⟩ (by simp)).1, ?_⟩
  intro hv
  have hreported := (hmem "v").2 ⟨by decide, ⟨.of none "v" ⟨"v.go"⟩ 5, by decide, rfl⟩, hv⟩
  exact absurd hreported (by decide)

end CallLineage.CallerIndex
