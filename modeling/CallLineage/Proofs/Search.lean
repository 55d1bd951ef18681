import Mathlib.Data.List.Nodup
import CallLineage.Lineage
import CallLineage.Proofs.CallGraph
import CallLineage.Proofs.Declaration
/-! The breadth-first walk from callee to caller.
`foldl_meet` says exactly what visiting one name adds; `Invariant` is kept by every step, and when the queue is empty
it says that everything within reach has been found at its least depth. -/
namespace CallLineage

/-- A chain of calls that ends at `origin`: the given number of calls lead there from the given name, and all names
of the chain before the origin are declared. -/
inductive CallChain (g : CallGraph) (declared : String → Prop) (origin : String) :
    Nat → String → Prop
  | start : CallChain g declared origin 0 origin
  | call {k : Nat} {callee caller : String} (chain : CallChain g declared origin k callee)
      (edge : g.hasEdge caller callee = true) (isDeclared : declared caller) :
      CallChain g declared origin (k + 1) caller

namespace CallerIndex

/-- The direct callers of a name: every caller of the graph, in order, as often as it names the callee. -/
theorem direct_ofGraph (g : CallGraph) (callee : String) :
    (ofGraph g).direct callee =
      g.toList.flatMap fun e => List.replicate (e.2.count callee) e.1 := by
  have inner : ∀ (caller : String) (callees : List String) (m : SortedMap (List String)),
      ((callees.foldl (fun m c => m.alter c fun old => old.getD [] ++ [caller]) m).get? callee).getD [] =
        (m.get? callee).getD [] ++ List.replicate (callees.count callee) caller := by
    intro caller callees
    induction callees with
    | nil => simp
    | cons c callees ih =>
      intro m
      rw [List.foldl_cons, ih]
      by_cases h : callee = c
      · subst h
        simp [List.replicate_succ]
      · simp [h, Ne.symm h]
  have outer : ∀ (es : List (String × List String)) (m : SortedMap (List String)),
      ((es.foldl (fun m e =>
          e.2.foldl (fun m c => m.alter c fun old => old.getD [] ++ [e.1]) m) m).get? callee).getD [] =
        (m.get? callee).getD [] ++ es.flatMap fun e => List.replicate (e.2.count callee) e.1 := by
    intro es
    induction es with
    | nil => simp
    | cons e es ih =>
      intro m
      rw [List.foldl_cons, ih, inner]
      simp
  simpa [direct, ofGraph] using outer g.toList .empty

theorem mem_direct_iff (g : CallGraph) (caller callee : String) :
    caller ∈ (ofGraph g).direct callee ↔ g.hasEdge caller callee = true := by
  rw [direct_ofGraph]
  simp only [List.mem_flatMap, List.mem_replicate, CallGraph.toList, CallGraph.hasEdge,
    CallGraph.callees?]
  constructor
  · rintro ⟨⟨k, l⟩, he, hc, rfl⟩
    rw [(g.callers.mem_entries_iff _ _).1 he]
    simpa [List.count_eq_zero] using hc
  · intro h
    cases hl : g.callers.get? caller with
    | none => simp [hl] at h
    | some l =>
      refine ⟨(caller, l), (g.callers.mem_entries_iff _ _).2 hl, ?_, rfl⟩
      simpa [hl, List.count_eq_zero] using h

end CallerIndex

namespace Search

/-! ## One step -/

def entriesOf (declarations : DeclarationIndex) (depth : Nat) (callers : List String) :
    List LineageEntry :=
  callers.filterMap fun c => (declarations.get? c).map fun d => ⟨c, depth, d.file, d.line⟩

/-- The names among the given ones that have not been met, each where it comes first. -/
def unmet (s : Search) (callers : List String) : List String :=
  (callers.filter fun c => !s.met.contains c).eraseDups

theorem mem_unmet {s : Search} {callers : List String} {c : String} :
    c ∈ s.unmet callers ↔ c ∈ callers ∧ c ∉ s.met := by
  simp [unmet, List.mem_eraseDups]

theorem mem_entriesOf {declarations : DeclarationIndex} {depth : Nat} {callers : List String}
    {e : LineageEntry} :
    e ∈ entriesOf declarations depth callers ↔
      e.caller ∈ callers ∧ e.depth = depth ∧
        ∃ d, declarations.get? e.caller = some d ∧ e.file = d.file ∧ e.line = d.line := by
  simp only [entriesOf, List.mem_filterMap, Option.map_eq_some_iff]
  constructor
  · rintro ⟨c, hc, d, hd, rfl⟩
    exact ⟨hc, rfl, d, hd, rfl, rfl⟩
  · rintro ⟨hc, rfl, d, hd, hf, hl⟩
    refine ⟨e.caller, hc, d, hd, ?_⟩
    rw [← hf, ← hl]

/-- Meeting callers one after another queues and reports the declared ones among those not met before, in order, and
leaves all of them met. -/
theorem foldl_meet (declarations : DeclarationIndex) (depth : Nat) (callers : List String)
    (s : Search) :
    callers.foldl (meet declarations depth) s =
      ⟨s.queue ++ (entriesOf declarations depth (s.unmet callers)).map fun e => (e.caller, e.depth),
        (s.unmet callers).reverse ++ s.met,
        (entriesOf declarations depth (s.unmet callers)).reverse ++ s.found⟩ := by
  induction callers generalizing s with
  | nil => simp [unmet, entriesOf]
  | cons c callers ih =>
    rw [List.foldl_cons, ih]
    by_cases hc : s.met.contains c
    · have hu : s.unmet (c :: callers) = s.unmet callers := by
        rw [unmet, List.filter_cons_of_neg (by simpa using hc), ← unmet]
      have hm : meet declarations depth s c = s := by rw [meet, if_pos hc]
      rw [hm, hu]
    · have hu : ∀ t : Search, t.met = c :: s.met → s.unmet (c :: callers) = c :: t.unmet callers := by
        intro t ht
        rw [unmet, List.filter_cons_of_pos (by simpa using hc), List.eraseDups_cons,
          List.filter_filter, unmet, ht]
        congr 3
        funext x
        by_cases hx : x = c <;> simp [hx]
      cases hd : declarations.get? c with
      | none =>
        have hm : meet declarations depth s c = { s with met := c :: s.met } := by
          rw [meet, if_neg hc]
          simp only [hd]
        rw [hm, hu { s with met := c :: s.met } rfl]
        simp [entriesOf, hd]
      | some d =>
        have hm : meet declarations depth s c =
            ⟨s.queue ++ [(c, depth)], c :: s.met, ⟨c, depth, d.file, d.line⟩ :: s.found⟩ := by
          rw [meet, if_neg hc]
          simp only [hd]
        rw [hm, hu ⟨s.queue ++ [(c, depth)], c :: s.met, ⟨c, depth, d.file, d.line⟩ :: s.found⟩ rfl]
        simp [entriesOf, hd]

theorem sublist_entriesOf (declarations : DeclarationIndex) (depth : Nat) (callers : List String) :
    ((entriesOf declarations depth callers).map fun e => e.caller).Sublist callers := by
  induction callers with
  | nil => simp [entriesOf]
  | cons c callers ih =>
    cases hd : declarations.get? c with
    | none => simpa [entriesOf, hd] using ih.cons c
    | some d => simpa [entriesOf, hd] using ih.cons_cons c

/-- Entries for exactly the declared callers of `name` that have not been met, each once. -/
structure Fresh (g : CallGraph) (declarations : DeclarationIndex) (met : List String)
    (name : String) (depth : Nat) (new : List LineageEntry) : Prop where
  edge : ∀ e ∈ new, g.hasEdge e.caller name = true
  unmet : ∀ e ∈ new, e.caller ∉ met
  depth_eq : ∀ e ∈ new, e.depth = depth
  record : ∀ e ∈ new, ∃ d, declarations.get? e.caller = some d ∧ e.file = d.file ∧ e.line = d.line
  complete : ∀ c, g.hasEdge c name = true → c ∉ met → declarations.contains c = true →
    ∃ e ∈ new, e.caller = c
  nodup : (new.map fun e => e.caller).Nodup

/-- The entries that visiting a name adds: those for its declared callers that have not been met. -/
def newEntries (x : CallerIndex) (declarations : DeclarationIndex) (s : Search) (name : String)
    (depth : Nat) : List LineageEntry :=
  entriesOf declarations (depth + 1) (s.unmet (x.direct name))

theorem depth_of_mem_newEntries {x : CallerIndex} {declarations : DeclarationIndex} {s : Search}
    {name : String} {depth : Nat} {e : LineageEntry} (he : e ∈ newEntries x declarations s name depth) :
    e.depth = depth + 1 :=
  (mem_entriesOf.1 he).2.1

theorem fresh_newEntries {declarations : DeclarationIndex} (hv : declarations.Valid) (g : CallGraph)
    (s : Search) (name : String) (depth : Nat) :
    Fresh g declarations s.met name (depth + 1)
      (newEntries (CallerIndex.ofGraph g) declarations s name depth) where
  edge := by
    intro e he
    exact (CallerIndex.mem_direct_iff _ _ _).1 (mem_unmet.1 (mem_entriesOf.1 he).1).1
  unmet := by
    intro e he
    exact (mem_unmet.1 (mem_entriesOf.1 he).1).2
  depth_eq := by
    intro e he
    exact depth_of_mem_newEntries he
  record := by
    intro e he
    exact (mem_entriesOf.1 he).2.2
  complete := by
    intro c hc hm hd
    obtain ⟨d, hd⟩ := (DeclarationIndex.contains_iff_get? hv c).1 hd
    have hu := mem_unmet.2 ⟨(CallerIndex.mem_direct_iff _ _ _).2 hc, hm⟩
    exact ⟨⟨c, depth + 1, d.file, d.line⟩, mem_entriesOf.2 ⟨hu, rfl, d, hd, rfl, rfl⟩, rfl⟩
  nodup := (nodup_eraseDups _).sublist (sublist_entriesOf _ _ _)

section

variable {x : CallerIndex} {declarations : DeclarationIndex} {limit : Option Nat} {s : Search}
  {name : String} {depth : Nat} {rest : List (String × Nat)}

theorem limit_cases (limit : Option Nat) (depth : Nat) : (∃ m ∈ limit, m ≤ depth) ∨ ∀ m ∈ limit, depth < m := by
  by_cases h : ∃ m ∈ limit, m ≤ depth
  · exact .inl h
  · exact .inr fun m hm => Nat.lt_of_not_le fun hle => h ⟨m, hm, hle⟩

/-- A name at the limit leaves the queue, and nothing else changes. -/
theorem step_of_limit (hq : s.queue = (name, depth) :: rest) (h : ∃ m ∈ limit, m ≤ depth) :
    step x declarations limit s = { s with queue := rest } := by
  have hlimit : limit.any (· ≤ depth) = true := by simpa [Option.any_eq_true] using h
  simp only [step, hq, hlimit, if_true]

/-- A name below the limit is taken from the queue and its new callers are queued and reported. -/
theorem step_of_visit (hq : s.queue = (name, depth) :: rest) (h : ∀ m ∈ limit, depth < m) :
    step x declarations limit s =
      ⟨rest ++ (newEntries x declarations s name depth).map fun e => (e.caller, e.depth),
        (s.unmet (x.direct name)).reverse ++ s.met,
        (newEntries x declarations s name depth).reverse ++ s.found⟩ := by
  have hlimit : limit.any (· ≤ depth) = false := by simpa [Option.any_eq_false] using h
  simp only [step, hq, hlimit, Bool.false_eq_true, if_false, foldl_meet]
  rfl

end

/-! ## The invariant -/

/-- The origin and the callers found, with their depths, in the order in which they were queued. -/
def seen (origin : String) (found : List LineageEntry) : List (String × Nat) :=
  (origin, 0) :: found.reverse.map fun e => (e.caller, e.depth)

theorem seen_append (origin : String) (new found : List LineageEntry) :
    seen origin (new.reverse ++ found) =
      seen origin found ++ new.map fun e => (e.caller, e.depth) := by
  simp [seen]

theorem mem_seen_append {origin : String} {new found : List LineageEntry} {p : String × Nat} :
    p ∈ seen origin (new.reverse ++ found) ↔
      p ∈ seen origin found ∨ ∃ e ∈ new, (e.caller, e.depth) = p := by
  rw [seen_append, List.mem_append, List.mem_map]

/-- What holds of the walk between two steps. `done` are the names that have been visited. -/
structure Invariant (g : CallGraph) (declarations : DeclarationIndex) (limit : Option Nat)
    (origin : String) (done : List (String × Nat)) (s : Search) : Prop where
  split : seen origin s.found = done ++ s.queue
  nodup : ((seen origin s.found).map fun p => p.1).Nodup
  sorted : (seen origin s.found).Pairwise fun p q => p.2 ≤ q.2
  near : ∀ p ∈ seen origin s.found, ∀ q ∈ s.queue, p.2 ≤ q.2 + 1
  met : ∀ p ∈ seen origin s.found, p.1 ∈ s.met
  kept : ∀ c ∈ s.met, declarations.contains c = true → ∃ p ∈ seen origin s.found, p.1 = c
  chain : ∀ p ∈ seen origin s.found,
    CallChain g (fun c => declarations.contains c = true) origin p.2 p.1
  entry : ∀ e ∈ s.found, 0 < e.depth ∧ (∀ m ∈ limit, e.depth ≤ m) ∧
    ∃ d, declarations.get? e.caller = some d ∧ e.file = d.file ∧ e.line = d.line
  closed : ∀ p ∈ done, (∀ m ∈ limit, p.2 < m) → ∀ c, g.hasEdge c p.1 = true →
    declarations.contains c = true → ∃ q ∈ seen origin s.found, q.1 = c ∧ q.2 ≤ p.2 + 1

section

variable {g : CallGraph} {declarations : DeclarationIndex} {limit : Option Nat} {origin : String}
  {done : List (String × Nat)} {s : Search} {name : String} {depth : Nat}
  {rest : List (String × Nat)}

theorem invariant_start : Invariant g declarations limit origin [] (start origin) where
  split := rfl
  nodup := by simp [seen, start]
  sorted := by simp [seen, start]
  near := by simp [seen, start]
  met := by simp [seen, start]
  kept := by
    intro c hc _
    have hco : c = origin := by simpa [start] using hc
    exact ⟨(origin, 0), by simp [seen], hco.symm⟩
  chain := by
    intro p hp
    have hpo : p = (origin, 0) := by simpa [seen, start] using hp
    subst hpo
    exact .start
  entry := by simp [start]
  closed := by simp

/-- A name at the limit is taken from the queue and nothing else happens. -/
theorem Invariant.skip (h : Invariant g declarations limit origin done s)
    (hq : s.queue = (name, depth) :: rest) (hlimit : ∃ m ∈ limit, m ≤ depth) :
    Invariant g declarations limit origin (done ++ [(name, depth)]) { s with queue := rest } where
  split := by
    rw [h.split, hq]
    simp
  nodup := h.nodup
  sorted := h.sorted
  near := by
    intro p hp q hqm
    exact h.near p hp q (by rw [hq]; exact List.mem_cons_of_mem _ hqm)
  met := h.met
  kept := h.kept
  chain := h.chain
  entry := h.entry
  closed := by
    intro p hp hm
    rcases List.mem_append.1 hp with hp | hp
    · exact h.closed p hp hm
    · obtain ⟨m, hm', hle⟩ := hlimit
      have hlt := hm m hm'
      have hpd : p = (name, depth) := by simpa using hp
      subst hpd
      exact absurd hlt (Nat.not_lt.2 hle)

/-- Everything seen lies at most one call further away than the head of the queue, and everything behind the head
at least as far. -/
theorem Invariant.head (h : Invariant g declarations limit origin done s)
    (hq : s.queue = (name, depth) :: rest) :
    (name, depth) ∈ seen origin s.found ∧ (∀ p ∈ seen origin s.found, p.2 ≤ depth + 1) ∧
      ∀ q ∈ rest, depth ≤ q.2 := by
  have hs := h.sorted
  rw [h.split, hq, List.pairwise_append] at hs
  refine ⟨by simp [h.split, hq], ?_, (List.pairwise_cons.1 hs.2.1).1⟩
  intro p hp
  exact h.near p hp (name, depth) (by simp [hq])

/-- Adding the fresh callers of the head of the queue, one call further away. -/
theorem Invariant.visit {new : List LineageEntry} {met : List String} (hv : declarations.Valid)
    (h : Invariant g declarations limit origin done s) (hq : s.queue = (name, depth) :: rest)
    (hlimit : ∀ m ∈ limit, depth < m) (hnew : Fresh g declarations s.met name (depth + 1) new)
    (hmet : ∀ c, c ∈ met ↔ g.hasEdge c name = true ∨ c ∈ s.met) :
    Invariant g declarations limit origin (done ++ [(name, depth)])
      ⟨rest ++ new.map fun e => (e.caller, e.depth), met, new.reverse ++ s.found⟩ := by
  obtain ⟨hhead, hnear, hrest⟩ := h.head hq
  constructor
  case split =>
    rw [seen_append, h.split, hq]
    simp
  case nodup =>
    rw [seen_append, List.map_append, List.map_map]
    refine List.Nodup.append h.nodup hnew.nodup ?_
    intro c hc hc'
    obtain ⟨p, hp, rfl⟩ := List.mem_map.1 hc
    obtain ⟨e, he, hpe⟩ := List.mem_map.1 hc'
    have hpe' : e.caller = p.1 := hpe
    exact hnew.unmet e he (hpe' ▸ h.met p hp)
  case sorted =>
    rw [seen_append, List.pairwise_append]
    refine ⟨h.sorted, ?_, ?_⟩
    · rw [List.pairwise_map]
      apply List.pairwise_of_forall_mem_list
      intro e he e' he'
      exact Nat.le_of_eq ((hnew.depth_eq e he).trans (hnew.depth_eq e' he').symm)
    · intro p hp q hqm
      obtain ⟨e, he, rfl⟩ := List.mem_map.1 hqm
      rw [hnew.depth_eq e he]
      exact hnear p hp
  case near =>
    intro p hp q hqm
    have hp' : p.2 ≤ depth + 1 := by
      rcases mem_seen_append.1 hp with hp | ⟨e, he, rfl⟩
      · exact hnear p hp
      · exact Nat.le_of_eq (hnew.depth_eq e he)
    have hq' : depth ≤ q.2 := by
      rcases List.mem_append.1 hqm with hqm | hqm
      · exact hrest q hqm
      · obtain ⟨e, he, rfl⟩ := List.mem_map.1 hqm
        rw [hnew.depth_eq e he]
        exact Nat.le_succ depth
    omega
  case met =>
    intro p hp
    rcases mem_seen_append.1 hp with hp | ⟨e, he, rfl⟩
    · exact (hmet _).2 (.inr (h.met p hp))
    · exact (hmet _).2 (.inl (hnew.edge e he))
  case kept =>
    intro c hc hd
    by_cases hold : c ∈ s.met
    · obtain ⟨p, hp, rfl⟩ := h.kept c hold hd
      exact ⟨p, mem_seen_append.2 (.inl hp), rfl⟩
    · obtain ⟨e, he, rfl⟩ := hnew.complete c (((hmet c).1 hc).resolve_right hold) hold hd
      exact ⟨_, mem_seen_append.2 (.inr ⟨e, he, rfl⟩), rfl⟩
  case chain =>
    intro p hp
    rcases mem_seen_append.1 hp with hp | ⟨e, he, rfl⟩
    · exact h.chain p hp
    · obtain ⟨d, hd, -⟩ := hnew.record e he
      rw [hnew.depth_eq e he]
      exact .call (h.chain _ hhead) (hnew.edge e he)
        ((DeclarationIndex.contains_iff_get? hv _).2 ⟨d, hd⟩)
  case entry =>
    intro e he
    rcases List.mem_append.1 he with he | he
    · have he' := List.mem_reverse.1 he
      rw [hnew.depth_eq e he']
      exact ⟨Nat.succ_pos _, hlimit, hnew.record e he'⟩
    · exact h.entry e he
  case closed =>
    intro p hp hm c hc hd
    rcases List.mem_append.1 hp with hp | hp
    · obtain ⟨q, hqs, hqc⟩ := h.closed p hp hm c hc hd
      exact ⟨q, mem_seen_append.2 (.inl hqs), hqc⟩
    · have hpd : p = (name, depth) := by simpa using hp
      subst hpd
      -- A caller that was met before has been seen, and so lies at most one call further away.
      by_cases hold : c ∈ s.met
      · obtain ⟨q, hqs, rfl⟩ := h.kept c hold hd
        exact ⟨q, mem_seen_append.2 (.inl hqs), rfl, hnear q hqs⟩
      · obtain ⟨e, he, rfl⟩ := hnew.complete c hc hold hd
        exact ⟨_, mem_seen_append.2 (.inr ⟨e, he, rfl⟩), rfl, Nat.le_of_eq (hnew.depth_eq e he)⟩

theorem Invariant.step (hv : declarations.Valid) (h : Invariant g declarations limit origin done s)
    (hq : s.queue = (name, depth) :: rest) :
    Invariant g declarations limit origin (done ++ [(name, depth)])
      (Search.step (CallerIndex.ofGraph g) declarations limit s) := by
  rcases limit_cases limit depth with hlimit | hlimit
  · rw [step_of_limit hq hlimit]
    exact h.skip hq hlimit
  · rw [step_of_visit hq hlimit]
    refine h.visit hv hq hlimit (fresh_newEntries hv g s name depth) ?_
    intro c
    rw [List.mem_append, List.mem_reverse, mem_unmet, CallerIndex.mem_direct_iff]
    by_cases hc : c ∈ s.met <;> simp [hc]

/-! ## Whole runs -/

theorem Invariant.contains_of_mem_seen (hv : declarations.Valid)
    (h : Invariant g declarations limit origin done s) (ho : declarations.contains origin = true) :
    ∀ p ∈ seen origin s.found, declarations.contains p.1 = true := by
  intro p hp
  rcases List.mem_cons.1 hp with rfl | hp
  · exact ho
  · obtain ⟨e, he, rfl⟩ := List.mem_map.1 hp
    obtain ⟨-, -, d, hd, -⟩ := h.entry e (List.mem_reverse.1 he)
    exact (DeclarationIndex.contains_iff_get? hv _).2 ⟨d, hd⟩

theorem Invariant.length_seen_le (hv : declarations.Valid)
    (h : Invariant g declarations limit origin done s) (ho : declarations.contains origin = true) :
    (seen origin s.found).length ≤ declarations.names.length := by
  have hsub : ((seen origin s.found).map fun p => p.1) ⊆ declarations.names := by
    intro c hc
    obtain ⟨p, hp, rfl⟩ := List.mem_map.1 hc
    rw [DeclarationIndex.mem_names_iff]
    exact h.contains_of_mem_seen hv ho p hp
  simpa using List.Nodup.length_le_of_subset h.nodup hsub

/-- What every step keeps beside the invariant, the whole walk keeps. Every name that enters the queue is declared and
enters it once, so the walk ends within as many steps as there are declared names. -/
theorem Invariant.run {P : List (String × Nat) → Search → Prop} (hv : declarations.Valid)
    (ho : declarations.contains origin = true)
    (hstep : ∀ {done s name depth rest}, Invariant g declarations limit origin done s →
      s.queue = (name, depth) :: rest → P done s →
        P (done ++ [(name, depth)]) (Search.step (CallerIndex.ofGraph g) declarations limit s))
    (fuel : Nat) (h : Invariant g declarations limit origin done s) (hP : P done s)
    (hfuel : declarations.names.length < fuel + done.length) :
    ∃ done', Invariant g declarations limit origin done'
        (Search.run (CallerIndex.ofGraph g) declarations limit fuel s) ∧
      P done' (Search.run (CallerIndex.ofGraph g) declarations limit fuel s) ∧
      (Search.run (CallerIndex.ofGraph g) declarations limit fuel s).queue = [] := by
  induction fuel generalizing done s with
  | zero =>
    have hl := h.length_seen_le hv ho
    rw [h.split, List.length_append] at hl
    omega
  | succ fuel ih =>
    rw [Search.run]
    cases hq : s.queue with
    | nil => exact ⟨done, by simpa using h, by simpa using hP, by simpa using hq⟩
    | cons p rest =>
      obtain ⟨name, depth⟩ := p
      have hl : declarations.names.length < fuel + (done ++ [(name, depth)]).length := by
        simp only [List.length_append, List.length_singleton]
        omega
      simpa using ih (h.step hv hq) (hstep h hq hP) hl

/-- Once the queue is empty, every name within the limit has been seen at no greater depth than any chain from it. -/
theorem Invariant.reach (h : Invariant g declarations limit origin done s) (hq : s.queue = [])
    {k : Nat} {c : String} (hc : CallChain g (fun c => declarations.contains c = true) origin k c)
    (hk : ∀ m ∈ limit, k ≤ m) :
    ∃ p ∈ seen origin s.found, p.1 = c ∧ p.2 ≤ k := by
  induction hc with
  | start => exact ⟨(origin, 0), by simp [seen], rfl, Nat.le_refl _⟩
  | @call k callee caller _ edge declared ih =>
    obtain ⟨p, hp, rfl, hpk⟩ := ih fun m hm => Nat.le_of_succ_le (hk m hm)
    have hdone : p ∈ done := by
      have hs := h.split
      rw [hq, List.append_nil] at hs
      exact hs ▸ hp
    have hlt : ∀ m ∈ limit, p.2 < m := fun m hm => Nat.lt_of_le_of_lt hpk (hk m hm)
    obtain ⟨q, hqs, hqc, hqk⟩ := h.closed p hdone hlt caller edge declared
    exact ⟨q, hqs, hqc, by omega⟩

end

end Search

end CallLineage
