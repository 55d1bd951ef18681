/-! Finite maps from names to values, kept in the order of their keys.
The order is part of the type, so two maps with the same bindings are equal. -/
namespace CallLineage

/-- Bindings in strictly increasing order of their keys. -/
structure SortedMap (α : Type) where
  entries : List (String × α)
  sorted : entries.Pairwise fun a b => a.1 < b.1

namespace SortedMap

variable {α : Type}

@[ext] theorem ext {m n : SortedMap α} (h : m.entries = n.entries) : m = n := by
  cases m; cases n; simp_all

instance [DecidableEq α] : DecidableEq (SortedMap α) := fun m n =>
  decidable_of_iff (m.entries = n.entries) ⟨ext, fun h => h ▸ rfl⟩

def empty : SortedMap α := ⟨[], .nil⟩

instance : Inhabited (SortedMap α) := ⟨empty⟩

def get? (m : SortedMap α) (k : String) : Option α := m.entries.lookup k

def contains (m : SortedMap α) (k : String) : Bool := (m.get? k).isSome

def keys (m : SortedMap α) : List String := m.entries.map (·.1)

def size (m : SortedMap α) : Nat := m.entries.length

/-- Puts `f` of the old value of `k` in its place. -/
def alterEntries (k : String) (f : Option α → α) : List (String × α) → List (String × α)
  | [] => [(k, f none)]
  | (k', v) :: rest =>
    if k < k' then (k, f none) :: (k', v) :: rest
    else if k = k' then (k', f (some v)) :: rest
    else (k', v) :: alterEntries k f rest

theorem key_mem_alterEntries {k : String} {f : Option α → α} {l : List (String × α)}
    {a : String × α} (h : a ∈ alterEntries k f l) : a.1 = k ∨ ∃ b ∈ l, b.1 = a.1 := by
  induction l with
  | nil => simp_all [alterEntries]
  | cons e rest ih =>
    obtain ⟨k', v⟩ := e
    rw [alterEntries] at h
    split at h
    · rcases List.mem_cons.1 h with rfl | h
      · exact .inl rfl
      · exact .inr ⟨a, h, rfl⟩
    · split at h
      · rcases List.mem_cons.1 h with rfl | h
        · exact .inr ⟨(k', v), by simp, rfl⟩
        · exact .inr ⟨a, List.mem_cons_of_mem _ h, rfl⟩
      · rcases List.mem_cons.1 h with rfl | h
        · exact .inr ⟨(k', v), by simp, rfl⟩
        · rcases ih h with h | ⟨b, hb, he⟩
          · exact .inl h
          · exact .inr ⟨b, List.mem_cons_of_mem _ hb, he⟩

theorem lt_of_not_lt_of_ne {a b : String} (h : ¬ a < b) (hne : a ≠ b) : b < a := by
  by_cases hl : b < a
  · exact hl
  · exact absurd (String.le_antisymm (String.not_lt.1 hl) (String.not_lt.1 h)) hne

theorem sorted_alterEntries {k : String} {f : Option α → α} {l : List (String × α)}
    (h : l.Pairwise fun a b => a.1 < b.1) :
    (alterEntries k f l).Pairwise fun a b => a.1 < b.1 := by
  induction l with
  | nil => simp [alterEntries]
  | cons e rest ih =>
    obtain ⟨k', v⟩ := e
    have hr := List.pairwise_cons.1 h
    rw [alterEntries]
    split
    · rename_i hk
      refine List.pairwise_cons.2 ⟨fun a ha => ?_, h⟩
      rcases List.mem_cons.1 ha with rfl | ha
      · exact hk
      · exact String.lt_trans hk (hr.1 a ha)
    · split
      · exact List.pairwise_cons.2 ⟨hr.1, hr.2⟩
      · rename_i hn hne
        refine List.pairwise_cons.2 ⟨fun a ha => ?_, ih hr.2⟩
        rcases key_mem_alterEntries ha with rfl | ⟨b, hb, he⟩
        · exact lt_of_not_lt_of_ne hn hne
        · exact he ▸ hr.1 b hb

def alter (m : SortedMap α) (k : String) (f : Option α → α) : SortedMap α :=
  ⟨alterEntries k f m.entries, sorted_alterEntries m.sorted⟩

def insert (m : SortedMap α) (k : String) (v : α) : SortedMap α := m.alter k fun _ => v

end SortedMap

end CallLineage
