import CallLineage.SortedMap
/-! What a sorted map holds after an update, and that its look-ups determine it. -/
namespace CallLineage.SortedMap

variable {α : Type}

theorem lookup_eq_none_of_lt {k : String} {l : List (String × α)} (h : ∀ e ∈ l, k < e.1) :
    l.lookup k = none := by
  rw [List.lookup_eq_none_iff]
  intro e he
  have hlt := h e he
  simp only [bne_iff_ne, ne_eq]
  rintro rfl
  exact String.lt_irrefl _ hlt

theorem lookup_alterEntries_self {k : String} {f : Option α → α} {l : List (String × α)}
    (h : l.Pairwise fun a b => a.1 < b.1) :
    (alterEntries k f l).lookup k = some (f (l.lookup k)) := by
  induction l with
  | nil => simp [alterEntries]
  | cons e rest ih =>
    obtain ⟨k', v⟩ := e
    have hr := List.pairwise_cons.1 h
    rw [alterEntries]
    split
    · rename_i hk
      have hn : ((k', v) :: rest).lookup k = none := by
        apply lookup_eq_none_of_lt
        intro e he
        rcases List.mem_cons.1 he with rfl | he
        · exact hk
        · exact String.lt_trans hk (hr.1 e he)
      rw [hn]
      simp
    · split
      · rename_i hk
        subst hk
        simp
      · rename_i hne
        have hb : (k == k') = false := by simpa using hne
        simp [List.lookup_cons, hb, ih hr.2]

theorem lookup_alterEntries_ne {k k' : String} {f : Option α → α} {l : List (String × α)}
    (h : k' ≠ k) : (alterEntries k f l).lookup k' = l.lookup k' := by
  have hb : (k' == k) = false := by simpa using h
  induction l with
  | nil => simp [alterEntries, List.lookup_cons, hb]
  | cons e rest ih =>
    obtain ⟨k₀, v⟩ := e
    rw [alterEntries]
    split
    · simp [List.lookup_cons, hb]
    · split
      · rename_i hk
        subst hk
        simp [List.lookup_cons, hb]
      · simp [List.lookup_cons, ih]

@[simp] theorem get?_empty (k : String) : (empty : SortedMap α).get? k = none := rfl

@[simp] theorem get?_alter (m : SortedMap α) (k k' : String) (f : Option α → α) :
    (m.alter k f).get? k' = if k' = k then some (f (m.get? k)) else m.get? k' := by
  by_cases h : k' = k
  · subst h
    simpa [get?, alter] using lookup_alterEntries_self m.sorted
  · simpa [get?, alter, h] using lookup_alterEntries_ne h

@[simp] theorem get?_insert (m : SortedMap α) (k k' : String) (v : α) :
    (m.insert k v).get? k' = if k' = k then some v else m.get? k' := by
  simp [insert]

theorem mem_entries_iff (m : SortedMap α) (k : String) (v : α) :
    (k, v) ∈ m.entries ↔ m.get? k = some v := by
  have hs := m.sorted
  rw [get?]
  generalize m.entries = l at hs
  induction l with
  | nil => simp
  | cons e rest ih =>
    obtain ⟨k', v'⟩ := e
    have hr := List.pairwise_cons.1 hs
    by_cases hk : k = k'
    · subst hk
      have hn : (k, v) ∉ rest := fun hm => String.lt_irrefl k (hr.1 (k, v) hm)
      simp [hn, eq_comm]
    · have hb : (k == k') = false := by simpa using hk
      simp [List.lookup_cons, hb, hk, ih hr.2]

theorem mem_keys_iff (m : SortedMap α) (k : String) : k ∈ m.keys ↔ m.contains k = true := by
  simp only [keys, List.mem_map, contains, Option.isSome_iff_exists]
  constructor
  · rintro ⟨⟨k', v⟩, he, rfl⟩
    exact ⟨v, (m.mem_entries_iff _ _).1 he⟩
  · rintro ⟨v, hv⟩
    exact ⟨(k, v), (m.mem_entries_iff _ _).2 hv, rfl⟩

theorem keys_sorted (m : SortedMap α) : m.keys.Pairwise (· < ·) := by
  simpa [keys, List.pairwise_map] using m.sorted

/-- Maps whose look-ups agree up to a change of the values have entries that agree up to it. -/
theorem map_entries_eq {β γ : Type} {m : SortedMap α} {m' : SortedMap β} (f : α → γ) (f' : β → γ)
    (h : ∀ k, (m.get? k).map f = (m'.get? k).map f') :
    (m.entries.map fun e => (e.1, f e.2)) = m'.entries.map fun e => (e.1, f' e.2) := by
  have hmem : ∀ {δ : Type} (n : SortedMap δ) (v : δ → γ) (e : String × γ),
      e ∈ n.entries.map (fun e => (e.1, v e.2)) ↔ (n.get? e.1).map v = some e.2 := by
    intro δ n v e
    simp only [List.mem_map, Option.map_eq_some_iff, Prod.exists, mem_entries_iff]
    constructor
    · rintro ⟨k, w, hk, rfl⟩
      exact ⟨w, hk, rfl⟩
    · rintro ⟨w, hk, hw⟩
      exact ⟨e.1, w, hk, by rw [hw]⟩
  have hsorted : ∀ {δ : Type} (n : SortedMap δ) (v : δ → γ),
      (n.entries.map fun e => (e.1, v e.2)).Pairwise fun a b => a.1 < b.1 :=
    fun n v => List.pairwise_map.2 n.sorted
  have hnodup : ∀ {l : List (String × γ)}, l.Pairwise (fun a b => a.1 < b.1) → l.Nodup := by
    intro l hl
    refine hl.imp ?_
    rintro a _ hab rfl
    exact String.lt_irrefl _ hab
  refine List.Perm.eq_of_pairwise ?_ (hsorted m f) (hsorted m' f') ?_
  · intro a b _ _ hab hba
    exact absurd (String.lt_trans hab hba) (String.lt_irrefl _)
  · rw [List.perm_ext_iff_of_nodup (hnodup (hsorted m f)) (hnodup (hsorted m' f'))]
    intro e
    rw [hmem, hmem, h]

theorem ext_get? {m m' : SortedMap α} (h : ∀ k, m.get? k = m'.get? k) : m = m' :=
  ext (by simpa using map_entries_eq id id (fun k => by rw [h k]))

/-- Maps that hold the same keys have them in the same order. -/
theorem keys_congr {β : Type} {m : SortedMap α} {m' : SortedMap β} (h : ∀ k, m.contains k = m'.contains k) :
    m.keys = m'.keys := by
  have hunit : ∀ k, (m.get? k).map (fun _ => ()) = (m'.get? k).map fun _ => () := by
    intro k
    have hk := h k
    rw [contains, contains] at hk
    cases hm : m.get? k <;> cases hm' : m'.get? k <;> simp_all
  have hkeys := congrArg (List.map Prod.fst) (map_entries_eq (fun _ => ()) (fun _ => ()) hunit)
  rw [List.map_map, List.map_map] at hkeys
  exact hkeys

end CallLineage.SortedMap
