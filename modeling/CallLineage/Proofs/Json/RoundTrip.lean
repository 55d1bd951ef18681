import CallLineage.Proofs.Json.Scalar
/-! Reading undoes writing.
Lists and records are read from the texts of their parts, and from them every answer of the server. No answer holds a
line break. -/
namespace CallLineage.Json

open Utf8 (Symbol)
open Reader

variable {α σ : Type}

/-! ## Lists -/

/-- Texts one after another, with commas between them and blanks in front of each. -/
def spread (gap : List Symbol) : List (List Symbol) → List Symbol
  | [] => []
  | t :: ts => gap ++ (t ++ ts.flatMap fun t => .char ',' :: (gap ++ t))

theorem symbolsOf_intercalate (ts : List String) :
    symbolsOf (String.intercalate "," ts) = spread [] (ts.map symbolsOf) := by
  induction ts with
  | nil => rfl
  | cons t ts ih =>
    cases ts with
    | nil => simp [spread]
    | cons u ts =>
      rw [String.intercalate_cons_cons, symbolsOf_append, symbolsOf_append, ih]
      simp [spread, symbolsOf]

/-- Behind an item stand blanks and a comma or the closing bracket. -/
theorem stops_spread {close : List Symbol} (hclose : Blank close) {c : Char} (hc : c = ']' ∨ c = '\x7d')
    (ts : List (List Symbol)) (gap rest : List Symbol) :
    Stops (ts.flatMap (fun t => .char ',' :: (gap ++ t)) ++ (close ++ .char c :: rest)) := by
  intro s hs
  cases ts with
  | cons t ts =>
    cases hs
    decide
  | nil =>
    cases close with
    | cons b close =>
      cases hs
      exact not_digit_of_isBlank (hclose _ List.mem_cons_self)
    | nil =>
      cases hs
      rcases hc with rfl | rfl
      all_goals decide

theorem nextItem_first {gap text : List Symbol} (hgap : Blank gap) (htext : Starts text) (rest : List Symbol) :
    nextItem true (gap ++ (text ++ rest)) = .ok (true, text ++ rest) := by
  obtain ⟨s, tail, rfl, hs, hend⟩ := htext
  rw [List.cons_append, nextItem, bind_of_ok (peek_blank hgap hs _)]
  dsimp only
  rw [if_neg (by simpa using hend), if_neg (by simp), if_pos rfl]
  rfl

theorem nextItem_next {gap text : List Symbol} (hgap : Blank gap) (htext : Starts text) (rest : List Symbol) :
    nextItem false (.char ',' :: (gap ++ (text ++ rest))) = .ok (true, text ++ rest) := by
  obtain ⟨s, tail, rfl, hs, hend⟩ := htext
  rw [nextItem, bind_of_ok (peek_cons (by decide) _)]
  dsimp only
  rw [if_neg (by decide), if_pos (by decide), bind_of_ok (drop_cons ..), List.cons_append,
    bind_of_ok (peek_blank hgap hs _)]
  dsimp only
  rw [if_neg (by simpa using hend)]
  rfl

theorem nextItem_end {close : List Symbol} (hclose : Blank close) (first : Bool) (rest : List Symbol) :
    nextItem first (close ++ .char ']' :: rest) = .ok (false, .char ']' :: rest) := by
  rw [nextItem, bind_of_ok (peek_blank hclose (by decide) rest)]
  rfl

theorem items_end {close : List Symbol} (hclose : Blank close) (item : Reader α) (n : Nat) (first : Bool)
    (rest : List Symbol) :
    items item (n + 1) first (close ++ .char ']' :: rest) = .ok ([], .char ']' :: rest) := by
  rw [items, bind_of_ok (nextItem_end hclose first rest)]
  rfl

/-- One item of a list, given that the reader has moved to it. -/
theorem items_step {item : Reader α} {n : Nat} {first : Bool} {input text mid rest : List Symbol} {a : α}
    {as : List α} (hnext : nextItem first input = .ok (true, text ++ mid)) (hitem : Reads item text a)
    (hmid : Stops mid) (htail : items item n false mid = .ok (as, rest)) :
    items item (n + 1) first input = .ok (a :: as, rest) := by
  rw [items, bind_of_ok hnext]
  change (item >>= _) (text ++ mid) = _
  rw [bind_of_ok (hitem.at_head hmid), bind_of_ok htail]
  rfl

theorem items_flatMap {gap close : List Symbol} (hgap : Blank gap) (hclose : Blank close) {item : Reader α}
    {write : α → List Symbol} {as : List α} (h : ∀ a ∈ as, Reads item (write a) a) {n : Nat}
    (hn : as.length < n) (rest : List Symbol) :
    items item n false
        ((as.map write).flatMap (fun t => .char ',' :: (gap ++ t)) ++ (close ++ .char ']' :: rest)) =
      .ok (as, .char ']' :: rest) := by
  induction as generalizing n with
  | nil =>
    obtain ⟨n, rfl⟩ := Nat.exists_eq_add_of_lt hn
    exact items_end hclose item _ false rest
  | cons a as ih =>
    obtain ⟨n, rfl⟩ := Nat.exists_eq_add_of_lt hn
    have ha := h a List.mem_cons_self
    rw [List.map_cons, List.flatMap_cons]
    simp only [List.cons_append, List.append_assoc]
    exact items_step (nextItem_next hgap ha.starts _) ha (stops_spread hclose (.inl rfl) (as.map write) gap rest)
      (ih (fun b hb => h b (List.mem_cons_of_mem _ hb)) (by simp; omega))

/-- The items of a list, from the first on. -/
theorem items_spread {gap close : List Symbol} (hgap : Blank gap) (hclose : Blank close) {item : Reader α}
    {write : α → List Symbol} {as : List α} (h : ∀ a ∈ as, Reads item (write a) a) {n : Nat}
    (hn : as.length < n) (rest : List Symbol) :
    items item n true (spread gap (as.map write) ++ (close ++ .char ']' :: rest)) =
      .ok (as, .char ']' :: rest) := by
  obtain ⟨n, rfl⟩ := Nat.exists_eq_add_of_lt hn
  cases as with
  | nil => exact items_end hclose item _ true rest
  | cons a as =>
    have ha := h a List.mem_cons_self
    rw [List.map_cons, spread, List.append_assoc, List.append_assoc]
    exact items_step (nextItem_first hgap ha.starts _) ha (stops_spread hclose (.inl rfl) (as.map write) gap rest)
      (items_flatMap hgap hclose (fun b hb => h b (List.mem_cons_of_mem _ hb)) (by simp; omega) rest)

theorem length_le_spread (gap : List Symbol) (ts : List (List Symbol)) :
    ts.length ≤ (spread gap ts).length + 1 := by
  have hcommas : ∀ ts : List (List Symbol),
      ts.length ≤ (ts.flatMap fun t => .char ',' :: (gap ++ t)).length := by
    intro ts
    induction ts with
    | nil => exact Nat.le_refl 0
    | cons t ts ih =>
      rw [List.flatMap_cons, List.length_append, List.length_cons, List.length_cons]
      omega
  cases ts with
  | nil => exact Nat.zero_le _
  | cons t ts =>
    have := hcommas ts
    rw [spread, List.length_append, List.length_append, List.length_cons]
    omega

theorem reads_spread_list {gap close : List Symbol} (hgap : Blank gap) (hclose : Blank close) {item : Reader α}
    {write : α → List Symbol} {as : List α} (h : ∀ a ∈ as, Reads item (write a) a) :
    Reads (Reader.list item) (.char '[' :: (spread gap (as.map write) ++ (close ++ [.char ']']))) as where
  starts := ⟨.char '[', _, rfl, by decide, by decide⟩
  ok {front rest} hfront _ := by
    have hlength := length_le_spread gap (as.map write)
    rw [List.length_map] at hlength
    rw [Reader.list, List.cons_append, bind_of_ok (peek_blank hfront (by decide) _), if_pos (by decide),
      bind_of_ok (drop_cons ..), bind_of_ok (rfl : fuel _ = _)]
    simp only [List.append_assoc, List.singleton_append]
    rw [bind_of_ok (items_spread hgap hclose h (by simp only [List.length_append]; omega) rest)]
    rfl

theorem reads_list {item : Reader α} {write : α → String} {as : List α}
    (h : ∀ a ∈ as, Reads item (symbolsOf (write a)) a) :
    Reads (Reader.list item) (symbolsOf (Json.list (as.map write))) as := by
  have hlist := reads_spread_list blank_nil blank_nil h
  rw [List.nil_append, ← Function.comp_def, ← List.map_map, ← symbolsOf_intercalate] at hlist
  rwa [Json.list, symbolsOf_append, symbolsOf_append]

/-! ## Objects -/

def memberText (space : List Symbol) (m : String × List Symbol) : List Symbol :=
  symbolsOf (quote m.1) ++ .char ':' :: (space ++ m.2)

/-- Members that lead from one state of what has been read to another. -/
inductive Fills (member : σ → String → Except Fault (Option (Reader σ))) :
    σ → List (String × List Symbol) → σ → Prop
  | nil (s : σ) : Fills member s [] s
  | cons {s s' s'' : σ} {key : String} {text : List Symbol} {ms : List (String × List Symbol)} {value : Reader σ}
      (hvalue : member s key = .ok (some value)) (hreads : Reads value text s') (hrest : Fills member s' ms s'') :
      Fills member s ((key, text) :: ms) s''

theorem nextKey_first {gap : List Symbol} (hgap : Blank gap) (key : String) (rest : List Symbol) :
    nextKey true (gap ++ (symbolsOf (quote key) ++ rest)) = .ok (some key, rest) := by
  have hkey := key_quote blank_nil key rest
  rw [List.nil_append] at hkey
  rw [symbolsOf_quote, List.cons_append] at hkey ⊢
  rw [nextKey, bind_of_ok (peek_blank hgap (by decide) _)]
  dsimp only
  rw [if_neg (by decide), if_neg (by decide), if_pos rfl, bind_of_ok hkey]
  rfl

theorem nextKey_next {gap : List Symbol} (hgap : Blank gap) (key : String) (rest : List Symbol) :
    nextKey false (.char ',' :: (gap ++ (symbolsOf (quote key) ++ rest))) = .ok (some key, rest) := by
  rw [nextKey, bind_of_ok (peek_cons (by decide) _)]
  dsimp only
  rw [if_neg (by decide), if_pos (by decide), bind_of_ok (drop_cons ..),
    bind_of_ok (key_quote hgap key rest)]
  rfl

theorem colon_cons (rest : List Symbol) : colon (.char ':' :: rest) = .ok ((), rest) := rfl

theorem members_end {close : List Symbol} (hclose : Blank close)
    (member : σ → String → Except Fault (Option (Reader σ))) (n : Nat) (first : Bool) (s : σ)
    (rest : List Symbol) :
    members member (n + 1) first s (close ++ .char '\x7d' :: rest) = .ok (s, rest) := by
  have hend : nextKey first (close ++ .char '\x7d' :: rest) = .ok (none, .char '\x7d' :: rest) := by
    rw [nextKey, bind_of_ok (peek_blank hclose (by decide) rest)]
    rfl
  rw [members, bind_of_ok hend]
  rfl

/-- One member of an object, given that its key has been read. -/
theorem members_step {member : σ → String → Except Fault (Option (Reader σ))} {n : Nat} {first : Bool}
    {s s' : σ} {key : String} {value : Reader σ} {input space text mid : List Symbol}
    (hkey : nextKey first input = .ok (some key, .char ':' :: (space ++ (text ++ mid)))) (hspace : Blank space)
    (hvalue : member s key = .ok (some value)) (hreads : Reads value text s') (hmid : Stops mid) :
    members member (n + 1) first s input = members member n false s' mid := by
  rw [members, bind_of_ok hkey]
  dsimp only
  rw [bind_of_ok (lift_eq_ok.mpr ⟨hvalue, rfl⟩)]
  dsimp only
  rw [bind_of_ok (colon_cons _), bind_of_ok (hreads.ok hspace hmid)]

theorem Fills.members_flatMap {member : σ → String → Except Fault (Option (Reader σ))}
    {ms : List (String × List Symbol)} {s s' : σ} (h : Fills member s ms s') {gap space close : List Symbol}
    (hgap : Blank gap) (hspace : Blank space) (hclose : Blank close) {n : Nat} (hn : ms.length < n)
    (rest : List Symbol) :
    members member n false s
        ((ms.map (memberText space)).flatMap (fun t => .char ',' :: (gap ++ t)) ++
          (close ++ .char '\x7d' :: rest)) =
      .ok (s', rest) := by
  induction h generalizing n with
  | nil s =>
    obtain ⟨n, rfl⟩ := Nat.exists_eq_add_of_lt hn
    exact members_end hclose member _ false s rest
  | @cons s s' s'' key text ms value hvalue hreads hrest ih =>
    obtain ⟨n, rfl⟩ := Nat.exists_eq_add_of_lt hn
    have hmid := stops_spread hclose (.inr rfl) (ms.map (memberText space)) gap rest
    rw [List.map_cons, List.flatMap_cons, memberText]
    simp only [List.cons_append, List.append_assoc]
    rw [members_step (nextKey_next hgap key _) hspace hvalue hreads hmid]
    exact ih (by simp; omega)


/-- The members of an object, from the first on. -/
theorem Fills.members_spread {member : σ → String → Except Fault (Option (Reader σ))}
    {ms : List (String × List Symbol)} {s s' : σ} (h : Fills member s ms s') {gap space close : List Symbol}
    (hgap : Blank gap) (hspace : Blank space) (hclose : Blank close) {n : Nat} (hn : ms.length < n)
    (rest : List Symbol) :
    members member n true s (spread gap (ms.map (memberText space)) ++ (close ++ .char '\x7d' :: rest)) =
      .ok (s', rest) := by
  obtain ⟨n, rfl⟩ := Nat.exists_eq_add_of_lt hn
  cases h with
  | nil => exact members_end hclose member _ true s rest
  | @cons _ s' _ key text ms value hvalue hreads hrest =>
    have hmid := stops_spread hclose (.inr rfl) (ms.map (memberText space)) gap rest
    rw [List.map_cons, spread, memberText]
    simp only [List.cons_append, List.append_assoc]
    rw [members_step (nextKey_first hgap key _) hspace hvalue hreads hmid]
    exact hrest.members_flatMap hgap hspace hclose (by simp; omega) rest

/-- The members of an object with as much fuel as its text gives, and what is read after them. -/
theorem Fills.members_fuel {member : σ → String → Except Fault (Option (Reader σ))}
    {ms : List (String × List Symbol)} {s s' : σ} (h : Fills member s ms s') {gap space close : List Symbol}
    (hgap : Blank gap) (hspace : Blank space) (hclose : Blank close) (rest : List Symbol) (k : σ → Reader α) :
    (fuel >>= fun n => members member n true s >>= k)
        (spread gap (ms.map (memberText space)) ++ (close ++ .char '\x7d' :: rest)) = k s' rest := by
  have hlength := length_le_spread gap (ms.map (memberText space))
  rw [List.length_map] at hlength
  rw [bind_of_ok (rfl : fuel _ = _),
    bind_of_ok (h.members_spread hgap hspace hclose (by simp only [List.length_append]; omega) rest)]

theorem reads_spread_record {start s : σ} {member : σ → String → Except Fault (Option (Reader σ))}
    {finish : σ → Option α} {fields : Reader α} {ms : List (String × List Symbol)} {a : α}
    (h : Fills member start ms s) (hfinish : finish s = some a) {gap space close : List Symbol}
    (hgap : Blank gap) (hspace : Blank space) (hclose : Blank close) :
    Reads (record start member finish fields)
      (.char '\x7b' :: (spread gap (ms.map (memberText space)) ++ (close ++ [.char '\x7d']))) a where
  starts := ⟨.char '\x7b', _, rfl, by decide, by decide⟩
  ok {front rest} hfront _ := by
    rw [record, List.cons_append, bind_of_ok (peek_blank hfront (by decide) _), if_neg (by decide),
      if_pos (by decide), bind_of_ok (drop_cons ..)]
    simp only [List.append_assoc, List.singleton_append]
    rw [h.members_fuel hgap hspace hclose rest, hfinish]
    rfl

theorem symbolsOf_object (ms : List (String × String)) :
    symbolsOf (object ms) =
      .char '\x7b' :: (spread [] ((ms.map fun m => (m.1, symbolsOf m.2)).map (memberText [])) ++ [.char '\x7d']) := by
  have hmember : ∀ m : String × String,
      symbolsOf (quote m.1 ++ ":" ++ m.2) = memberText [] (m.1, symbolsOf m.2) := by
    intro m
    rw [symbolsOf_append, symbolsOf_append, List.append_assoc]
    rfl
  rw [object, symbolsOf_append, symbolsOf_append, symbolsOf_intercalate, List.map_map, List.map_map]
  simp only [Function.comp_def, hmember]
  rfl

theorem reads_record {start s : σ} {member : σ → String → Except Fault (Option (Reader σ))}
    {finish : σ → Option α} {fields : Reader α} {ms : List (String × String)} {a : α}
    (h : Fills member start (ms.map fun m => (m.1, symbolsOf m.2)) s) (hfinish : finish s = some a) :
    Reads (record start member finish fields) (symbolsOf (object ms)) a := by
  rw [symbolsOf_object]
  exact reads_spread_record h hfinish blank_nil blank_nil blank_nil

/-- A text that holds one value, with blanks behind it. -/
theorem Reads.whole_blank {r : Reader α} {text gap : List Symbol} {a : α} (h : Reads r text a) (hgap : Blank gap) :
    Reader.whole r (text ++ gap) = .ok a := by
  have hstops : Stops gap := fun s hs => not_digit_of_isBlank (hgap s (List.mem_of_head? hs))
  have hpeek : peek gap = .ok (none, []) := by
    have hdrop : (gap ++ []).dropWhile isBlank = [] := List.dropWhile_append_of_pos hgap
    rw [List.append_nil] at hdrop
    rw [peek_eq_ok, hdrop]
    exact ⟨rfl, rfl⟩
  simp only [Reader.whole, h.at_head hstops, bind, Except.bind, hpeek]
  rfl

theorem Reads.whole {r : Reader α} {text : List Symbol} {a : α} (h : Reads r text a) :
    whole r text = .ok a := by
  simpa using h.whole_blank blank_nil

/-! ## Lines -/

def OneLine (s : String) : Prop := '\n' ∉ s.toList

instance (s : String) : Decidable (OneLine s) := inferInstanceAs (Decidable ('\n' ∉ s.toList))

theorem OneLine.append {s t : String} (hs : OneLine s) (ht : OneLine t) : OneLine (s ++ t) := by
  rw [OneLine, String.toList_append, List.mem_append]
  exact not_or.mpr ⟨hs, ht⟩

theorem oneLine_intercalate {ts : List String} (h : ∀ t ∈ ts, OneLine t) :
    OneLine (String.intercalate "," ts) := by
  induction ts with
  | nil => exact nofun
  | cons t ts ih =>
    have ht := h t List.mem_cons_self
    cases ts with
    | nil => rwa [String.intercalate_singleton]
    | cons u ts =>
      rw [String.intercalate_cons_cons]
      exact (ht.append (by decide)).append (ih fun v hv => h v (List.mem_cons_of_mem t hv))

theorem oneLine_escapeChar (c : Char) : OneLine (escapeChar c) := by
  obtain ⟨d, hd, -, hsimple⟩ | ⟨hd, hc⟩ | ⟨hd, -, -, hc⟩ := escapeChar_cases c
  all_goals rw [OneLine, hd]
  · intro h
    simp only [List.mem_cons, List.not_mem_nil, or_false] at h
    rcases h with h | rfl
    · exact absurd h (by decide)
    · exact absurd hsimple nofun
  · rw [toList_fourDigits _ hc]
    generalize c.toNat = n at hc
    revert n
    decide
  · rintro h
    rw [← List.mem_singleton.mp h] at hc
    exact hc (by decide)

theorem oneLine_quote (s : String) : OneLine (quote s) := by
  have hinner : OneLine (String.join (s.toList.map escapeChar)) := by
    rw [OneLine, String.toList_join, List.mem_flatMap]
    rintro ⟨t, ht, h⟩
    obtain ⟨c, -, rfl⟩ := List.mem_map.mp ht
    exact oneLine_escapeChar c h
  exact ((by decide : OneLine "\"").append hinner).append (by decide)

theorem oneLine_object {ms : List (String × String)} (h : ∀ m ∈ ms, OneLine m.2) : OneLine (object ms) := by
  have hmembers : OneLine (String.intercalate "," (ms.map fun m => quote m.1 ++ ":" ++ m.2)) := by
    refine oneLine_intercalate fun t ht => ?_
    obtain ⟨m, hm, rfl⟩ := List.mem_map.mp ht
    exact ((oneLine_quote m.1).append (by decide)).append (h m hm)
  exact ((by decide : OneLine "\x7b").append hmembers).append (by decide)

theorem oneLine_list {ts : List String} (h : ∀ t ∈ ts, OneLine t) : OneLine (Json.list ts) :=
  ((by decide : OneLine "[").append (oneLine_intercalate h)).append (by decide)

theorem oneLine_toString (n : Nat) : OneLine (toString n) := by
  intro h
  have := isDigit_of_mem (List.mem_map_of_mem (f := Symbol.char) h)
  exact absurd this (by decide)

end CallLineage.Json

namespace CallLineage

open Json Json.Reader

/-! ## Requests -/

theorem Request.reads_toJson (r : Request) : Reads Request.reader (symbolsOf r.toJson) r := by
  obtain ⟨kind, fileName⟩ := r
  cases fileName with
  | none => exact reads_record (.cons rfl ((reads_string kind).map _) (.nil _)) rfl
  | some name =>
    exact reads_record (.cons rfl ((reads_string kind).map _)
      (.cons rfl ((reads_optionalString name).map _) (.nil _))) rfl

/-! ## Answers -/

theorem Link.reads_toJson (l : Link) : Reads Link.reader (symbolsOf l.toJson) l := by
  refine reads_record (.cons rfl ((reads_string l.fileName).map _)
    (.cons rfl ((reads_natural l.line.isLt).map _) (.nil _))) ?_
  have hline : Link.lineOf l.line.val = l.line := Fin.ext (Nat.mod_eq_of_lt l.line.isLt)
  change some (⟨l.fileName, Link.lineOf l.line.val⟩ : Link) = some l
  rw [hline]

theorem Link.oneLine_toJson (l : Link) : OneLine l.toJson :=
  oneLine_object (List.forall_mem_cons.mpr ⟨oneLine_quote _, List.forall_mem_singleton.mpr (oneLine_toString _)⟩)

theorem CallerLink.reads_toJson (c : CallerLink) : Reads CallerLink.reader (symbolsOf c.toJson) c :=
  reads_record (.cons rfl ((reads_string c.lineage).map _) (.cons rfl (c.link.reads_toJson.map _) (.nil _))) rfl

theorem CallerLink.oneLine_toJson (c : CallerLink) : OneLine c.toJson :=
  oneLine_object (by simp [oneLine_quote, Link.oneLine_toJson])

theorem FunctionAnalysis.reads_toJson (f : FunctionAnalysis) :
    Reads FunctionAnalysis.reader (symbolsOf f.toJson) f :=
  reads_record (.cons rfl ((reads_string f.funcName).map _) (.cons rfl ((reads_string f.structName).map _)
    (.cons rfl ((reads_list fun c _ => CallerLink.reads_toJson c).map _) (.nil _)))) rfl

theorem FunctionAnalysis.oneLine_toJson (f : FunctionAnalysis) : OneLine f.toJson := by
  have hlineages : OneLine (Json.list (f.lineages.map CallerLink.toJson)) :=
    oneLine_list (by simp [CallerLink.oneLine_toJson])
  exact oneLine_object (by simp [oneLine_quote, hlineages])

theorem CodeAnalysis.reads_toJson (c : CodeAnalysis) : Reads CodeAnalysis.reader (symbolsOf c.toJson) c :=
  reads_record (.cons rfl ((reads_list fun f _ => FunctionAnalysis.reads_toJson f).map _) (.nil _)) rfl

theorem CodeAnalysis.oneLine_toJson (c : CodeAnalysis) : OneLine c.toJson := by
  have hfunctions : OneLine (Json.list (c.functions.map FunctionAnalysis.toJson)) :=
    oneLine_list (by simp [FunctionAnalysis.oneLine_toJson])
  exact oneLine_object (by simp [hfunctions])

end CallLineage
