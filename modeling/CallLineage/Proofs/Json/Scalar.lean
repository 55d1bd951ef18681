import Mathlib.Tactic.SplitIfs
import CallLineage.Proofs.Json.Locality
/-! Reading strings and numbers that have been written.
`Reads r text a` says that a reader takes `a` from a written text, whatever blanks stand in front of it and whatever
stands behind it that cannot continue a number. -/
namespace CallLineage.Json

open Utf8 (Symbol)
open Reader

variable {α β σ : Type}

@[simp] theorem symbolsOf_append (s t : String) : symbolsOf (s ++ t) = symbolsOf s ++ symbolsOf t := by
  simp [symbolsOf]

def Blank (gap : List Symbol) : Prop := ∀ s ∈ gap, isBlank s = true

instance (gap : List Symbol) : Decidable (Blank gap) := inferInstanceAs (Decidable (∀ s ∈ gap, isBlank s = true))

def Stops (text : List Symbol) : Prop :=
  ∀ s, text.head? = some s → isDigit s = false ∧ isChar ['.', 'e', 'E'] (some s) = false

def Starts (text : List Symbol) : Prop :=
  ∃ s rest, text = s :: rest ∧ isBlank s = false ∧ s ≠ .char ']'

/-- A reader takes a value from a written text, with blanks in front. -/
structure Reads (r : Reader α) (text : List Symbol) (a : α) : Prop where
  starts : Starts text
  ok : ∀ {gap rest}, Blank gap → Stops rest → r (gap ++ (text ++ rest)) = .ok (a, rest)

theorem blank_nil : Blank [] := nofun

theorem Blank.append {gap gap' : List Symbol} (h : Blank gap) (h' : Blank gap') : Blank (gap ++ gap') :=
  List.forall_mem_append.2 ⟨h, h'⟩

theorem isBlank_cases {s : Symbol} (h : isBlank s = true) :
    s = .char ' ' ∨ s = .char '\t' ∨ s = .char '\n' ∨ s = .char '\r' := by
  simpa [isBlank, or_assoc] using h

theorem not_digit_of_isBlank {s : Symbol} (h : isBlank s = true) :
    isDigit s = false ∧ isChar ['.', 'e', 'E'] (some s) = false := by
  rcases isBlank_cases h with rfl | rfl | rfl | rfl
  all_goals decide

theorem peek_blank {gap : List Symbol} {s : Symbol} (hgap : Blank gap) (hs : isBlank s = false)
    (rest : List Symbol) : peek (gap ++ s :: rest) = .ok (some s, s :: rest) := by
  rw [peek_eq_ok, List.dropWhile_append_of_pos hgap, List.dropWhile_cons_of_neg (by simp [hs])]
  exact ⟨rfl, rfl⟩

theorem peek_cons {s : Symbol} (hs : isBlank s = false) (rest : List Symbol) :
    peek (s :: rest) = .ok (some s, s :: rest) :=
  peek_blank blank_nil hs rest

theorem drop_cons (s : Symbol) (rest : List Symbol) : drop (s :: rest) = .ok ((), rest) := rfl

theorem Reads.at_head {r : Reader α} {text rest : List Symbol} {a : α} (h : Reads r text a) (hrest : Stops rest) :
    r (text ++ rest) = .ok (a, rest) :=
  h.ok blank_nil hrest

theorem bind_of_ok {r : Reader α} {f : α → Reader β} {text mid : List Symbol} {a : α}
    (h : r text = .ok (a, mid)) : (r >>= f) text = f a mid := by
  change (r text >>= fun p => f p.1 p.2) = _
  rw [h]
  rfl

theorem Reads.map {r : Reader α} {text : List Symbol} {a : α} (h : Reads r text a) (f : α → β) :
    Reads (do return f (← r)) text (f a) where
  starts := h.starts
  ok hgap hrest := by
    rw [bind_of_ok (h.ok hgap hrest)]
    rfl

/-! ## Strings -/

theorem hexValue?_digitChar : ∀ n < 16, hexValue? (Nat.digitChar n) = some n := by decide

theorem toList_fourDigits : ∀ n < 0x20,
    (fourDigits n).toList = ['0', '0', Nat.digitChar (n / 16), Nat.digitChar (n % 16)] := by decide

theorem hexFour_fourDigits {n : Nat} (h : n < 0x20) (rest : List Symbol) :
    hexFour (symbolsOf (fourDigits n) ++ rest) = .ok (n, rest) := by
  have h0 : hexValue? '0' = some 0 := rfl
  have h1 : hexValue? (Nat.digitChar (n / 16)) = some (n / 16) := hexValue?_digitChar _ (by omega)
  have h2 : hexValue? (Nat.digitChar (n % 16)) = some (n % 16) := hexValue?_digitChar _ (by omega)
  simp [symbolsOf, toList_fourDigits n h, hexFour, Symbol.char?, h0, h1, h2]
  omega

theorem stringTail_escape {acc : List Char} {n : Nat} {c : Char} {text rest : List Symbol}
    (h : escape text = .ok (c, rest)) :
    stringTail true acc (n + 1) (.char '\\' :: text) = stringTail true (c :: acc) n rest := by
  change (escape >>= fun d => stringTail true (d :: acc) n) text = _
  exact bind_of_ok h

theorem stringTail_plain {acc : List Char} {n : Nat} {c : Char} {text : List Symbol} (hq : c ≠ '"')
    (hb : c ≠ '\\') (hc : ¬ c.toNat < 0x20) :
    stringTail true acc (n + 1) (.char c :: text) = stringTail true (c :: acc) n text := by
  change (if c == '"' then _ else if c == '\\' then _ else if c.toNat < 0x20 then _ else
    stringTail true (c :: acc) n : Reader String) text = _
  rw [if_neg (by simpa using hq), if_neg (by simpa using hb), if_neg hc]

theorem escape_simple {c d : Char} (hu : d ≠ 'u') (h : simpleEscape? d = some c) (text : List Symbol) :
    escape (.char d :: text) = .ok (c, text) := by
  change (if d == 'u' then numberedEscape else _ : Reader Char) text = _
  rw [if_neg (by simpa using hu), h]
  rfl

theorem numberedEscape_fourDigits {c : Char} (h : c.toNat < 0x20) (text : List Symbol) :
    numberedEscape (symbolsOf (fourDigits c.toNat) ++ text) = .ok (c, text) := by
  have hlow : ¬ (decide (0xdc00 ≤ c.toNat) && decide (c.toNat ≤ 0xdfff)) = true := by simp; omega
  have hhigh : ¬ (decide (0xd800 ≤ c.toNat) && decide (c.toNat ≤ 0xdbff)) = true := by simp; omega
  rw [numberedEscape, bind_of_ok (hexFour_fourDigits h text), if_neg hlow, if_neg hhigh,
    Char.ofNat_toNat]
  rfl

theorem escape_u (text : List Symbol) : escape (.char 'u' :: text) = numberedEscape text := rfl

/-- The three written forms of a character. -/
theorem escapeChar_cases (c : Char) :
    (∃ d, (escapeChar c).toList = ['\\', d] ∧ d ≠ 'u' ∧ simpleEscape? d = some c) ∨
    ((escapeChar c).toList = '\\' :: 'u' :: (fourDigits c.toNat).toList ∧ c.toNat < 0x20) ∨
    ((escapeChar c).toList = [c] ∧ c ≠ '"' ∧ c ≠ '\\' ∧ ¬ c.toNat < 0x20) := by
  simp only [escapeChar, beq_iff_eq]
  split_ifs with hquote hbackslash hb ht hn hf hr hcontrol
  · exact .inl ⟨'"', rfl, by decide, by rw [hquote]; rfl⟩
  · exact .inl ⟨'\\', rfl, by decide, by rw [hbackslash]; rfl⟩
  · exact .inl ⟨'b', rfl, by decide, by rw [hb]; rfl⟩
  · exact .inl ⟨'t', rfl, by decide, by rw [ht]; rfl⟩
  · exact .inl ⟨'n', rfl, by decide, by rw [hn]; rfl⟩
  · exact .inl ⟨'f', rfl, by decide, by rw [hf]; rfl⟩
  · exact .inl ⟨'r', rfl, by decide, by rw [hr]; rfl⟩
  · exact .inr (.inl ⟨by rw [String.toList_append]; rfl, hcontrol⟩)
  · exact .inr (.inr ⟨by simp, hquote, hbackslash, hcontrol⟩)

theorem stringTail_escapeChar (acc : List Char) (n : Nat) (c : Char) (text : List Symbol) :
    stringTail true acc (n + 1) (symbolsOf (escapeChar c) ++ text) = stringTail true (c :: acc) n text := by
  obtain ⟨d, hd, hu, hsimple⟩ | ⟨hd, hc⟩ | ⟨hd, hq, hb, hc⟩ := escapeChar_cases c
  all_goals rw [symbolsOf, hd]
  · exact stringTail_escape (escape_simple hu hsimple text)
  · rw [List.map_cons, List.map_cons, List.cons_append, List.cons_append, ← symbolsOf]
    apply stringTail_escape
    rw [escape_u, numberedEscape_fourDigits hc]
  · exact stringTail_plain hq hb hc

theorem stringTail_quoted (cs : List Char) (acc : List Char) {n : Nat} (h : cs.length < n) (rest : List Symbol) :
    stringTail true acc n (cs.flatMap (fun c => symbolsOf (escapeChar c)) ++ .char '"' :: rest) =
      .ok (String.ofList (acc.reverse ++ cs), rest) := by
  induction cs generalizing acc n with
  | nil =>
    obtain ⟨n, rfl⟩ := Nat.exists_eq_add_of_lt h
    rw [List.append_nil]
    rfl
  | cons c cs ih =>
    obtain ⟨n, rfl⟩ := Nat.exists_eq_add_of_lt h
    rw [List.flatMap_cons, List.append_assoc, stringTail_escapeChar]
    rw [ih (c :: acc) (by simp; omega), List.reverse_cons, List.append_assoc]
    rfl

theorem symbolsOf_quote (s : String) :
    symbolsOf (quote s) =
      .char '"' :: (s.toList.flatMap (fun c => symbolsOf (escapeChar c)) ++ [.char '"']) := by
  simp [quote, symbolsOf, List.flatMap_map, List.map_flatMap]

theorem length_le_escaped (cs : List Char) :
    cs.length ≤ (cs.flatMap fun c => symbolsOf (escapeChar c)).length := by
  induction cs with
  | nil => exact Nat.le_refl 0
  | cons c cs ih =>
    have hc : 0 < (escapeChar c).toList.length := by
      obtain ⟨d, hd, -⟩ | ⟨hd, -⟩ | ⟨hd, -⟩ := escapeChar_cases c
      all_goals
        rw [hd]
        exact Nat.zero_lt_succ _
    rw [List.flatMap_cons, List.length_append, symbolsOf, List.length_map, List.length_cons]
    omega

/-- Reading a string after its opening quote. -/
theorem stringTail_quote (s : String) (rest : List Symbol) :
    (fuel >>= stringTail true []) ((symbolsOf (quote s)).tail ++ rest) = .ok (s, rest) := by
  have hfuel := length_le_escaped s.toList
  rw [symbolsOf_quote, List.tail_cons, List.append_assoc, List.singleton_append]
  rw [bind_of_ok (rfl : fuel _ = _), stringTail_quoted]
  · rw [List.reverse_nil, List.nil_append, String.ofList_toList]
  · rw [List.length_append]
    omega

theorem reads_string (s : String) : Reads string (symbolsOf (quote s)) s where
  starts := ⟨.char '"', _, symbolsOf_quote s, by decide, by decide⟩
  ok {gap rest} hgap _ := by
    have htail := stringTail_quote s rest
    rw [symbolsOf_quote] at htail ⊢
    rw [string, List.cons_append, bind_of_ok (peek_blank hgap (by decide) _)]
    exact htail

theorem reads_optionalString (s : String) : Reads optionalString (symbolsOf (quote s)) (some s) where
  starts := (reads_string s).starts
  ok {gap rest} hgap hrest := by
    have hstring := (reads_string s).at_head hrest
    rw [symbolsOf_quote, List.cons_append] at hstring ⊢
    rw [optionalString, bind_of_ok (peek_blank hgap (by decide) _), if_neg (by decide), bind_of_ok hstring]
    rfl

theorem key_quote {gap : List Symbol} (hgap : Blank gap) (s : String) (rest : List Symbol) :
    key (gap ++ (symbolsOf (quote s) ++ rest)) = .ok (s, rest) := by
  have htail := stringTail_quote s rest
  rw [symbolsOf_quote] at htail ⊢
  rw [key, List.cons_append, bind_of_ok (peek_blank hgap (by decide) _)]
  exact htail

/-! ## Numbers -/

theorem value_toDigits (n : Nat) : Decimal.value (Nat.toDigits 10 n) = n := by
  have h := Nat.ofDigitChars_ten_toDigits (n := n)
  rw [Nat.ofDigitChars_eq_foldl] at h
  simpa only [Decimal.value, Nat.mul_comm] using h

/-- No number is written with a zero in front. -/
theorem toDigits_ne_zero_cons (n : Nat) (d : Char) (ds : List Char) : Nat.toDigits 10 n ≠ '0' :: d :: ds := by
  induction n using Nat.strongRecOn generalizing d ds with
  | ind n ih =>
    rw [Nat.toDigits_eq_if (by decide)]
    split
    · exact fun h => List.cons_ne_nil d ds (List.cons.inj h).2.symm
    · rename_i hn
      intro h
      -- The digits but the last are those of a tenth of the number, which is not zero.
      cases hfront : Nat.toDigits 10 (n / 10) with
      | nil => exact Nat.toDigits_ne_nil hfront
      | cons x front =>
        rw [hfront] at h
        cases front with
        | nil =>
          have hzero : n / 10 = Decimal.value ['0'] := by
            rw [← value_toDigits (n / 10), hfront, (List.cons.inj h).1]
          have : Decimal.value ['0'] = 0 := rfl
          omega
        | cons y front =>
          rw [(List.cons.inj h).1] at hfront
          exact ih (n / 10) (by omega) y front hfront

theorem isHuge_eq_false {ds : List Char} (h : Decimal.value ds < UInt64.size) : Decimal.isHuge ds 0 = false := by
  have hbound : UInt64.size ≤ Decimal.bound := by decide +kernel
  simp only [Decimal.isHuge]
  split
  · rfl
  · rw [if_neg (by decide), if_pos (Int.le_refl 0)]
    have hone : Nat.pow 10 (Int.toNat 0) = 1 := rfl
    rw [hone, Nat.mul_one, decide_eq_false_iff_not]
    omega

theorem symbolsOf_toString (n : Nat) : symbolsOf (toString n) = (Nat.toDigits 10 n).map .char := by
  change (Nat.repr n).toList.map Symbol.char = _
  rw [Nat.toList_repr]

theorem isDigit_of_mem {n : Nat} {s : Symbol} (h : s ∈ symbolsOf (toString n)) : isDigit s = true := by
  rw [symbolsOf_toString] at h
  obtain ⟨c, hc, rfl⟩ := List.mem_map.mp h
  exact Nat.isDigit_of_mem_toDigits (by decide) (by decide) hc

theorem exists_digit (n : Nat) : ∃ s rest, symbolsOf (toString n) = s :: rest ∧ isDigit s = true := by
  cases h : symbolsOf (toString n) with
  | nil =>
    rw [symbolsOf_toString] at h
    exact absurd (List.map_eq_nil_iff.mp h) Nat.toDigits_ne_nil
  | cons s rest => exact ⟨s, rest, rfl, isDigit_of_mem (by rw [h]; exact List.mem_cons_self)⟩

theorem someDigits_toString (ending : Fault) (n : Nat) {rest : List Symbol} (h : Stops rest) :
    someDigits ending (symbolsOf (toString n) ++ rest) = .ok (Nat.toDigits 10 n, rest) := by
  have hrest : rest.takeWhile isDigit = [] ∧ rest.dropWhile isDigit = rest := by
    cases rest with
    | nil => exact ⟨rfl, rfl⟩
    | cons s rest => simp [(h s rfl).1]
  have hchars : (symbolsOf (toString n)).filterMap Symbol.char? = Nat.toDigits 10 n := by
    rw [symbolsOf_toString, List.filterMap_map]
    exact List.filterMap_some
  have hdigits : digits (symbolsOf (toString n) ++ rest) = .ok (Nat.toDigits 10 n, rest) := by
    rw [digits, List.takeWhile_append_of_pos fun _ => isDigit_of_mem,
      List.dropWhile_append_of_pos fun _ => isDigit_of_mem, hrest.1, hrest.2, List.append_nil, hchars]
  rw [someDigits, bind_of_ok hdigits, if_neg (by simp [Nat.toDigits_ne_nil])]
  rfl

/-- A number is over where nothing can continue it. -/
theorem numberTail_stops {rest : List Symbol} (h : Stops rest) (ending : Fault) (ds : List Char) :
    numberTail ending false ds rest = .ok (⟨false, ds, 0, none⟩, rest) := by
  have hpoint : isChar ['.'] rest.head? = false ∧ isChar ['e', 'E'] rest.head? = false := by
    rcases rest with _ | ⟨c | b, rest⟩
    · exact ⟨rfl, rfl⟩
    · have := (h _ rfl).2
      simp_all [isChar]
    · exact ⟨rfl, rfl⟩
  have hfraction : fraction ending rest = .ok (none, rest) := by
    rw [fraction, bind_of_ok (rfl : here rest = _), hpoint.1]
    rfl
  have hexponent : exponent ending rest = .ok (none, rest) := by
    rw [exponent, bind_of_ok (rfl : here rest = _), hpoint.2]
    rfl
  rw [numberTail, bind_of_ok hfraction, bind_of_ok hexponent, Option.getD_none, List.append_nil]
  rfl

theorem not_minus_of_isDigit {s : Symbol} (h : isDigit s = true) : isChar ['-'] (some s) = false := by
  cases s with
  | stray b => rfl
  | char c =>
    have hc : c ≠ '-' := by
      rintro rfl
      exact absurd h (by decide)
    simpa [isChar] using hc

theorem not_blank_of_isDigit {s : Symbol} (h : isDigit s = true) : isBlank s = false := by
  rw [Bool.eq_false_iff]
  intro hs
  rw [(not_digit_of_isBlank hs).1] at h
  cases h

theorem number_toString (ending : Fault) (n : Nat) {rest : List Symbol} (h : Stops rest) :
    number ending (symbolsOf (toString n) ++ rest) = .ok (⟨false, Nat.toDigits 10 n, 0, none⟩, rest) := by
  have hminus : isChar ['-'] (symbolsOf (toString n) ++ rest).head? = false := by
    obtain ⟨s, ds, hs, hdigit⟩ := exists_digit n
    rw [hs]
    exact not_minus_of_isDigit hdigit
  rw [number, bind_of_ok (rfl : here _ = _), hminus]
  change (someDigits ending >>= _) _ = _
  rw [bind_of_ok (someDigits_toString ending n h)]
  refine (congrFun ?_ rest).trans (numberTail_stops h ending _)
  split
  · rename_i hzero
    exact absurd hzero (toDigits_ne_zero_cons n _ _)
  · rfl

theorem reads_natural {n : Nat} (h : n < UInt64.size) : Reads natural (symbolsOf (toString n)) n := by
  obtain ⟨s, ds, hs, hdigit⟩ := exists_digit n
  constructor
  · refine ⟨s, ds, hs, not_blank_of_isDigit hdigit, ?_⟩
    rintro rfl
    exact absurd hdigit (by decide)
  · intro gap rest hgap hrest
    have hnumber := number_toString .ended n hrest
    have hvalue := value_toDigits n
    have hhuge : Number.isHuge ⟨false, Nat.toDigits 10 n, 0, none⟩ = false :=
      isHuge_eq_false (by rwa [hvalue])
    have hnat : Number.toNat? ⟨false, Nat.toDigits 10 n, 0, none⟩ = some n := by
      change (if Decimal.value (Nat.toDigits 10 n) < UInt64.size then some (Decimal.value (Nat.toDigits 10 n)) else none) = _
      rw [hvalue, if_pos h]
    rw [hs] at hnumber ⊢
    rw [natural, List.cons_append, bind_of_ok (peek_blank hgap (not_blank_of_isDigit hdigit) _)]
    dsimp only
    rw [if_pos (by simp [hdigit]), ← List.cons_append, bind_of_ok hnumber, hhuge, hnat]
    rfl

end CallLineage.Json
