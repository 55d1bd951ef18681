import CallLineage.Utf8
/-! Characters and their bytes.
A text of bytes is read as characters wherever the bytes of one stand, so reading undoes writing, nothing is lost, and
a text may be cut behind any byte that stands for itself. Bytes have the order of the characters they stand for. -/
namespace CallLineage.Utf8

open String (utf8EncodeChar)

/-! ## Writing -/

theorem encode_eq (s : String) : encode s = s.toList.flatMap utf8EncodeChar := by
  rw [encode, String.toUTF8_eq_toByteArray, ← String.utf8Encode_toList,
    List.utf8Encode, List.toList_data_toByteArray]

theorem encode_toString (c : Char) : encode c.toString = utf8EncodeChar c := by
  simp [encode_eq]

theorem utf8EncodeChar_ascii {c : Char} (h : c.toNat < 0x80) :
    utf8EncodeChar c = [UInt8.ofNat c.toNat] := by
  have h' : c.val.toNat ≤ 0x7f := Nat.le_of_lt_succ h
  simp only [utf8EncodeChar, h', if_true]
  rfl

/-- A byte below 0x80 in the bytes of a character is the character itself. -/
theorem toNat_of_mem_utf8EncodeChar {c : Char} {b : UInt8} (hb : b ∈ utf8EncodeChar c)
    (h : b.toNat < 0x80) : c.toNat = b.toNat := by
  have hc : c.toNat = c.val.toNat := rfl
  simp only [utf8EncodeChar] at hb
  split at hb
  · simp only [List.mem_singleton] at hb
    subst hb
    rw [hc, UInt8.toNat_ofNat']
    omega
  · exfalso
    repeat' split at hb
    all_goals
      simp only [List.mem_cons, List.not_mem_nil, or_false] at hb
      rcases hb with rfl | rfl | rfl | rfl
      all_goals
        rw [UInt8.toNat_ofNat'] at h
        omega

theorem mem_encode_ascii {s : String} {b : UInt8} (hb : b ∈ encode s) (h : b.toNat < 0x80) :
    Char.ofNat b.toNat ∈ s.toList := by
  rw [encode_eq, List.mem_flatMap] at hb
  obtain ⟨c, hc, hb⟩ := hb
  rw [← toNat_of_mem_utf8EncodeChar hb h, Char.ofNat_toNat]
  exact hc

/-! ## Order -/

/-- The bytes of a smaller character come first, whatever follows: its bytes are fewer and the first is smaller, or they
are as many and the first that differs is smaller. -/
theorem utf8EncodeChar_append_lt {c d : Char} (h : c < d) (r s : Bytes) :
    utf8EncodeChar c ++ r < utf8EncodeChar d ++ s := by
  have hlt : c.val.toNat < d.val.toNat := UInt32.lt_iff_toNat_lt.1 (Char.lt_def.1 h)
  have hc := c.valid
  have hd := d.valid
  simp only [UInt32.isValidChar, Nat.isValidChar] at hc hd
  have hdigits : ∀ v, v / 4096 = v / 64 / 64 ∧ v / 262144 = v / 64 / 64 / 64 := by omega
  simp only [utf8EncodeChar, (hdigits _).1, (hdigits _).2]
  repeat' split
  all_goals
    simp only [List.cons_append, List.nil_append, List.cons_lt_cons_iff, UInt8.lt_iff_toNat_lt, ← UInt8.toNat_inj,
      UInt8.toNat_ofNat']
    omega

theorem flatMap_utf8EncodeChar_lt {l m : List Char} (h : l < m) :
    l.flatMap utf8EncodeChar < m.flatMap utf8EncodeChar := by
  induction l generalizing m with
  | nil =>
    cases m with
    | nil => cases h
    | cons d m =>
      have hne : (d :: m).flatMap utf8EncodeChar ≠ [] := by
        have hpos := d.utf8Size_pos
        simp [← List.length_eq_zero_iff]
        omega
      cases hbytes : (d :: m).flatMap utf8EncodeChar with
      | nil => exact absurd hbytes hne
      | cons b bs => exact List.nil_lt_cons b bs
  | cons c l ih =>
    cases m with
    | nil => cases h
    | cons d m =>
      simp only [List.flatMap_cons]
      rcases List.cons_lt_cons_iff.1 h with hlt | ⟨rfl, hlt⟩
      · exact utf8EncodeChar_append_lt hlt _ _
      · exact List.append_left_lt (ih hlt)

/-- Texts have the order of their bytes. -/
theorem encode_lt_iff {a b : String} : encode a < encode b ↔ a < b := by
  have hmono : ∀ {a b : String}, a < b → encode a < encode b := by
    intro a b h
    simpa only [encode_eq] using flatMap_utf8EncodeChar_lt (String.lt_iff.1 h)
  constructor
  · intro h
    by_cases hab : a < b
    · exact hab
    · by_cases hba : b < a
      · exact absurd h (List.lt_asymm (hmono hba))
      · have heq : a = b := String.le_antisymm (String.not_lt.1 hba) (String.not_lt.1 hab)
        exact absurd h (heq ▸ List.lt_irrefl _)
  · exact hmono

/-! ## The character at the head -/

inductive Begins : Nat → Bytes → Prop
  | one {b : UInt8} {r : Bytes} (hb : b.toNat < 0x80) : Begins 1 (b :: r)
  | two {b c : UInt8} {r : Bytes} (hb : 0xc2 ≤ b.toNat ∧ b.toNat ≤ 0xdf) (hc : isContinuation c) :
      Begins 2 (b :: c :: r)
  | three {b c d : UInt8} {r : Bytes} (hb : 0xe0 ≤ b.toNat ∧ b.toNat ≤ 0xef)
      (hc : inRange (secondRange b) c) (hd : isContinuation d) : Begins 3 (b :: c :: d :: r)
  | four {b c d e : UInt8} {r : Bytes} (hb : 0xf0 ≤ b.toNat ∧ b.toNat ≤ 0xf4)
      (hc : inRange (secondRange b) c) (hd : isContinuation d) (he : isContinuation e) :
      Begins 4 (b :: c :: d :: e :: r)

theorem charLength?_eq_some_iff {bs : Bytes} {n : Nat} : charLength? bs = some n ↔ Begins n bs := by
  constructor
  · intro h
    unfold charLength? at h
    simp only [UInt8.lt_iff_toNat_lt, UInt8.le_iff_toNat_le, UInt8.reduceToNat, Bool.and_eq_true,
      decide_eq_true_eq] at h
    repeat' split at h
    all_goals cases h
    · exact .one ‹_›
    · exact .two ‹_› ‹_›
    · rename_i h
      exact .three ‹_› h.1 h.2
    · rename_i h
      exact .four ‹_› h.1.1 h.1.2 h.2
  · intro h
    cases h with
    | one hb => simp [charLength?, UInt8.lt_iff_toNat_lt, hb]
    | @two b c r hb hc =>
      have hone : ¬ b.toNat < 0x80 := by omega
      simp [charLength?, UInt8.lt_iff_toNat_lt, UInt8.le_iff_toNat_le, hb, hc, hone]
    | @three b c d r hb hc hd =>
      have hone : ¬ b.toNat < 0x80 := by omega
      have htwo : ¬ b.toNat ≤ 0xdf := by omega
      simp [charLength?, UInt8.lt_iff_toNat_lt, UInt8.le_iff_toNat_le, hb, hc, hd, hone, htwo]
    | @four b c d e r hb hc hd he =>
      have hone : ¬ b.toNat < 0x80 := by omega
      have htwo : ¬ b.toNat ≤ 0xdf := by omega
      have hthree : ¬ b.toNat ≤ 0xef := by omega
      simp [charLength?, UInt8.lt_iff_toNat_lt, UInt8.le_iff_toNat_le, hb, hc, hd, he, hone, htwo, hthree]

theorem isContinuation_iff {b : UInt8} :
    isContinuation b = true ↔ 0x80 ≤ b.toNat ∧ b.toNat ≤ 0xbf := by
  simp [isContinuation, UInt8.le_iff_toNat_le]

theorem inRange_secondRange_iff {b c : UInt8} :
    inRange (secondRange b) c = true ↔ (0x80 ≤ c.toNat ∧ c.toNat ≤ 0xbf) ∧
      (b.toNat = 0xe0 → 0xa0 ≤ c.toNat) ∧ (b.toNat = 0xed → c.toNat ≤ 0x9f) ∧
      (b.toNat = 0xf0 → 0x90 ≤ c.toNat) ∧ (b.toNat = 0xf4 → c.toNat ≤ 0x8f) := by
  unfold secondRange
  simp only [beq_iff_eq, ← UInt8.toNat_inj, UInt8.reduceToNat]
  repeat' split
  all_goals
    simp only [inRange, Bool.and_eq_true, decide_eq_true_eq, UInt8.le_iff_toNat_le,
      UInt8.reduceToNat]
    omega

theorem val_charOfNat {v : Nat} (hv : v.isValidChar) : (Char.ofNat v).val.toNat = v := by
  rw [Char.ofNat, dif_pos hv]
  rfl

/-- Where a character begins, all its bytes stand. -/
theorem Begins.exists_char {n : Nat} {bs : Bytes} (h : Begins n bs) :
    ∃ c rest, bs = utf8EncodeChar c ++ rest := by
  -- In each case the number that the bytes spell is a valid one, and its bytes are those.
  cases h with
  | @one b r hb =>
    have hv : b.toNat.isValidChar := by unfold Nat.isValidChar; omega
    refine ⟨Char.ofNat b.toNat, r, ?_⟩
    simp only [utf8EncodeChar, val_charOfNat hv]
    rw [if_pos (by omega), UInt8.ofNat_toNat]
    rfl
  | @two b c r hb hc =>
    rw [isContinuation_iff] at hc
    generalize hvdef : b.toNat % 32 * 64 + c.toNat % 64 = v
    have hv : v.isValidChar := by unfold Nat.isValidChar; omega
    refine ⟨Char.ofNat v, r, ?_⟩
    simp only [utf8EncodeChar, val_charOfNat hv]
    rw [if_neg (by omega), if_pos (by omega)]
    simp only [List.cons_append, List.nil_append, List.cons.injEq, and_true, ← UInt8.toNat_inj,
      UInt8.toNat_ofNat']
    omega
  | @three b c d r hb hc hd =>
    rw [inRange_secondRange_iff] at hc
    rw [isContinuation_iff] at hd
    generalize hvdef : (b.toNat % 16 * 64 + c.toNat % 64) * 64 + d.toNat % 64 = v
    have hv : v.isValidChar := by unfold Nat.isValidChar; omega
    refine ⟨Char.ofNat v, r, ?_⟩
    simp only [utf8EncodeChar, val_charOfNat hv]
    rw [if_neg (by omega), if_neg (by omega), if_pos (by omega)]
    simp only [List.cons_append, List.nil_append, List.cons.injEq, and_true, ← UInt8.toNat_inj,
      UInt8.toNat_ofNat']
    omega
  | @four b c d e r hb hc hd he =>
    rw [inRange_secondRange_iff] at hc
    rw [isContinuation_iff] at hd he
    generalize hvdef : ((b.toNat % 8 * 64 + c.toNat % 64) * 64 + d.toNat % 64) * 64 + e.toNat % 64 = v
    have hv : v.isValidChar := by unfold Nat.isValidChar; omega
    refine ⟨Char.ofNat v, r, ?_⟩
    simp only [utf8EncodeChar, val_charOfNat hv]
    rw [if_neg (by omega), if_neg (by omega), if_neg (by omega)]
    simp only [List.cons_append, List.nil_append, List.cons.injEq, and_true, ← UInt8.toNat_inj,
      UInt8.toNat_ofNat']
    omega

theorem begins_utf8EncodeChar (c : Char) (rest : Bytes) :
    Begins c.utf8Size (utf8EncodeChar c ++ rest) := by
  have hv := c.valid
  simp only [UInt32.isValidChar, Nat.isValidChar] at hv
  rw [← String.length_utf8EncodeChar c]
  simp only [utf8EncodeChar]
  repeat' split
  · refine .one ?_
    rw [UInt8.toNat_ofNat']
    omega
  · refine .two ?_ ?_
    all_goals
      simp only [isContinuation_iff, UInt8.toNat_ofNat']
      omega
  · refine .three ?_ ?_ ?_
    all_goals
      simp only [isContinuation_iff, inRange_secondRange_iff, UInt8.toNat_ofNat']
      omega
  · refine .four ?_ ?_ ?_ ?_
    all_goals
      simp only [isContinuation_iff, inRange_secondRange_iff, UInt8.toNat_ofNat']
      omega

theorem symbolsFrom_succ (n acc : Nat) (bs : Bytes) (h : n < bs.length) :
    symbolsFrom (n + 1) acc bs =
      .char (Char.ofNat ((bs.take (n + 1)).foldl push acc)) :: symbols (bs.drop (n + 1)) := by
  induction n generalizing acc bs with
  | zero =>
    cases bs with
    | nil => simp at h
    | cons b r => simp [symbolsFrom, symbols]
  | succ n ih =>
    cases bs with
    | nil => simp at h
    | cons b r =>
      have hn : n < r.length := by simpa using h
      simp [symbolsFrom, ih (push acc b) r hn]

theorem symbols_of_charLength? {n : Nat} {b : UInt8} {r : Bytes}
    (h : charLength? (b :: r) = some (n + 1)) (hn : n ≤ r.length) :
    symbols (b :: r) =
      .char (Char.ofNat ((r.take n).foldl push (leadBits (n + 1) b))) :: symbols (r.drop n) := by
  rw [symbols, symbolsFrom, h]
  cases n with
  | zero => rfl
  | succ n => exact symbolsFrom_succ n _ r hn

/-- Reading takes a whole character from the head of a text. -/
theorem symbols_utf8EncodeChar (c : Char) (rest : Bytes) :
    symbols (utf8EncodeChar c ++ rest) = .char c :: symbols rest := by
  have hread := charLength?_eq_some_iff.mpr (begins_utf8EncodeChar c rest)
  have hof : ∀ v, v = c.val.toNat → Char.ofNat v = c := fun v hv => hv ▸ Char.ofNat_toNat c
  have hv := c.valid
  simp only [UInt32.isValidChar, Nat.isValidChar] at hv
  rw [← String.length_utf8EncodeChar c] at hread
  revert hread
  simp only [utf8EncodeChar]
  repeat' split
  all_goals
    intro hread
    rw [List.cons_append] at hread ⊢
    rw [symbols_of_charLength? hread (by simp)]
    simp only [List.nil_append, List.cons_append, List.length_cons, List.length_nil, List.take,
      List.drop, List.foldl, List.cons.injEq, Symbol.char.injEq, and_true]
    apply hof
    simp only [push, leadBits, UInt8.toNat_ofNat']
    omega

/-! ## Texts -/

theorem symbols_encode (s : String) (rest : Bytes) :
    symbols (encode s ++ rest) = s.toList.map .char ++ symbols rest := by
  rw [encode_eq]
  induction s.toList with
  | nil => rfl
  | cons c cs ih =>
    rw [List.flatMap_cons, List.append_assoc, symbols_utf8EncodeChar, ih, List.map_cons,
      List.cons_append]

theorem symbols_encode_self (s : String) : symbols (encode s) = s.toList.map .char := by
  simpa [symbols, symbolsFrom] using symbols_encode s []

theorem symbols_stray {b : UInt8} {r : Bytes} (h : charLength? (b :: r) = none) :
    symbols (b :: r) = .stray b :: symbols r := by
  rw [symbols, symbolsFrom, h]
  rfl

/-- Bytes fall into characters and stray bytes. -/
@[elab_as_elim]
theorem induction_symbols {motive : Bytes → Prop} (bs : Bytes) (nil : motive [])
    (char : ∀ c rest, motive rest → motive (utf8EncodeChar c ++ rest))
    (stray : ∀ b r, charLength? (b :: r) = none → motive r → motive (b :: r)) : motive bs := by
  induction hn : bs.length using Nat.strongRecOn generalizing bs with
  | ind n ih =>
    subst hn
    cases bs with
    | nil => exact nil
    | cons b r =>
      cases h : charLength? (b :: r) with
      | none => exact stray b r h (ih r.length (by simp) r rfl)
      | some n =>
        obtain ⟨c, rest, hbs⟩ := (charLength?_eq_some_iff.mp h).exists_char
        rw [hbs] at ih ⊢
        have hpos : 0 < (utf8EncodeChar c).length := by
          rw [String.length_utf8EncodeChar]
          exact c.utf8Size_pos
        exact char c rest (ih rest.length (by rw [List.length_append]; omega) rest rfl)

/-- Reading loses nothing. -/
theorem bytes_symbols (bs : Bytes) : bytes (symbols bs) = bs := by
  induction bs using induction_symbols with
  | nil => rfl
  | char c rest ih =>
    rw [symbols_utf8EncodeChar, bytes, List.flatMap_cons, Symbol.bytes, encode_toString]
    rw [bytes] at ih
    rw [ih]
  | stray b r h ih =>
    rw [symbols_stray h, bytes, List.flatMap_cons, Symbol.bytes]
    rw [bytes] at ih
    rw [ih, List.singleton_append]

theorem length_symbols_le (bs : Bytes) : (symbols bs).length ≤ bs.length := by
  induction bs using induction_symbols with
  | nil => exact Nat.le_refl 0
  | char c rest ih =>
    have hpos := c.utf8Size_pos
    rw [symbols_utf8EncodeChar, List.length_cons, List.length_append, String.length_utf8EncodeChar]
    omega
  | stray b r h ih =>
    rw [symbols_stray h, List.length_cons, List.length_cons]
    omega

/-- The last byte of a text, if there is one, stands for itself. -/
def EndsPlain (bs : Bytes) : Prop := ∀ front b, bs = front ++ [b] → b.toNat < 0x80

theorem EndsPlain.of_append {a b : Bytes} (h : EndsPlain (a ++ b)) : EndsPlain b := by
  rintro front last rfl
  exact h (a ++ front) last (List.append_assoc ..).symm

/-- What follows a byte that stands for itself makes no character of stray bytes before it. -/
theorem charLength?_append_eq_none {b : UInt8} {r more : Bytes} (h : charLength? (b :: r) = none)
    (hend : EndsPlain (b :: r)) : charLength? (b :: (r ++ more)) = none := by
  have hnot : ∀ c rest, b :: r ≠ utf8EncodeChar c ++ rest := by
    intro c rest heq
    rw [heq, charLength?_eq_some_iff.mpr (begins_utf8EncodeChar c rest)] at h
    exact Option.some_ne_none _ h
  cases hmore : charLength? (b :: (r ++ more)) with
  | none => rfl
  | some n =>
    obtain ⟨c, rest, heq⟩ := (charLength?_eq_some_iff.mp hmore).exists_char
    rw [← List.cons_append] at heq
    obtain ⟨tail, hc, -⟩ | ⟨tail, hc, -⟩ := List.append_eq_append_iff.mp heq
    · -- The last byte is plain and one of the character's, so it is all of it.
      have hlast := (List.dropLast_concat_getLast (List.cons_ne_nil b r)).symm
      have hplain := hend _ _ hlast
      have hmem : (b :: r).getLast (List.cons_ne_nil b r) ∈ utf8EncodeChar c := by
        rw [hc]
        exact List.mem_append_left _ (List.getLast_mem _)
      have hsmall : c.toNat < 0x80 := by rwa [toNat_of_mem_utf8EncodeChar hmem hplain]
      have hlen : (b :: r ++ tail).length = 1 := by rw [← hc, utf8EncodeChar_ascii hsmall]; rfl
      have htail : tail = [] := by
        rw [List.length_append, List.length_cons] at hlen
        exact List.eq_nil_of_length_eq_zero (by omega)
      exact absurd (by rw [hc, htail, List.append_nil, List.append_nil]) (hnot c [])
    · exact absurd hc (hnot c tail)

theorem symbols_append {a : Bytes} (b : Bytes) (h : EndsPlain a) :
    symbols (a ++ b) = symbols a ++ symbols b := by
  induction a using induction_symbols with
  | nil => rfl
  | char c rest ih =>
    rw [List.append_assoc, symbols_utf8EncodeChar, symbols_utf8EncodeChar, ih h.of_append,
      List.cons_append]
  | stray s r hs ih =>
    have hr : EndsPlain r := EndsPlain.of_append (a := [s]) h
    rw [symbols_stray hs, List.cons_append, symbols_stray (charLength?_append_eq_none hs h), ih hr,
      List.cons_append]

theorem endsPlain_of_symbols {bs : Bytes} {text : List Symbol} {c : Char}
    (h : symbols bs = text ++ [.char c]) (hc : c.toNat < 0x80) : EndsPlain bs := by
  have hbs := bytes_symbols bs
  rw [h, bytes, List.flatMap_append, List.flatMap_singleton, Symbol.bytes, encode_toString,
    utf8EncodeChar_ascii hc] at hbs
  intro front b hlast
  obtain ⟨-, hb⟩ := List.append_inj_right' (hbs.trans hlast) rfl
  rw [UInt8.toNat_ofNat']
  omega

end CallLineage.Utf8
