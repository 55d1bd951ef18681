import CallLineage.Json.Wire
/-! What a reader answers hangs only on what it takes.
`Extends r r'` says so for a reader and one with more fuel, as long as it leaves something behind: a number at the
end of a text may still go on. A reader that ends behind a closing bracket needs no such guard (`ClosesOn`), so
requests that stand one after another are read apart. -/
namespace CallLineage.Json.Reader

open Utf8 (Symbol)

variable {α β σ : Type}

theorem bind_eq_ok {r : Reader α} {f : α → Reader β} {text rest : List Symbol} {b : β} :
    (r >>= f) text = .ok (b, rest) ↔ ∃ a mid, r text = .ok (a, mid) ∧ f a mid = .ok (b, rest) := by
  change (r text >>= fun p => f p.1 p.2) = _ ↔ _
  cases r text with
  | error e => simp [bind, Except.bind]
  | ok p =>
    obtain ⟨a, mid⟩ := p
    constructor
    · exact fun h => ⟨a, mid, rfl, h⟩
    · rintro ⟨a, mid, h, h'⟩
      cases h
      exact h'

theorem pure_eq_ok {a b : α} {text rest : List Symbol} :
    (pure a : Reader α) text = .ok (b, rest) ↔ a = b ∧ text = rest := by
  change (Except.ok (a, text) : Except Fault _) = _ ↔ _
  simp

theorem throw_ne_ok {e : Fault} {a : α} {text rest : List Symbol} :
    (throw e : Reader α) text ≠ .ok (a, rest) := nofun

theorem lift_eq_ok {x : Except Fault α} {a : α} {text rest : List Symbol} :
    (liftM x : Reader α) text = .ok (a, rest) ↔ x = .ok a ∧ text = rest := by
  cases x with
  | error e => exact ⟨nofun, nofun⟩
  | ok b =>
    change (Except.ok (b, text) : Except Fault _) = _ ↔ _
    simp

theorem peek_eq_ok {text mid : List Symbol} {s : Option Symbol} :
    peek text = .ok (s, mid) ↔ mid = text.dropWhile isBlank ∧ s = mid.head? := by
  simp only [peek, Except.ok.injEq, Prod.mk.injEq]
  constructor
  · rintro ⟨rfl, rfl⟩
    exact ⟨rfl, rfl⟩
  · rintro ⟨rfl, rfl⟩
    exact ⟨rfl, rfl⟩

theorem peek_eq_some {text mid : List Symbol} {s : Symbol} (h : peek text = .ok (some s, mid)) :
    ∃ rest, mid = s :: rest :=
  List.head?_eq_some_iff.mp (peek_eq_ok.mp h).2.symm

theorem nextKey_eq_none {first : Bool} {text mid : List Symbol} (h : nextKey first text = .ok (none, mid)) :
    ∃ rest, mid = .char '\x7d' :: rest := by
  have hsome : ∀ {text mid}, (do return some (← key) : Reader (Option String)) text ≠ .ok (none, mid) := by
    intro text mid h
    obtain ⟨k, mid', -, h'⟩ := bind_eq_ok.mp h
    exact absurd (pure_eq_ok.mp h').1 (Option.some_ne_none k)
  obtain ⟨s, mid', hpeek, h⟩ := bind_eq_ok.mp h
  cases s with
  | none => exact absurd h throw_ne_ok
  | some s =>
    dsimp only at h
    split at h
    · rename_i hs
      obtain ⟨-, rfl⟩ := pure_eq_ok.mp h
      obtain ⟨rest, rfl⟩ := peek_eq_some hpeek
      exact ⟨rest, by rw [beq_iff_eq.mp hs]⟩
    · split at h
      · obtain ⟨-, mid'', -, h⟩ := bind_eq_ok.mp h
        exact absurd h hsome
      · split at h
        · exact absurd h hsome
        · exact absurd h throw_ne_ok

theorem dropWhile_append_of_ne_nil {p : Symbol → Bool} {text : List Symbol} (h : text.dropWhile p ≠ [])
    (more : List Symbol) : (text ++ more).dropWhile p = text.dropWhile p ++ more := by
  rw [List.dropWhile_append, if_neg (by simpa using h)]

theorem head?_append_of_ne_nil {text : List Symbol} (h : text ≠ []) (more : List Symbol) :
    (text ++ more).head? = text.head? := by
  cases text with
  | nil => exact absurd rfl h
  | cons s text => rfl

/-! ## Readers that leave something behind -/

/-- Where `r` succeeds and leaves something, `r'` does the same in front of any more text. -/
structure Extends (r r' : Reader α) : Prop where
  suffix : ∀ {text a rest}, r text = .ok (a, rest) → rest <:+ text
  append : ∀ {text a rest}, r text = .ok (a, rest) → rest ≠ [] →
    ∀ more, r' (text ++ more) = .ok (a, rest ++ more)

namespace Extends

theorem pure (a : α) : Extends (pure a) (pure a) where
  suffix h := by
    obtain ⟨-, rfl⟩ := pure_eq_ok.mp h
    exact List.suffix_refl _
  append h _ more := by
    obtain ⟨rfl, rfl⟩ := pure_eq_ok.mp h
    rfl

theorem throw (e : Fault) (r' : Reader α) : Extends (throw e) r' where
  suffix h := absurd h throw_ne_ok
  append h := absurd h throw_ne_ok

theorem lift (x : Except Fault α) : Extends (liftM x) (liftM x) where
  suffix h := by
    obtain ⟨-, rfl⟩ := lift_eq_ok.mp h
    exact List.suffix_refl _
  append h _ more := by
    obtain ⟨hx, rfl⟩ := lift_eq_ok.mp h
    exact lift_eq_ok.mpr ⟨hx, rfl⟩

theorem throw_bind (e : Fault) (f : α → Reader β) (r' : Reader β) :
    Extends (MonadExcept.throw e >>= f) r' :=
  .throw e r'

theorem bind {r r' : Reader α} {f f' : α → Reader β} (hr : Extends r r')
    (hf : ∀ a, Extends (f a) (f' a)) : Extends (r >>= f) (r' >>= f') where
  suffix h := by
    obtain ⟨a, mid, h1, h2⟩ := bind_eq_ok.mp h
    exact ((hf a).suffix h2).trans (hr.suffix h1)
  append h hne more := by
    obtain ⟨a, mid, h1, h2⟩ := bind_eq_ok.mp h
    -- What the second reader leaves, the first has left too.
    have hmid : mid ≠ [] := by
      rintro rfl
      exact hne (List.suffix_nil.mp ((hf a).suffix h2))
    exact bind_eq_ok.mpr ⟨a, mid ++ more, hr.append h1 hmid more, (hf a).append h2 hne more⟩

theorem ite {p : Prop} [Decidable p] {r r' s s' : Reader α} (hr : Extends r r') (hs : Extends s s') :
    Extends (if p then r else s) (if p then r' else s') := by
  split
  · exact hr
  · exact hs

/-- A reader that cannot fail. -/
theorem of_total {g : List Symbol → α} {f : List Symbol → List Symbol}
    (hsuffix : ∀ text, f text <:+ text)
    (happend : ∀ text, f text ≠ [] → ∀ more, g (text ++ more) = g text ∧ f (text ++ more) = f text ++ more) :
    Extends (fun text => .ok (g text, f text)) (fun text => .ok (g text, f text)) where
  suffix h := by
    cases h
    exact hsuffix _
  append {text a rest} h hne more := by
    cases h
    obtain ⟨hg, hf⟩ := happend text hne more
    rw [hg, hf]

theorem peek : Extends peek peek :=
  of_total (fun _ => List.dropWhile_suffix _) fun text hne more => by
    rw [dropWhile_append_of_ne_nil hne]
    exact ⟨head?_append_of_ne_nil hne more, rfl⟩

/-- A reader that looks at the next character, which has to be there. -/
theorem peek_some {f f' : Symbol → Reader α} (h : ∀ s, Extends (f s) (f' s)) :
    Extends
      (do
        match ← Reader.peek with
        | none => MonadExcept.throw .ended
        | some s => f s)
      (do
        match ← Reader.peek with
        | none => MonadExcept.throw .ended
        | some s => f' s) := by
  refine .bind .peek fun s => ?_
  cases s with
  | none => exact .throw ..
  | some s => exact h s

theorem next : Extends next next :=
  of_total (fun _ => List.tail_suffix _) fun text hne more => by
    cases text with
    | nil => exact absurd rfl hne
    | cons s text => exact ⟨rfl, rfl⟩

theorem drop : Extends drop drop :=
  of_total (fun _ => List.tail_suffix _) fun text hne more => by
    cases text with
    | nil => exact absurd rfl hne
    | cons s text => exact ⟨rfl, rfl⟩

theorem here : Extends here here :=
  of_total (fun _ => List.suffix_refl _) fun _ hne more => ⟨head?_append_of_ne_nil hne more, rfl⟩

theorem digits : Extends digits digits :=
  of_total (fun _ => List.dropWhile_suffix _) fun text hne more => by
    have hlen : (text.takeWhile isDigit).length ≠ text.length := by
      intro hlen
      have htext := congrArg List.length (List.takeWhile_append_dropWhile (p := isDigit) (l := text))
      rw [List.length_append] at htext
      exact hne (List.eq_nil_of_length_eq_zero (by omega))
    rw [dropWhile_append_of_ne_nil hne, List.takeWhile_append, if_neg hlen]
    exact ⟨rfl, rfl⟩

theorem hexFour : Extends hexFour hexFour where
  suffix {text a rest} h := by
    simp only [Reader.hexFour] at h
    split at h
    · cases h
      exact List.drop_suffix _ _
    · split at h <;> cases h
  append {text a rest} h hne more := by
    simp only [Reader.hexFour] at h ⊢
    split at h
    · rename_i heq
      cases h
      have hlen : 4 ≤ text.length := by
        have := mt List.drop_eq_nil_iff.mpr hne
        omega
      rw [List.take_append_of_le_length hlen, List.drop_append_of_le_length hlen, heq]
    · split at h <;> cases h

/-- A longer text gives more fuel. -/
theorem fuel {f f' : Nat → Reader α} (h : ∀ n m, n ≤ m → Extends (f n) (f' m)) :
    Extends (fuel >>= f) (fuel >>= f') where
  suffix {text a rest} hok := by
    exact (h _ _ (Nat.le_refl (2 * text.length + 4))).suffix hok
  append {text a rest} hok hne more := by
    have hle : 2 * text.length + 4 ≤ 2 * (text ++ more).length + 4 := by
      rw [List.length_append]
      omega
    exact (h _ _ hle).append hok hne more

/-! ### Strings -/

theorem word (cs : List Char) : Extends (word cs) (word cs) := by
  induction cs with
  | nil => exact .pure ()
  | cons c cs ih =>
    refine .bind .next fun s => ?_
    cases s with
    | none => exact .throw ..
    | some s => exact .ite ih (.throw ..)

theorem lowSurrogate : Extends lowSurrogate lowSurrogate := by
  refine .bind .next fun s => ?_
  cases s with
  | none => exact .throw_bind ..
  | some s =>
    refine .ite (.throw_bind ..) (.bind .next fun s => ?_)
    cases s with
    | none => exact .throw_bind ..
    | some s => exact .ite (.throw_bind ..) (.bind .hexFour fun n => .ite (.pure n) (.throw ..))

theorem numberedEscape : Extends numberedEscape numberedEscape := by
  unfold Reader.numberedEscape
  refine .bind .hexFour fun n => .ite (.throw ..) (.ite ?_ (.pure _))
  exact .bind .lowSurrogate fun low => .pure _

theorem escape : Extends escape escape := by
  refine .bind .next fun s => ?_
  rcases s with _ | (c | b)
  · exact .throw ..
  · refine .ite .numberedEscape ?_
    cases simpleEscape? c with
    | none => exact .throw ..
    | some d => exact .pure d
  · exact .throw ..

theorem stringTail (good : Bool) (acc : List Char) {n m : Nat} (h : n ≤ m) :
    Extends (stringTail good acc n) (stringTail good acc m) := by
  induction n generalizing good acc m with
  | zero => exact .throw ..
  | succ n ih =>
    obtain ⟨m, rfl⟩ := Nat.exists_eq_add_of_lt h
    have hle : n ≤ n + m := Nat.le_add_right n m
    refine .bind .next fun s => ?_
    rcases s with _ | (c | b)
    · exact .throw ..
    · refine .ite (.ite (.pure _) (.throw ..)) (.ite ?_ (.ite (.throw ..) ?_))
      · exact .bind .escape fun d => ih good (d :: acc) hle
      · exact ih good (c :: acc) hle
    · exact ih false acc hle

theorem skipString {n m : Nat} (h : n ≤ m) : Extends (skipString n) (skipString m) := by
  induction n generalizing m with
  | zero => exact .throw ..
  | succ n ih =>
    obtain ⟨m, rfl⟩ := Nat.exists_eq_add_of_lt h
    have hle : n ≤ n + m := Nat.le_add_right n m
    refine .bind .next fun s => ?_
    rcases s with _ | (c | b)
    · exact .throw ..
    · refine .ite (.pure _) (.ite ?_ (.ite (.throw ..) (ih hle)))
      refine .bind .next fun s => ?_
      rcases s with _ | (d | b)
      · exact .throw ..
      · exact .ite (.bind .hexFour fun _ => ih hle) (.ite (ih hle) (.throw ..))
      · exact .throw ..
    · exact ih hle

/-! ### Numbers -/

theorem someDigits (ending : Fault) : Extends (someDigits ending) (someDigits ending) :=
  .bind .digits fun ds => .ite (.bind .here fun _ => .throw ..) (.pure ds)

theorem fraction (ending : Fault) : Extends (fraction ending) (fraction ending) :=
  .bind .here fun _ => .ite (.bind .drop fun _ => .bind (.someDigits ending) fun _ => .pure _) (.pure _)

theorem exponent (ending : Fault) : Extends (exponent ending) (exponent ending) := by
  refine .bind .here fun s => .ite (.bind .drop fun _ => .bind .here fun t => .bind .here fun u => ?_) (.pure _)
  refine .ite (.bind .drop fun _ => ?_) ?_
  all_goals exact .bind (.someDigits ending) fun _ => .pure _

theorem numberTail (ending : Fault) (negative : Bool) (whole : List Char) :
    Extends (numberTail ending negative whole) (numberTail ending negative whole) :=
  .bind (.fraction ending) fun _ => .bind (.exponent ending) fun _ => .pure _

theorem number (ending : Fault) : Extends (number ending) (number ending) := by
  refine .bind .here fun s => .ite (.bind .drop fun _ => ?_) ?_
  all_goals
    refine .bind (.someDigits ending) fun whole => ?_
    split
    · exact .throw ..
    · exact .numberTail ..

/-! ### Values -/

theorem skipScalar : Extends skipScalar skipScalar := by
  refine .peek_some fun s => .ite (.bind .drop fun _ => .word _) (.ite (.bind .drop fun _ => .word _)
    (.ite (.bind .drop fun _ => .word _) (.ite (.bind .drop fun _ => ?_) (.ite ?_ (.throw ..)))))
  · exact .fuel fun _ _ h => .skipString h
  · exact .bind (.number _) fun _ => .pure _

theorem skipFrom (state : SkipState) (frames : List Frame) {n m : Nat} (h : n ≤ m) :
    Extends (skipFrom n state frames) (skipFrom m state frames) := by
  induction n generalizing state frames m with
  | zero =>
    rw [Reader.skipFrom]
    exact .throw ..
  | succ n ih =>
    obtain ⟨m, rfl⟩ := Nat.exists_eq_add_of_lt h
    have hle : n ≤ n + m := Nat.le_add_right n m
    cases state with
    | value =>
      refine .bind .peek fun s => .ite (.bind .drop fun _ => ih _ _ hle) (.ite (.bind .drop fun _ => ih _ _ hle) ?_)
      exact .bind .skipScalar fun _ => ih _ _ hle
    | after =>
      cases frames with
      | nil => exact .pure ()
      | cons frame frames =>
        exact .peek_some fun s => .ite (.bind .drop fun _ => ih _ _ hle)
          (.ite (.bind .drop fun _ => ih _ _ hle) (.throw ..))
    | opened =>
      cases frames with
      | nil => exact .pure ()
      | cons frame frames =>
        exact .peek_some fun s => .ite (.bind .drop fun _ => ih _ _ hle) (ih _ _ hle)
    | item =>
      rcases frames with _ | ⟨_ | _, frames⟩
      · exact .pure ()
      · exact ih _ _ hle
      · refine .bind .peek fun s => ?_
        cases s with
        | none => exact .throw_bind ..
        | some s =>
          refine .ite (.throw_bind ..) (.bind .drop fun _ => .bind (.skipString hle) fun _ => .bind .peek fun s => ?_)
          cases s with
          | none => exact .throw_bind ..
          | some s => exact .ite (.throw_bind ..) (.bind .drop fun _ => ih _ _ hle)

theorem skipValue : Extends skipValue skipValue :=
  .fuel fun _ _ h => .skipFrom _ _ (Nat.mul_le_mul_left 2 h)

theorem mismatch : Extends (mismatch : Reader α) mismatch := by
  refine .peek_some fun s => .ite (.throw ..) (.ite (.bind .drop fun _ => ?_) (.ite ?_ ?_))
  · exact .fuel fun _ _ h => .bind (.stringTail _ _ h) fun _ => .throw ..
  · exact .bind (.number _) fun _ => .throw ..
  · exact .bind .skipScalar fun _ => .throw ..

theorem string : Extends string string :=
  .peek_some fun _ => .ite (.bind .drop fun _ => .fuel fun _ _ h => .stringTail _ _ h) .mismatch

theorem optionalString : Extends optionalString optionalString :=
  .bind .peek fun _ =>
    .ite (.bind .drop fun _ => .bind (.word _) fun _ => .pure _) (.bind .string fun _ => .pure _)

theorem nextItem (first : Bool) : Extends (nextItem first) (nextItem first) :=
  .peek_some fun _ => .ite (.pure _)
    (.ite (.bind .drop fun _ => .peek_some fun _ => .ite (.throw ..) (.pure _)) (.ite (.pure _) (.throw ..)))

theorem itemOf (first : Bool) {item : Reader α} (h : Extends item item) :
    Extends (itemOf first item) (itemOf first item) :=
  .bind (.nextItem first) fun _ => .ite (.bind h fun _ => .pure _) (.pure _)

theorem fieldOf (first : Bool) {item : Reader α} (h : Extends item item) :
    Extends (fieldOf first item) (fieldOf first item) := by
  refine .bind (.itemOf first h) fun a => ?_
  cases a with
  | none => exact .throw ..
  | some a => exact .pure a

theorem key : Extends key key :=
  .peek_some fun _ => .ite (.bind .drop fun _ => .fuel fun _ _ h => .stringTail _ _ h) (.throw ..)

theorem nextKey (first : Bool) : Extends (nextKey first) (nextKey first) := by
  have hkey : Extends (do return some (← Reader.key)) (do return some (← Reader.key)) :=
    .bind .key fun _ => .pure _
  exact .peek_some fun _ => .ite (.pure _) (.ite (.bind .drop fun _ => hkey) (.ite hkey (.throw ..)))

theorem of_once {seen : Option α} {value : Reader α} {set : α → σ} {r : Reader σ} (h : Extends value value)
    (hr : once seen value set = .ok (some r)) : Extends r r := by
  unfold once at hr
  split at hr
  · cases hr
  · cases hr
    exact .bind h fun _ => .pure _

theorem colon : Extends colon colon :=
  .peek_some fun _ => .ite .drop (.throw ..)

end Extends

/-! ## Readers that end behind a bracket -/

/-- Where `r` succeeds on a text, it ends behind a plain character, and `r'` does the same in front of any more text. -/
structure ClosesOn (r r' : Reader α) (text : List Symbol) : Prop where
  behind : ∀ {a rest}, r text = .ok (a, rest) →
    ∃ front c, text = front ++ .char c :: rest ∧ c.toNat < 0x80
  append : ∀ {a rest}, r text = .ok (a, rest) → ∀ more, r' (text ++ more) = .ok (a, rest ++ more)

namespace ClosesOn

theorem throw (e : Fault) (r' : Reader α) (text : List Symbol) : ClosesOn (throw e) r' text where
  behind h := absurd h throw_ne_ok
  append h := absurd h throw_ne_ok

theorem bind {r r' : Reader α} {f f' : α → Reader β} {text : List Symbol} (hr : Extends r r')
    (hf : ∀ a mid, r text = .ok (a, mid) → ClosesOn (f a) (f' a) mid) :
    ClosesOn (r >>= f) (r' >>= f') text where
  behind h := by
    obtain ⟨a, mid, h1, h2⟩ := bind_eq_ok.mp h
    obtain ⟨front, c, rfl, hc⟩ := (hf a mid h1).behind h2
    obtain ⟨used, rfl⟩ := hr.suffix h1
    exact ⟨used ++ front, c, by rw [List.append_assoc], hc⟩
  append h more := by
    obtain ⟨a, mid, h1, h2⟩ := bind_eq_ok.mp h
    have hmid : mid ≠ [] := by
      obtain ⟨front, c, rfl, -⟩ := (hf a mid h1).behind h2
      simp
    exact bind_eq_ok.mpr ⟨a, mid ++ more, hr.append h1 hmid more, (hf a mid h1).append h2 more⟩

theorem ite {p : Prop} [Decidable p] {r r' s s' : Reader α} {text : List Symbol}
    (hr : ClosesOn r r' text) (hs : ClosesOn s s' text) :
    ClosesOn (if p then r else s) (if p then r' else s') text := by
  split
  · exact hr
  · exact hs

/-- After the bracket nothing more is read. -/
theorem bind_done {r r' : Reader α} {f : α → Reader β} {text : List Symbol} (hr : ClosesOn r r' text)
    (hf : ∀ a, (∃ b, f a = pure b) ∨ ∃ e, f a = MonadExcept.throw e) : ClosesOn (r >>= f) (r' >>= f) text := by
  have hdone : ∀ {a mid b rest}, f a mid = .ok (b, rest) → f a = pure b ∧ mid = rest := by
    intro a mid b rest h
    obtain ⟨b', hb⟩ | ⟨e, he⟩ := hf a
    · rw [hb] at h
      obtain ⟨rfl, rfl⟩ := pure_eq_ok.mp h
      exact ⟨hb, rfl⟩
    · rw [he] at h
      exact absurd h throw_ne_ok
  constructor
  · intro b rest h
    obtain ⟨a, mid, h1, h2⟩ := bind_eq_ok.mp h
    obtain ⟨-, rfl⟩ := hdone h2
    exact hr.behind h1
  · intro b rest h more
    obtain ⟨a, mid, h1, h2⟩ := bind_eq_ok.mp h
    obtain ⟨hfa, rfl⟩ := hdone h2
    exact bind_eq_ok.mpr ⟨a, mid ++ more, hr.append h1 more, by rw [hfa]; rfl⟩

theorem drop {c : Char} (hc : c.toNat < 0x80) (rest : List Symbol) :
    ClosesOn drop drop (.char c :: rest) where
  behind h := by
    cases h
    exact ⟨[], c, rfl, hc⟩
  append h more := by
    cases h
    rfl

theorem endList (text : List Symbol) : ClosesOn endList endList text := by
  refine .bind .peek fun s mid h => ?_
  cases s with
  | none => exact .throw ..
  | some s =>
    obtain ⟨rest, rfl⟩ := peek_eq_some h
    dsimp only
    split
    · rename_i hs
      rw [beq_iff_eq] at hs
      subst hs
      exact .drop (by decide) rest
    · exact .throw ..

theorem members {member : σ → String → Except Fault (Option (Reader σ))}
    (hmember : ∀ {s key value}, member s key = .ok (some value) → Extends value value)
    (first : Bool) (s : σ) (text : List Symbol) {n m : Nat} (h : n ≤ m) :
    ClosesOn (members member n first s) (members member m first s) text := by
  induction n generalizing first s text m with
  | zero => exact .throw ..
  | succ n ih =>
    obtain ⟨m, rfl⟩ := Nat.exists_eq_add_of_lt h
    have hle : n ≤ n + m := Nat.le_add_right n m
    -- The end of the object is the one place where only the key that was not found says what comes next.
    refine .bind (.nextKey first) fun key mid hkey => ?_
    cases key with
    | none =>
      obtain ⟨rest, rfl⟩ := nextKey_eq_none hkey
      exact .bind_done (.drop (by decide) rest) fun _ => .inl ⟨s, rfl⟩
    | some key =>
      refine .bind (.lift (member s key)) fun value mid' hvalue => ?_
      obtain ⟨hvalue', rfl⟩ := lift_eq_ok.mp hvalue
      cases value with
      | none =>
        exact .bind .colon fun _ _ _ => .bind .skipValue fun _ _ _ => ih false s _ hle
      | some value =>
        exact .bind .colon fun _ _ _ => .bind (hmember hvalue') fun s' _ _ => ih false s' _ hle

/-- A longer text gives more fuel. -/
theorem fuel {f f' : Nat → Reader α} {text : List Symbol}
    (h : ∀ n m, n ≤ m → ClosesOn (f n) (f' m) text) :
    ClosesOn (fuel >>= f) (fuel >>= f') text where
  behind hok := (h _ _ (Nat.le_refl (2 * text.length + 4))).behind hok
  append hok more := by
    have hle : 2 * text.length + 4 ≤ 2 * (text ++ more).length + 4 := by
      rw [List.length_append]
      omega
    exact (h _ _ hle).append hok more

theorem mismatch (text : List Symbol) : ClosesOn (mismatch : Reader α) mismatch text := by
  refine .bind .peek fun s mid _ => ?_
  cases s with
  | none => exact .throw ..
  | some s =>
    refine .ite (.throw ..) (.ite (.bind .drop fun _ _ _ => ?_) (.ite ?_ ?_))
    · exact .fuel fun _ _ h => .bind (.stringTail _ _ h) fun _ _ _ => .throw ..
    · exact .bind (.number _) fun _ _ _ => .throw ..
    · exact .bind .skipScalar fun _ _ _ => .throw ..

theorem record {start : σ} {member : σ → String → Except Fault (Option (Reader σ))}
    {finish : σ → Option α} {fields : Reader α}
    (hmember : ∀ {s key value}, member s key = .ok (some value) → Extends value value)
    (hfields : Extends fields fields) (text : List Symbol) :
    ClosesOn (record start member finish fields) (record start member finish fields) text := by
  refine .bind .peek fun s mid _ => .ite ?_ (.ite (.bind .drop fun _ rest _ => ?_) (.mismatch mid))
  · refine .bind .drop fun _ _ _ => .bind hfields fun a rest _ => ?_
    exact .bind_done (.endList rest) fun _ => .inl ⟨a, rfl⟩
  · refine .fuel fun n m h => .bind_done (.members hmember true start rest h) fun s => ?_
    cases finish s with
    | none => exact .inr ⟨_, rfl⟩
    | some a => exact .inl ⟨a, rfl⟩

end ClosesOn

end CallLineage.Json.Reader

namespace CallLineage.Request

open Json.Reader

/-- One request is read in the same way, whatever stands behind it. -/
theorem closesOn_reader (text : List Utf8.Symbol) : ClosesOn reader reader text := by
  refine .record ?_ ?_ text
  · intro p key value h
    split at h
    · exact .of_once .string h
    · exact .of_once .optionalString h
    · cases h
  · exact .bind (.fieldOf true .string) fun _ => .bind (.itemOf false .optionalString) fun _ => .pure _

end CallLineage.Request
