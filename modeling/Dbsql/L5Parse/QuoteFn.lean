import Dbsql.L5Parse.Unquote
/-!
# The SQL function `quote` (sql_fns.c:460-502)

The value of a number is its own text, any other text is put between quotes with its quotes
doubled. The text is written into a buffer whose size is counted before.

Results:
* `quoteFunc_fits`: the buffer is as large as the text and its terminator.
* `quoteFunc_literal`: the scanner takes the text as one literal, and its value is the
  argument.
-/
namespace Dbsql.L5.Parse
open Dbsql.L1

/-- The loop that copies. -/
def quoteLoop : Bytes → Bytes
  | [] => []
  | c :: s => if c = 39 then c :: 39 :: quoteLoop s else c :: quoteLoop s

/-- The size of the buffer. -/
def quoteSize (s : Bytes) : Nat := s.length + (s.filter (· = 39)).length + 3

/-- `__quote_func` (sql_fns.c:469-502) of one argument. -/
def quoteFunc : Option Bytes → Bytes
  | none => ascii "NULL"
  | some s => if strIsNumeric s then s else 39 :: (quoteLoop s ++ [39])

/-- The scanner takes a text as one number. -/
def IsNumber (w : Bytes) : Prop := ((getToken w).1 = .integer ∨ (getToken w).1 = .float) ∧ (getToken w).2 = w.length

/-- The scanner takes a text as a literal, whose value is `s`. -/
inductive LiteralOf (s : Bytes) : Bytes → Prop
  | number : IsNumber s → LiteralOf s s
  | signed (c : UInt8) (z : Bytes) : s = c :: z → getToken s = (.minus, 1) ∨ getToken s = (.plus, 1) →
      IsNumber z → LiteralOf s s
  | string (w : Bytes) : getToken w = (.string, w.length) → strUnquote w = s → LiteralOf s w

/-! ## Strings -/

theorem quoteLoop_eq (s : Bytes) : quoteLoop s = double 39 s := by
  induction s with
  | nil => rfl
  | cons c s ih =>
    rw [quoteLoop, double_cons, ih]
    split
    · rename_i hc
      rw [hc]
    · rfl

theorem quoteLoop_length (s : Bytes) : (quoteLoop s).length = s.length + (s.filter (· = 39)).length := by
  induction s with
  | nil => rfl
  | cons c s ih =>
    rw [quoteLoop, List.filter_cons]
    by_cases hc : c = 39
    · rw [if_pos hc, if_pos (decide_eq_true hc)]
      simp only [List.length_cons]
      omega
    · rw [if_neg hc, if_neg (by simpa using hc)]
      simp only [List.length_cons]
      omega

/-- The buffer holds the text and its terminator. -/
theorem quoteFunc_fits (s : Bytes) : (39 :: (quoteLoop s ++ [39])).length + 1 = quoteSize s := by
  rw [quoteSize, List.length_cons, List.length_append, quoteLoop_length]
  rfl

/-- The scanner of strings goes to the closing delimiter. -/
theorem stringLoop_closed (d : UInt8) (s rest : Bytes) (h : ∀ r, rest ≠ d :: r) :
    stringLoop d (double d s ++ d :: rest) = (double d s ++ [d]).length := by
  induction s with
  | nil =>
    cases rest with
    | nil => rfl
    | cons c rest =>
      have hc : c ≠ d := fun hc => h rest (hc ▸ rfl)
      change stringLoop d (d :: c :: rest) = 1
      rw [stringLoop, if_pos rfl, if_neg hc]
  | cons c s ih =>
    obtain ⟨b, rest', hrest⟩ : ∃ b rest', double d s ++ d :: rest = b :: rest' :=
      List.exists_cons_of_ne_nil (List.append_ne_nil_of_right_ne_nil _ (List.cons_ne_nil d rest))
    rw [double_cons]
    split
    · rw [List.cons_append, List.cons_append, stringLoop, if_pos rfl, if_pos rfl, ih]
      simp only [List.length_append, List.length_cons]
      omega
    · rename_i hc
      rw [List.cons_append, hrest, stringLoop, if_neg hc, ← hrest, ih]
      simp only [List.length_append, List.length_cons]
      omega

theorem stringLoop_double (d : UInt8) (s : Bytes) :
    stringLoop d (double d s ++ [d]) = (double d s ++ [d]).length :=
  stringLoop_closed d s [] nofun

theorem mem_of_mem_double {q b : UInt8} {s : Bytes} (hb : b ≠ q) (h : b ∈ double q s) : b ∈ s := by
  obtain ⟨c, hc, hmem⟩ := List.mem_flatMap.1 h
  split at hmem
  · rcases List.mem_cons.1 hmem with h | hmem
    · exact absurd h hb
    · exact absurd (List.mem_singleton.1 hmem) hb
  · exact List.mem_singleton.1 hmem ▸ hc

/-! ## Numbers -/

section
variable {z : Bytes} {i : Nat}

theorem getToken_minus (h : byteAt z 0 ≠ 45) : getToken (45 :: z) = (.minus, 1) := by
  unfold getToken
  dsimp only
  rw [show byteAt (45 :: z) 0 = 45 from rfl, if_neg (by decide), if_pos rfl,
    if_neg (show byteAt (45 :: z) 1 ≠ 45 from h)]

theorem byteAt_eq_peek (z : Bytes) (i : Nat) : byteAt z i = peek (z.drop i) := by
  rw [byteAt, peek, List.getD_eq_getElem?_getD, List.headD_eq_head?_getD, List.head?_drop]

theorem drop_digits (z : Bytes) (i : Nat) : z.drop (i + digits z i) = skipDigits (z.drop i) := by
  have h := congrArg (List.drop ((z.drop i).takeWhile isdigit).length)
    (List.takeWhile_append_dropWhile (p := isdigit) (l := z.drop i))
  rw [List.drop_left] at h
  rw [← List.drop_drop, digits, ← h]
  rfl

/-- Digits after a digit. -/
theorem skipDigits_tail {y : Bytes} (h : isdigit (peek y) = true) :
    skipDigits y = skipDigits y.tail := by
  cases y with
  | nil => rfl
  | cons c y => exact List.dropWhile_cons_of_pos h

/-- The digits after two bytes, of which the second is the first digit. -/
theorem drop_two_digits (h : isdigit (byteAt z (i + 1)) = true) :
    z.drop (i + 2 + digits z (i + 2)) = skipDigits (z.drop i).tail := by
  rw [byteAt_eq_peek] at h
  rw [drop_digits, List.tail_drop, skipDigits_tail h, List.tail_drop]

/-- Where the fraction ends. -/
def fracEnd (z : Bytes) (i : Nat) : Nat :=
  if byteAt z i = 46 ∧ isdigit (byteAt z (i + 1)) then i + 2 + digits z (i + 2) else i

/-- Where the exponent ends. -/
def expEnd (z : Bytes) (i : Nat) : Nat :=
  if (byteAt z i = 101 ∨ byteAt z i = 69) ∧ (isdigit (byteAt z (i + 1)) ∨
      (byteAt z (i + 1) = 43 ∨ byteAt z (i + 1) = 45) ∧ isdigit (byteAt z (i + 2))) then
    i + 2 + digits z (i + 2)
  else i

theorem getNumber_snd (z : Bytes) : (getNumber z).2 = expEnd z (fracEnd z (1 + digits z 1)) := by
  unfold getNumber fracEnd
  dsimp only
  by_cases hf : byteAt z (1 + digits z 1) = 46 ∧ isdigit (byteAt z (1 + digits z 1 + 1)) = true
  · simp only [if_pos hf]
    exact apply_ite Prod.snd ..
  · simp only [if_neg hf]
    exact apply_ite Prod.snd ..

theorem getNumber_fst (z : Bytes) : (getNumber z).1 = .integer ∨ (getNumber z).1 = .float := by
  unfold getNumber
  dsimp only
  by_cases hf : byteAt z (1 + digits z 1) = 46 ∧ isdigit (byteAt z (1 + digits z 1 + 1)) = true
  · simp only [if_pos hf]
    split
    · exact .inr rfl
    · exact .inr rfl
  · simp only [if_neg hf]
    split
    · exact .inr rfl
    · exact .inl rfl

theorem fracEnd_drop {y : Bytes} (h : skipFraction (z.drop i) = some y) :
    z.drop (fracEnd z i) = y := by
  unfold skipFraction at h
  rw [← byteAt_eq_peek, List.tail_drop, ← byteAt_eq_peek] at h
  unfold fracEnd
  by_cases hp : byteAt z i = 46
  · rw [if_pos hp] at h
    by_cases hd : L1.isdigit (byteAt z (i + 1)) = true
    · rw [if_pos hd, Option.some.injEq] at h
      rw [if_pos ⟨hp, hd⟩, drop_two_digits hd, List.tail_drop, h]
    · rw [if_neg hd] at h
      cases h
  · rw [if_neg hp, Option.some.injEq] at h
    rw [if_neg fun hc => hp hc.1, h]

theorem expEnd_drop {y : Bytes} (h : skipExponent (z.drop i) = some y) : z.drop (expEnd z i) = y := by
  unfold skipExponent at h
  rw [← byteAt_eq_peek, List.tail_drop] at h
  unfold expEnd
  by_cases hp : byteAt z i = 101 ∨ byteAt z i = 69
  · rw [if_pos hp] at h
    unfold skipSign at h
    rw [← byteAt_eq_peek] at h
    by_cases hs : byteAt z (i + 1) = 45 ∨ byteAt z (i + 1) = 43
    · rw [if_pos hs, List.tail_drop, ← byteAt_eq_peek] at h
      by_cases hd : L1.isdigit (byteAt z (i + 2)) = true
      · rw [if_pos hd, Option.some.injEq] at h
        rw [if_pos ⟨hp, .inr ⟨hs.symm, hd⟩⟩, drop_digits, ← h]
      · rw [if_neg hd] at h
        cases h
    · rw [if_neg hs, ← byteAt_eq_peek] at h
      by_cases hd : L1.isdigit (byteAt z (i + 1)) = true
      · rw [if_pos hd, Option.some.injEq] at h
        rw [if_pos ⟨hp, .inl hd⟩, drop_two_digits hd, List.tail_drop, ← h]
      · rw [if_neg hd] at h
        cases h
  · rw [if_neg hp, Option.some.injEq] at h
    rw [if_neg fun hc => hp hc.1, h]

/-- A byte that is a digit begins a number. -/
theorem getToken_digit {c : UInt8} (hc : isdigit c = true) (z : Bytes) :
    getToken (c :: z) = getNumber (c :: z) := by
  obtain ⟨-, h32, h13, h9, h10, h12, h47, h45, -, h34, h39⟩ := idChar_cases (idChar_of_isdigit hc)
  have hop : c ≠ 61 ∧ c ≠ 60 ∧ c ≠ 62 ∧ c ≠ 33 ∧ c ≠ 124 := by
    refine ⟨?_, ?_, ?_, ?_, ?_⟩ <;>
    · rintro rfl
      revert hc
      decide
  have hb : byteAt (c :: z) 0 = c := rfl
  unfold getToken
  dsimp only
  rw [hb, if_neg (by simp [h32, h9, h10, h12, h13]), if_neg h45, if_neg h47, if_neg hop.1,
    if_neg hop.2.1,
    if_neg hop.2.2.1, if_neg hop.2.2.2.1, if_neg hop.2.2.2.2, if_neg (by simp [h39, h34]), if_pos hc]

/-- A text that is a number without a sign is one token. -/
theorem isNumber_of_numeric {y rest : Bytes} (h0 : 0 ∉ z) (hd : isdigit (peek z) = true)
    (hf : skipFraction (skipDigits z) = some y) (he : skipExponent y = some rest)
      (hend : peek rest = 0) :
    IsNumber z := by
  obtain ⟨c, z', rfl⟩ : ∃ c z', z = c :: z' := by
    cases z with
    | nil => exact absurd hd (by decide)
    | cons c z' => exact ⟨c, z', rfl⟩
  have hc : isdigit c = true := hd
  rw [IsNumber, getToken_digit hc]
  refine ⟨getNumber_fst _, Nat.le_antisymm (getNumber_le (List.cons_ne_nil c z')) ?_⟩
  have h1 : (c :: z').drop (1 + digits (c :: z') 1) = skipDigits (c :: z') := by
    rw [drop_digits, skipDigits_tail hd]
    rfl
  have hdrop : (c :: z').drop (getNumber (c :: z')).2 = rest := by
    rw [getNumber_snd]
    apply expEnd_drop
    rw [fracEnd_drop (h1 ▸ hf)]
    exact he
  cases rest with
  | nil => exact List.drop_eq_nil_iff.1 hdrop
  | cons b rest =>
    have hb : b = 0 := hend
    exact absurd (List.mem_of_mem_drop (hdrop ▸ List.mem_cons_self)) (hb ▸ h0)

end

/-! ## Literals -/

/-- **The text of `quote` is a literal for its argument.** -/
theorem quoteFunc_literal {s : Bytes} (h0 : 0 ∉ s) : LiteralOf s (quoteFunc (some s)) := by
  rw [quoteFunc]
  by_cases hn : strIsNumeric s = true
  · rw [if_pos hn]
    unfold strIsNumeric at hn
    dsimp only at hn
    by_cases hd : L1.isdigit (peek (skipSign s)) = true
    · rw [if_pos hd] at hn
      cases hfe : (skipFraction (skipDigits (skipSign s))).bind skipExponent with
      | none =>
        rw [hfe] at hn
        cases hn
      | some rest =>
        obtain ⟨y, hf, he⟩ := Option.bind_eq_some_iff.1 hfe
        rw [hfe] at hn
        have hend : peek rest = 0 := of_decide_eq_true hn
        by_cases hs : peek s = 45 ∨ peek s = 43
        · -- the sign is a token of its own
          rw [skipSign, if_pos hs] at hd hf
          obtain ⟨c, z, rfl⟩ : ∃ c z, s = c :: z := by
            cases s with
            | nil => exact absurd hs (by decide)
            | cons c z => exact ⟨c, z, rfl⟩
          rw [List.mem_cons, not_or] at h0
          refine .signed c z rfl ?_ (isNumber_of_numeric h0.2 hd hf he hend)
          rcases hs with hc | hc
          · have hc : c = 45 := hc
            have h45 : byteAt z 0 ≠ 45 := by
              intro h
              rw [byteAt_eq_peek, List.drop_zero] at h
              rw [List.tail_cons, h] at hd
              cases hd
            exact .inl (hc ▸ (getToken_minus h45))
          · have hc : c = 43 := hc
            exact .inr (hc ▸ rfl)
        · rw [skipSign, if_neg hs] at hd hf
          exact .number (isNumber_of_numeric h0 hd hf he hend)
    · rw [if_neg hd] at hn
      cases hn
  · rw [if_neg hn]
    refine .string _ ?_ ?_
    · rw [quoteLoop_eq, getToken_quote (.inl rfl), stringLoop_double, List.length_cons, Nat.add_comm]
    · rw [quoteLoop_eq]
      refine strUnquote_closed (q := 39) (.inl rfl) fun hmem => ?_
      rcases List.mem_cons.1 hmem with h | hmem
      · cases h
      · rcases List.mem_append.1 hmem with hmem | hmem
        · exact h0 (mem_of_mem_double (by decide) hmem)
        · cases List.mem_singleton.1 hmem

/-- The argument of `quote` is a text or NULL; the text of NULL is the keyword. -/
theorem quoteFunc_null : getToken (quoteFunc none) =
    (.null, (quoteFunc none).length) := by decide +kernel

theorem quoteFunc_literal_quote : LiteralOf (ascii "it's") (quoteFunc (some (ascii "it's"))) :=
  quoteFunc_literal (by decide)

end Dbsql.L5.Parse
