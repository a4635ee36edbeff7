import Mathlib.Data.List.TakeWhile
import Dbsql.L5Parse.Scan
/-!
# The tokens of a text that is cut off (sql_tokenize.c:242-452)

`__get_token` looks ahead by a few bytes, but never beyond white space or a semicolon. So the
tokens of a text that is cut off behind such a byte are those of the whole text up to there, with
the last one cut short.

Results:
* `getToken_take`: the token at the beginning.
* `tokens_take`: all of them.
-/
namespace Dbsql.L5.Parse
open Dbsql.L1

/-- White space or a semicolon. -/
def isStop (c : UInt8) : Bool := c = 59 || isspace c

/-! ## The loops -/

theorem byteAt_take {z : Bytes} {m i : Nat} (h : i < m) : byteAt (z.take m) i = byteAt z i := by
  rw [byteAt, byteAt, List.getD_eq_getElem?_getD, List.getD_eq_getElem?_getD, List.getElem?_take_of_lt h]

theorem commentLoop_take (z : Bytes) : ∀ (p : UInt8) (k : Nat),
    commentLoop p (z.take k) = min k (commentLoop p z) := by
  induction z with
  | nil =>
    intro p k
    rw [List.take_nil, commentLoop, Nat.min_zero]
  | cons c z ih =>
    intro p k
    cases k with
    | zero => rw [List.take_zero, commentLoop, Nat.zero_min]
    | succ k =>
      rw [List.take_succ_cons, commentLoop, commentLoop, ih]
      split <;> omega

theorem bracketLoop_take (z : Bytes) : ∀ (p : UInt8) (k : Nat),
    bracketLoop p (z.take k) = min k (bracketLoop p z) := by
  induction z with
  | nil =>
    intro p k
    rw [List.take_nil, bracketLoop, Nat.min_zero]
  | cons c z ih =>
    intro p k
    cases k with
    | zero => rw [List.take_zero, bracketLoop, Nat.zero_min]
    | succ k =>
      rw [List.take_succ_cons, bracketLoop, bracketLoop, ih]
      split <;> omega

/-- Where a doubled quote is cut in two the string ends with the first. -/
theorem stringLoop_take (d : UInt8) (z : Bytes) : ∀ k : Nat,
    stringLoop d (z.take k) = min k (stringLoop d z) := by
  induction z using stringLoop.induct d with
  | case1 =>
    intro k
    rw [List.take_nil, stringLoop, Nat.min_zero]
  | case2 c =>
    intro k
    cases k with
    | zero => rw [List.take_zero, stringLoop, Nat.zero_min]
    | succ k =>
      rw [List.take_succ_cons, List.take_nil, stringLoop]
      omega
  | case3 z ih =>
    intro k
    rcases k with _ | _ | k
    · rw [List.take_zero, stringLoop, Nat.zero_min]
    · rw [List.take_succ_cons, List.take_zero, stringLoop, stringLoop, if_pos rfl, if_pos rfl]
      omega
    · rw [List.take_succ_cons, List.take_succ_cons, stringLoop, stringLoop, if_pos rfl, if_pos rfl,
        if_pos rfl, if_pos rfl, ih]
      omega
  | case4 c' z h =>
    intro k
    rcases k with _ | _ | k
    · rw [List.take_zero, stringLoop, Nat.zero_min]
    · rw [List.take_succ_cons, List.take_zero, stringLoop, stringLoop, if_pos rfl, if_neg h]
      omega
    · rw [List.take_succ_cons, List.take_succ_cons, stringLoop, stringLoop, if_pos rfl, if_neg h,
        if_pos rfl, if_neg h]
      omega
  | case5 c c' z h ih =>
    intro k
    rcases k with _ | _ | k
    · rw [List.take_zero, stringLoop, Nat.zero_min]
    · rw [List.take_succ_cons, List.take_zero, stringLoop, stringLoop, if_neg h]
      omega
    · have hcut := ih (k + 1)
      rw [List.take_succ_cons] at hcut
      rw [List.take_succ_cons, List.take_succ_cons, stringLoop, stringLoop, if_neg h, if_neg h, hcut]
      omega

theorem takeWhile_take_length (p : UInt8 → Bool) (z : Bytes) (k : Nat) :
    ((z.take k).takeWhile p).length = min k (z.takeWhile p).length := by
  rw [← List.take_takeWhile, List.length_take]

/-! ## Numbers -/

theorem isStop_cases {c : UInt8} (h : isStop c = true) :
    c = 59 ∨ c = 32 ∨ c = 9 ∨ c = 10 ∨ c = 11 ∨ c = 12 ∨ c = 13 := by
  simp only [isStop, isspace, Bool.or_eq_true, Bool.and_eq_true, decide_eq_true_eq] at h
  rcases h with h | h | ⟨h1, h2⟩
  · exact .inl h
  · exact .inr (.inl h)
  · have h1' : 9 ≤ c.toNat := h1
    have h2' : c.toNat ≤ 13 := h2
    simp only [← UInt8.toNat_inj]
    have : c.toNat = 9 ∨ c.toNat = 10 ∨ c.toNat = 11 ∨ c.toNat = 12 ∨ c.toNat = 13 := by omega
    exact .inr (.inr this)

theorem isStop_isdigit {c : UInt8} (h : isStop c = true) : isdigit c = false := by
  rcases isStop_cases h with rfl | rfl | rfl | rfl | rfl | rfl | rfl <;> rfl

section
variable {z : Bytes} {m i : Nat}

/-- A byte before the stop that is none has one behind it. -/
theorem lt_of_not_stop (hstop : isStop (byteAt z (m - 1)) = true) (hi : i < m) (h : isStop (byteAt z i) = false) :
    i + 1 < m := by
  by_contra hno
  have heq : m - 1 = i := by omega
  rw [heq, h] at hstop
  cases hstop

theorem lt_of_digit (hstop : isStop (byteAt z (m - 1)) = true) (hi : i < m) (h : isdigit (byteAt z i) = true) :
    i + 1 < m := by
  refine lt_of_not_stop hstop hi (Bool.eq_false_iff.2 fun hs => ?_)
  rw [isStop_isdigit hs] at h
  cases h

/-- What `takeWhile` keeps meets its test. -/
theorem getElem?_takeWhile (p : UInt8 → Bool) (l : Bytes) : ∀ {k : Nat}, k < (l.takeWhile p).length →
    ∃ c, l[k]? = some c ∧ p c = true := by
  induction l with
  | nil => exact fun h => absurd h (Nat.not_lt_zero _)
  | cons c l ih =>
    intro k hk
    by_cases hc : p c = true
    · rw [List.takeWhile_cons_of_pos hc] at hk
      cases k with
      | zero => exact ⟨c, rfl, hc⟩
      | succ k => exact ih (Nat.lt_of_succ_lt_succ hk)
    · rw [List.takeWhile_cons_of_neg hc] at hk
      exact absurd hk (Nat.not_lt_zero _)

/-- What a scan takes whose test no stop meets ends before the stop. -/
theorem lt_of_takeWhile {p : UInt8 → Bool} (hp : ∀ c, isStop c = true → p c = false)
    (hstop : isStop (byteAt z (m - 1)) = true) (hi : i < m) : i + ((z.drop i).takeWhile p).length < m := by
  by_contra hno
  obtain ⟨c, hget, hc⟩ := getElem?_takeWhile p (z.drop i) (k := m - 1 - i) (by omega)
  have hbyte : byteAt z (m - 1) = c := by
    rw [List.getElem?_drop, Nat.add_sub_cancel' (by omega)] at hget
    rw [byteAt, List.getD_eq_getElem?_getD, hget, Option.getD_some]
  rw [hp c (hbyte ▸ hstop)] at hc
  cases hc

/-- Digits end before the stop. -/
theorem digits_take (hstop : isStop (byteAt z (m - 1)) = true) (hi : i < m) :
    i + digits z i < m ∧ digits (z.take m) i = digits z i := by
  have hlt : i + digits z i < m := lt_of_takeWhile (fun _ => isStop_isdigit) hstop hi
  refine ⟨hlt, ?_⟩
  rw [digits, List.drop_take, takeWhile_take_length]
  change min (m - i) (digits z i) = digits z i
  omega

/-- The test for a fraction. -/
theorem frac_take (hstop : isStop (byteAt z (m - 1)) = true) (hi : i < m) :
    ((byteAt (z.take m) i = 46 ∧ isdigit (byteAt (z.take m) (i + 1)) = true) ↔
      (byteAt z i = 46 ∧ isdigit (byteAt z (i + 1)) = true)) ∧
    ((byteAt z i = 46 ∧ isdigit (byteAt z (i + 1)) = true) → i + 2 < m) := by
  rw [byteAt_take hi]
  by_cases hp : byteAt z i = 46
  · have h1 := lt_of_not_stop hstop hi (by rw [hp]; rfl)
    rw [byteAt_take h1]
    exact ⟨Iff.rfl, fun h => lt_of_digit hstop h1 h.2⟩
  · exact ⟨iff_of_false (fun h => hp h.1) fun h => hp h.1, fun h => absurd h.1 hp⟩

/-- The test for an exponent. -/
theorem exp_take (hstop : isStop (byteAt z (m - 1)) = true) (hi : i < m) :
    (((byteAt (z.take m) i = 101 ∨ byteAt (z.take m) i = 69) ∧ (isdigit (byteAt (z.take m) (i + 1)) = true ∨
        (byteAt (z.take m) (i + 1) = 43 ∨ byteAt (z.take m) (i + 1) = 45) ∧
          isdigit (byteAt (z.take m) (i + 2)) = true)) ↔
      ((byteAt z i = 101 ∨ byteAt z i = 69) ∧ (isdigit (byteAt z (i + 1)) = true ∨
        (byteAt z (i + 1) = 43 ∨ byteAt z (i + 1) = 45) ∧ isdigit (byteAt z (i + 2)) = true))) ∧
    (((byteAt z i = 101 ∨ byteAt z i = 69) ∧ (isdigit (byteAt z (i + 1)) = true ∨
        (byteAt z (i + 1) = 43 ∨ byteAt z (i + 1) = 45) ∧ isdigit (byteAt z (i + 2)) = true)) → i + 2 < m) := by
  rw [byteAt_take hi]
  by_cases hp : byteAt z i = 101 ∨ byteAt z i = 69
  · have h1 : i + 1 < m := lt_of_not_stop hstop hi (by rcases hp with hp | hp <;> rw [hp] <;> rfl)
    rw [byteAt_take h1]
    by_cases hsign : byteAt z (i + 1) = 43 ∨ byteAt z (i + 1) = 45
    · have h2 : i + 2 < m := lt_of_not_stop hstop h1 (by rcases hsign with hs | hs <;> rw [hs] <;> rfl)
      rw [byteAt_take h2]
      exact ⟨Iff.rfl, fun _ => h2⟩
    · refine ⟨?_, fun h => lt_of_digit hstop h1 (h.2.resolve_right fun hc => hsign hc.1)⟩
      have hnone : ∀ q : Prop, isdigit (byteAt z (i + 1)) = true ∨
          (byteAt z (i + 1) = 43 ∨ byteAt z (i + 1) = 45) ∧ q ↔ isdigit (byteAt z (i + 1)) = true :=
        fun _ => or_iff_left fun hc => hsign hc.1
      rw [hnone, hnone]
  · exact ⟨iff_of_false (fun h => hp h.1) fun h => hp h.1, fun h => absurd h.1 hp⟩

end

/-- A number is not cut: no byte of it is a stop, nor one that it looks ahead to. -/
theorem getNumber_take {z : Bytes} {m : Nat} (hm : 0 < m) (hstop : isStop (byteAt z (m - 1)) = true)
    (hdigit : isdigit (byteAt z 0) = true) : getNumber (z.take m) = getNumber z ∧ (getNumber z).2 < m := by
  obtain ⟨hint, hdigits⟩ := digits_take hstop (lt_of_digit hstop hm hdigit)
  -- from where the fraction ends, the exponent
  have hexp : ∀ t : Tk × Nat, t.2 < m →
      (if (byteAt (z.take m) t.2 = 101 ∨ byteAt (z.take m) t.2 = 69) ∧
          (isdigit (byteAt (z.take m) (t.2 + 1)) = true ∨
            (byteAt (z.take m) (t.2 + 1) = 43 ∨ byteAt (z.take m) (t.2 + 1) = 45) ∧
              isdigit (byteAt (z.take m) (t.2 + 2)) = true) then
        (Tk.float, t.2 + 2 + digits (z.take m) (t.2 + 2)) else t) =
      (if (byteAt z t.2 = 101 ∨ byteAt z t.2 = 69) ∧ (isdigit (byteAt z (t.2 + 1)) = true ∨
          (byteAt z (t.2 + 1) = 43 ∨ byteAt z (t.2 + 1) = 45) ∧ isdigit (byteAt z (t.2 + 2)) = true) then
        (Tk.float, t.2 + 2 + digits z (t.2 + 2)) else t) ∧
      (if (byteAt z t.2 = 101 ∨ byteAt z t.2 = 69) ∧ (isdigit (byteAt z (t.2 + 1)) = true ∨
          (byteAt z (t.2 + 1) = 43 ∨ byteAt z (t.2 + 1) = 45) ∧ isdigit (byteAt z (t.2 + 2)) = true) then
        (Tk.float, t.2 + 2 + digits z (t.2 + 2)) else t).2 < m := by
    intro t ht
    obtain ⟨hiff, hlt⟩ := exp_take hstop ht
    simp only [hiff]
    split
    · rename_i h
      obtain ⟨hend, hsame⟩ := digits_take hstop (hlt h)
      exact ⟨by rw [hsame], hend⟩
    · exact ⟨rfl, ht⟩
  obtain ⟨hiff, hlt⟩ := frac_take hstop hint
  unfold getNumber
  dsimp only
  rw [hdigits]
  simp only [hiff]
  split
  · rename_i h
    obtain ⟨hend, hsame⟩ := digits_take hstop (hlt h)
    rw [hsame]
    exact hexp (Tk.float, _) hend
  · exact hexp (Tk.integer, _) hint

/-! ## A token -/

section
variable {z : Bytes} {m : Nat}

/-- The bytes behind the first `k` that a scan with a test takes. -/
theorem takeWhile_drop_take (p : UInt8 → Bool) {k : Nat} (hk : k ≤ m) :
    k + (((z.take m).drop k).takeWhile p).length = min m (k + ((z.drop k).takeWhile p).length) := by
  rw [List.drop_take, takeWhile_take_length]
  omega

/-- No stop is part of a word. -/
theorem isStop_word {c : UInt8} (h : isStop c = true) : (128 ≤ c || idChar c) = false := by
  rcases isStop_cases h with rfl | rfl | rfl | rfl | rfl | rfl | rfl <;> rfl

/-- A word has the code that its bytes give it. -/
theorem getKeywordCode_take {n : Nat} (hn : n < m) (hle : n ≤ z.length) (h0 : 0 ∉ z.take n) :
    getKeywordCode (z.take m) n = getKeywordCode z n := by
  have htake : (z.take m).take n = z.take n := by
    rw [List.take_take, Nat.min_eq_left hn.le]
  have hlen : n ≤ (z.take m).length := by
    rw [List.length_take]
    omega
  rw [getKeywordCode_eq hlen (htake ▸ h0), getKeywordCode_eq hle h0, htake]

theorem zero_notMem_word (h : (128 ≤ byteAt z 0 || idChar (byteAt z 0)) = true) :
    0 ∉ z.take (1 + ((z.drop 1).takeWhile fun c => 128 ≤ c || idChar c).length) := by
  have hzero : ∀ c : UInt8, (128 ≤ c || idChar c) = true → c ≠ 0 := by
    rintro c hc rfl
    revert hc
    decide
  cases z with
  | nil => exact List.not_mem_nil
  | cons c z =>
    rw [List.drop_succ_cons, List.drop_zero, Nat.add_comm, List.take_succ_cons,
      ← List.prefix_iff_eq_take.1 (List.takeWhile_prefix _), List.mem_cons, not_or]
    refine ⟨(hzero c h).symm, fun hmem => ?_⟩
    have h0 := List.mem_takeWhile_imp hmem
    exact hzero 0 h0 rfl

/-- **A token of a text that is cut off behind a stop.** -/
theorem getToken_take (hm : 0 < m) (hstop : isStop (byteAt z (m - 1)) = true) :
    getToken (z.take m) = ((getToken z).1, min m (getToken z).2) := by
  have h0 : byteAt (z.take m) 0 = byteAt z 0 := byteAt_take hm
  have hone : min m 1 = 1 := by omega
  -- the first byte is the stop, or there is a second one
  have htwo : isStop (byteAt z 0) = false → min m 2 = 2 ∧ byteAt (z.take m) 1 = byteAt z 1 := by
    intro h
    have := lt_of_not_stop hstop hm h
    exact ⟨by omega, byteAt_take this⟩
  unfold getToken
  dsimp only
  rw [h0]
  by_cases hspace : byteAt z 0 = 32 ∨ byteAt z 0 = 9 ∨ byteAt z 0 = 10 ∨ byteAt z 0 = 12 ∨ byteAt z 0 = 13
  · rw [if_pos hspace, if_pos hspace, takeWhile_drop_take _ hm]
  rw [if_neg hspace, if_neg hspace]
  by_cases hminus : byteAt z 0 = 45
  · obtain ⟨h2, h1⟩ := htwo (by rw [hminus]; rfl)
    rw [if_pos hminus, if_pos hminus, h1]
    split
    · rw [takeWhile_drop_take _ (by omega)]
    · rw [hone]
  rw [if_neg hminus, if_neg hminus]
  by_cases hslash : byteAt z 0 = 47
  · obtain ⟨h2, h1⟩ := htwo (by rw [hslash]; rfl)
    rw [if_pos hslash, if_pos hslash, h1]
    by_cases hstar : byteAt z 1 = 42
    · have h3 : 2 < m := lt_of_not_stop hstop (by omega) (by rw [hstar]; rfl)
      rw [byteAt_take h3]
      split
      · rw [hone]
      · rw [List.drop_take, commentLoop_take]
        congr 1
        omega
    · rw [if_pos (.inl hstar), if_pos (.inl hstar), hone]
  rw [if_neg hslash, if_neg hslash]
  by_cases heq : byteAt z 0 = 61
  · obtain ⟨h2, h1⟩ := htwo (by rw [heq]; rfl)
    rw [if_pos heq, if_pos heq, h1]
    split
    · rw [h2]
    · rw [hone]
  rw [if_neg heq, if_neg heq]
  by_cases hlt : byteAt z 0 = 60
  · obtain ⟨h2, h1⟩ := htwo (by rw [hlt]; rfl)
    rw [if_pos hlt, if_pos hlt, h1]
    repeat' split
    all_goals first | rw [h2] | rw [hone]
  rw [if_neg hlt, if_neg hlt]
  by_cases hgt : byteAt z 0 = 62
  · obtain ⟨h2, h1⟩ := htwo (by rw [hgt]; rfl)
    rw [if_pos hgt, if_pos hgt, h1]
    repeat' split
    all_goals first | rw [h2] | rw [hone]
  rw [if_neg hgt, if_neg hgt]
  by_cases hbang : byteAt z 0 = 33
  · obtain ⟨h2, h1⟩ := htwo (by rw [hbang]; rfl)
    rw [if_pos hbang, if_pos hbang, h1]
    split <;> rw [h2]
  rw [if_neg hbang, if_neg hbang]
  by_cases hbar : byteAt z 0 = 124
  · obtain ⟨h2, h1⟩ := htwo (by rw [hbar]; rfl)
    rw [if_pos hbar, if_pos hbar, h1]
    split
    · rw [hone]
    · rw [h2]
  rw [if_neg hbar, if_neg hbar]
  by_cases hquote : byteAt z 0 = 39 ∨ byteAt z 0 = 34
  · rw [if_pos hquote, if_pos hquote, List.drop_take, stringLoop_take]
    congr 1
    omega
  rw [if_neg hquote, if_neg hquote]
  by_cases hdigit : isdigit (byteAt z 0) = true
  · obtain ⟨hnumber, hend⟩ := getNumber_take hm hstop hdigit
    rw [if_pos hdigit, if_pos hdigit, hnumber, Nat.min_eq_right hend.le]
  rw [if_neg hdigit, if_neg hdigit]
  by_cases hbracket : byteAt z 0 = 91
  · rw [if_pos hbracket, if_pos hbracket, List.drop_take, bracketLoop_take]
    congr 1
    omega
  rw [if_neg hbracket, if_neg hbracket]
  cases hbyte : oneByte (byteAt z 0) with
  | some tk =>
    dsimp only
    rw [hone]
  | none =>
    dsimp only
    by_cases hid : byteAt z 0 < 128 ∧ ¬ idChar (byteAt z 0) = true
    · rw [if_pos hid, if_pos hid, hone]
    · have hword : (128 ≤ byteAt z 0 || idChar (byteAt z 0)) = true := by
        by_contra hno
        rw [Bool.or_eq_true, not_or, decide_eq_true_eq] at hno
        exact hid ⟨UInt8.not_le.1 hno.1, hno.2⟩
      have hfirst : isStop (byteAt z 0) = false := Bool.eq_false_iff.2 fun hs => by
        rw [isStop_word hs] at hword
        cases hword
      have hlt := lt_of_takeWhile (fun _ => isStop_word) hstop (lt_of_not_stop hstop hm hfirst)
      have hlen : m - 1 < z.length := lt_length_of_byteAt fun h => by
        rw [h] at hstop
        cases hstop
      rw [if_neg hid, if_neg hid, takeWhile_drop_take _ hm, Nat.min_eq_right hlt.le,
        getKeywordCode_take hlt (by omega) (zero_notMem_word hword)]

end

/-! ## All the tokens -/

/-- The tokens up to a place, the last one cut short. -/
def cutTokens : List (Tk × Bytes) → Nat → List (Tk × Bytes)
  | [], _ => []
  | _, 0 => []
  | (tk, w) :: ts, m => (tk, w.take m) :: cutTokens ts (m - w.length)

theorem cutTokens_zero (ts : List (Tk × Bytes)) : cutTokens ts 0 = [] := by
  cases ts <;> rfl

theorem cutTokens_cons {m : Nat} (hm : 0 < m) (t : Tk × Bytes) (ts : List (Tk × Bytes)) :
    cutTokens (t :: ts) m = (t.1, t.2.take m) :: cutTokens ts (m - t.2.length) := by
  cases m with
  | zero => exact absurd hm (lt_irrefl 0)
  | succ m => rfl

theorem byteAt_drop (z : Bytes) (i j : Nat) : byteAt (z.drop i) j = byteAt z (i + j) := by
  rw [byteAt, byteAt, List.getD_eq_getElem?_getD, List.getD_eq_getElem?_getD, List.getElem?_drop]

/-- A token of type `TK_SEMI` is a semicolon. -/
theorem semi_iff (z : Bytes) : (getToken z).1 = .semi ↔ byteAt z 0 = 59 := by
  constructor
  · intro h
    by_contra hsemi
    suffices hP : ∀ P : Tk × Nat → Prop, (∀ tk n, tk ≠ .semi → P (tk, n)) → P (getToken z) from
      hP (fun t => t.1 ≠ .semi) (fun _ _ h => h) h
    intro P hP
    have hword : ∀ n, getKeywordCode z n ≠ .semi := getKeywordCode_ne (by decide) (by decide) z
    have hnumber : P (getNumber z) := by
      unfold getNumber
      dsimp only
      repeat' refine iteInduction (fun _ => ?_) fun _ => ?_
      all_goals exact hP _ _ nofun
    unfold getToken
    dsimp only
    repeat' refine iteInduction (fun _ => ?_) fun _ => ?_
    all_goals first
      | exact hnumber
      | (refine hP _ _ fun h => ?_; cases h)
      | skip
    cases htk : oneByte (byteAt z 0) with
    | some tk =>
      refine hP _ _ fun h => ?_
      subst h
      unfold oneByte at htk
      split at htk <;> first | exact hsemi ‹_› | cases htk
    | none => exact iteInduction (fun _ => hP _ _ nofun) fun _ => hP _ _ (hword _)
  · intro h
    unfold getToken
    dsimp only
    rw [h]
    rfl

/-- A token has a first byte, and it is a semicolon in one of type `TK_SEMI`. -/
theorem mem_tokens {t : Tk × Bytes} : ∀ {z : Bytes}, t ∈ tokens z →
    ∃ c w, t.2 = c :: w ∧ (t.1 = .semi ↔ c = 59) := by
  intro z
  induction hlen : z.length using Nat.strong_induction_on generalizing z with
  | _ len ih =>
    subst hlen
    intro h
    cases z with
    | nil => cases h
    | cons c z =>
      have hpos := getToken_pos (c :: z)
      rw [tokens_cons] at h
      rcases List.mem_cons.1 h with rfl | h
      · obtain ⟨n, hn⟩ : ∃ k, (getToken (c :: z)).2 = k + 1 := ⟨_, (Nat.sub_add_cancel hpos).symm⟩
        exact ⟨c, z.take n, by rw [hn, List.take_succ_cons], semi_iff (c :: z)⟩
      · refine ih _ ?_ rfl h
        rw [List.length_drop, List.length_cons]
        omega

/-- **The tokens of a text that is cut off behind a stop** are those of the whole text up to there. By
induction on the text behind the first token. -/
theorem tokens_take {z : Bytes} : ∀ {m : Nat}, 0 < m → isStop (byteAt z (m - 1)) = true →
    tokens (z.take m) = cutTokens (tokens z) m := by
  induction hlen : z.length using Nat.strong_induction_on generalizing z with
  | _ len ih =>
    subst hlen
    intro m hm hstop
    have hin : m - 1 < z.length := lt_length_of_byteAt fun h => by
      rw [h] at hstop
      cases hstop
    obtain ⟨c, z, rfl⟩ := List.exists_cons_of_length_pos (Nat.zero_lt_of_lt hin)
    obtain ⟨m, rfl⟩ : ∃ k, m = k + 1 := ⟨m - 1, by omega⟩
    have htoken := getToken_take hm hstop
    have hpos := getToken_pos (c :: z)
    have hcons : (c :: z).take (m + 1) = c :: z.take m := rfl
    rw [List.length_cons] at hin
    rw [hcons, tokens_cons, tokens_cons, cutTokens_cons hm, ← hcons, htoken]
    dsimp only
    rw [List.take_take, List.take_take, Nat.min_comm (min _ _), ← Nat.min_assoc, Nat.min_self, List.length_take,
      List.length_cons]
    congr 1
    rcases Nat.lt_or_ge (getToken (c :: z)).2 (m + 1) with hlt | hge
    · have hlast : byteAt ((c :: z).drop (getToken (c :: z)).2) (m + 1 - (getToken (c :: z)).2 - 1) =
          byteAt (c :: z) (m + 1 - 1) := by
        rw [byteAt_drop]
        congr 1
        omega
      have hshort : ((c :: z).drop (getToken (c :: z)).2).length < (c :: z).length := by
        rw [List.length_drop, List.length_cons]
        omega
      rw [Nat.min_eq_right hlt.le, List.drop_take, ih _ hshort rfl (by omega) (hlast ▸ hstop)]
      congr 1
      omega
    · rw [Nat.min_eq_left hge, List.drop_take, Nat.sub_self, List.take_zero, tokens_nil]
      have hnone : m + 1 - min (getToken (c :: z)).2 (z.length + 1) = 0 := by omega
      rw [hnone, cutTokens_zero]

end Dbsql.L5.Parse
