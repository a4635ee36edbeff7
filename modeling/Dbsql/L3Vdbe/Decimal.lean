import Dbsql.L3Vdbe.Value
import Mathlib.Data.List.TakeWhile
import Mathlib.Tactic.NormNum
import Mathlib.Tactic.Ring
/-!
# An `int` as a text

`__entity_as_string` prints an `int` with `%d`; `__dbsql_atoi`, `__dbsql_atof` and
`__str_is_numeric` read it again.

Results:
* `dbsqlAtoi_fmtD`: the number read is the one printed.
* `strIsNumeric_fmtD`, `dbsqlAtof_fmtD`: the text is a number, and on a machine that does not
  round it is read as that number.
-/
namespace Dbsql.L3
open Dbsql.Core Dbsql.L1

/-! ## Digits -/

/-- The decimal digits of a number. -/
def digits (n : Nat) : Bytes := (Nat.toDigits 10 n).map fun c => UInt8.ofNat c.toNat

theorem toNat_ofChar {c : Char} (h : c.isDigit = true) :
    (UInt8.ofNat c.toNat).toNat = c.toNat ∧ 48 ≤ c.toNat ∧ c.toNat ≤ 57 := by
  obtain ⟨h₁, h₂⟩ := Char.isDigit_iff_toNat.1 h
  have h₁ : 48 ≤ c.toNat := h₁
  have h₂ : c.toNat ≤ 57 := h₂
  refine ⟨?_, h₁, h₂⟩
  rw [UInt8.toNat_ofNat']
  omega

theorem isdigit_digits {n : Nat} {b : UInt8} (h : b ∈ digits n) : isdigit b = true := by
  obtain ⟨c, hc, rfl⟩ := List.mem_map.1 h
  obtain ⟨hn, h₁, h₂⟩ := toNat_ofChar (Nat.isDigit_of_mem_toDigits (by decide) (by decide) hc)
  simp only [isdigit, Bool.and_eq_true, decide_eq_true_eq, UInt8.le_iff_toNat_le, hn]
  exact ⟨h₁, h₂⟩

theorem digits_ne_nil (n : Nat) : digits n ≠ [] := by
  simp [digits, Nat.toDigits_ne_nil]

/-- Reading digits into an `int` is reading them modulo 2^32. -/
theorem foldl_read {cs : List Char} (h : ∀ c ∈ cs, c.isDigit = true) (v : Nat) :
    (cs.map fun c => UInt8.ofNat c.toNat).foldl
      (fun (v : CInt) c => v * 10 + BitVec.ofNat 32 c.toNat - 48) (BitVec.ofNat 32 v) =
        BitVec.ofNat 32 (Nat.ofDigitChars 10 cs v) := by
  induction cs generalizing v with
  | nil => simp
  | cons c cs ih =>
    obtain ⟨hn, h₁, h₂⟩ := toNat_ofChar (h c List.mem_cons_self)
    have hstep : BitVec.ofNat 32 v * 10 + BitVec.ofNat 32 (UInt8.ofNat c.toNat).toNat - 48 =
        BitVec.ofNat 32 (10 * v + (c.toNat - 48)) := by
      obtain ⟨d, hd⟩ : ∃ d, c.toNat = d + 48 := ⟨c.toNat - 48, by omega⟩
      rw [hn, hd, Nat.add_sub_cancel, BitVec.ofNat_add, BitVec.ofNat_add, BitVec.ofNat_mul]
      grind
    rw [List.map_cons, List.foldl_cons, hstep, ih fun d hd => h d (List.mem_cons_of_mem _ hd),
      Nat.ofDigitChars_cons]
    rfl

theorem readInt_digits (n : Nat) : readInt (digits n) = BitVec.ofNat 32 n := by
  have h := @foldl_read (Nat.toDigits 10 n)
    (fun c hc => Nat.isDigit_of_mem_toDigits (by decide) (by decide) hc) 0
  rw [Nat.ofDigitChars_ten_toDigits] at h
  exact h

/-- Digits are read up to what is no digit. -/
theorem takeWhile_digits (n : Nat) (rest : Bytes) (h : isdigit (peek rest) = false) :
    (digits n ++ rest).takeWhile isdigit = digits n := by
  rw [List.takeWhile_append_of_pos fun b hb => isdigit_digits hb]
  cases rest with
  | nil => simp
  | cons b rest =>
    have hb : isdigit b = false := h
    simp [hb]

theorem dropWhile_digits (n : Nat) (rest : Bytes) (h : isdigit (peek rest) = false) :
    (digits n ++ rest).dropWhile isdigit = rest := by
  rw [List.dropWhile_append_of_pos fun b hb => isdigit_digits hb]
  cases rest with
  | nil => rfl
  | cons b rest =>
    have hb : isdigit b = false := h
    simp [hb]

/-- The first digit is no sign. -/
theorem peek_digits (n : Nat) (rest : Bytes) : isdigit (peek (digits n ++ rest)) = true := by
  obtain ⟨b, ds, hds⟩ := List.exists_cons_of_ne_nil (digits_ne_nil n)
  rw [hds]
  exact isdigit_digits (hds ▸ List.mem_cons_self)

theorem skipSign_digits (n : Nat) (rest : Bytes) : skipSign (digits n ++ rest) = digits n ++ rest := by
  have h := peek_digits n rest
  unfold skipSign
  split
  · rename_i hs
    rcases hs with hs | hs <;> rw [hs] at h <;> cases h
  · rfl

/-! ## `%d` -/

/-- The sign and the digits. -/
theorem fmtD_eq (i : CInt) :
    fmtD i = if 0 ≤ i.toInt then digits i.toInt.toNat else 45 :: digits (-i.toInt).toNat := by
  rw [fmtD, ascii, Int.toString_eq_repr, Int.repr_eq_if]
  split
  · rw [Nat.toList_repr]
    rfl
  · rw [String.toList_append, Nat.toList_repr]
    rfl

theorem skipSign_fmtD (i : CInt) (rest : Bytes) :
    skipSign (fmtD i ++ rest) = digits i.toInt.natAbs ++ rest := by
  rw [fmtD_eq]
  split
  · rename_i h
    rw [skipSign_digits, show i.toInt.toNat = i.toInt.natAbs by omega]
  · rename_i h
    rw [show (-i.toInt).toNat = i.toInt.natAbs by omega]
    rfl

/-- **`__dbsql_atoi` reads what `%d` prints.** -/
theorem dbsqlAtoi_fmtD (i : CInt) : (dbsqlAtoi (fmtD i ++ [0])).1 = i := by
  have hread : readInt ((skipSign (fmtD i ++ [0])).takeWhile isdigit) =
      BitVec.ofNat 32 i.toInt.natAbs := by
    rw [skipSign_fmtD, takeWhile_digits _ _ (by decide), readInt_digits]
  rw [dbsqlAtoi]
  dsimp only
  rw [hread]
  by_cases h : 0 ≤ i.toInt
  · have hpeek : peek (fmtD i ++ [0]) ≠ 45 := by
      rw [fmtD_eq, if_pos h]
      intro h45
      have := peek_digits i.toInt.toNat [0]
      rw [h45] at this
      cases this
    rw [if_neg hpeek]
    have habs : (i.toInt.natAbs : Int) = i.toInt := by omega
    rw [← BitVec.ofInt_natCast, habs, BitVec.ofInt_toInt]
  · have hpeek : peek (fmtD i ++ [0]) = 45 := by
      rw [fmtD_eq, if_neg h]
      rfl
    rw [if_pos hpeek]
    have habs : -(i.toInt.natAbs : Int) = i.toInt := by omega
    rw [← BitVec.ofInt_natCast, ← BitVec.ofInt_neg, habs, BitVec.ofInt_toInt]

/-- The text of an `int` is a number. -/
theorem strIsNumeric_fmtD (i : CInt) : strIsNumeric (fmtD i) = true := by
  have hskip : skipSign (fmtD i) = digits i.toInt.natAbs ++ [] := by
    have := skipSign_fmtD i []
    rwa [List.append_nil] at this
  have hdrop : skipDigits (digits i.toInt.natAbs ++ []) = [] := dropWhile_digits _ _ (by decide)
  rw [strIsNumeric, hskip, if_pos (peek_digits _ _), hdrop]
  rfl

/-- There is no NUL in it. -/
theorem cstr_fmtD (i : CInt) : cstr (fmtD i) = fmtD i := by
  have hne : ∀ b, isdigit b = true → b ≠ 0 := by
    rintro b hb rfl
    cases hb
  apply List.takeWhile_eq_self_iff.2
  intro b hb
  rw [fmtD_eq] at hb
  split at hb
  · exact decide_eq_true (hne b (isdigit_digits hb))
  · rcases List.mem_cons.1 hb with rfl | hb
    · rfl
    · exact decide_eq_true (hne b (isdigit_digits hb))

/-! ## Without rounding -/

theorem foldl_readDigits {cs : List Char} (h : ∀ c ∈ cs, c.isDigit = true) (v : Nat) :
    (cs.map fun c => UInt8.ofNat c.toNat).foldl
      (fun (v : ℚ) c => v * 10 + ((c.toNat : ℚ) - 48)) v = Nat.ofDigitChars 10 cs v := by
  induction cs generalizing v with
  | nil => simp
  | cons c cs ih =>
    obtain ⟨hn, h₁, -⟩ := toNat_ofChar (h c List.mem_cons_self)
    have hstep : (v : ℚ) * 10 + (((UInt8.ofNat c.toNat).toNat : ℚ) - 48) =
        ((10 * v + (c.toNat - 48) : Nat) : ℚ) := by
      rw [hn, Nat.cast_add, Nat.cast_mul, Nat.cast_sub h₁]
      norm_num
      ring
    rw [List.map_cons, List.foldl_cons, hstep, ih fun d hd => h d (List.mem_cons_of_mem _ hd),
      Nat.ofDigitChars_cons]
    rfl

theorem readDigits_digits (n : Nat) : readDigits exactArith (0 : ℚ) (digits n ++ []) = n := by
  have h := @foldl_readDigits (Nat.toDigits 10 n)
    (fun c hc => Nat.isDigit_of_mem_toDigits (by decide) (by decide) hc) 0
  rw [Nat.ofDigitChars_ten_toDigits, Nat.cast_zero] at h
  rw [readDigits, takeWhile_digits _ _ (by decide)]
  exact h

/-- `__dbsql_atof` reads what `%d` prints. -/
theorem dbsqlAtof_fmtD (i : CInt) : dbsqlAtof exactArith (fmtD i) = .fin i.toInt := by
  have hskip : skipSign (fmtD i) = digits i.toInt.natAbs ++ [] := by
    have := skipSign_fmtD i []
    rwa [List.append_nil] at this
  have hdrop : skipDigits (digits i.toInt.natAbs ++ []) = [] := dropWhile_digits _ _ (by decide)
  have hread : readDigits exactArith (exactArith.lit 0) (digits i.toInt.natAbs ++ []) =
      (i.toInt.natAbs : ℚ) := readDigits_digits _
  rw [dbsqlAtof]
  dsimp only
  rw [hskip, hdrop, hread]
  by_cases h : 0 ≤ i.toInt
  · have hpeek : peek (fmtD i) ≠ 45 := by
      rw [fmtD_eq, if_pos h]
      intro h45
      have := peek_digits i.toInt.toNat []
      rw [List.append_nil, h45] at this
      cases this
    have habs : ((i.toInt.natAbs : Int) : ℚ) = (i.toInt : ℚ) := by rw [Int.natAbs_of_nonneg h]
    simp only [hpeek, if_false]
    exact congrArg Double.fin habs
  · have hpeek : peek (fmtD i) = 45 := by
      rw [fmtD_eq, if_neg h]
      rfl
    have habs : -((i.toInt.natAbs : Int) : ℚ) = (i.toInt : ℚ) := by
      have : (i.toInt.natAbs : Int) = -i.toInt := by omega
      rw [this]
      push_cast
      ring
    simp only [hpeek, if_true]
    exact congrArg Double.fin habs

end Dbsql.L3
