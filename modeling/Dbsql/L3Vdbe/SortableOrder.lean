import Dbsql.L3Vdbe.Compare
/-!
# The order of sortable numbers under `strcmp` (common/str.c:693-783)

A number of at most 47 significant bits is scaled into [1/128, 1/2) with its last bit at
2^-53 or above, so the sum `r + 0.5` is a double and no step of `__str_real_as_sortable`
rounds.

Results:
* `SigBits.sortExact`: the arithmetic is exact on these numbers.
* `strRealAsSortable_order`: `strcmp` of the strings is the order of the numbers.
-/
namespace Dbsql.L3
open Dbsql.Core Dbsql.L1
open List (compareLex)

/-- A double of at most `n` significant bits. -/
structure SigBits (n : Nat) (q : ℚ) : Prop where
  double : IsDouble q
  bits : ∃ m k : Int, m.natAbs < 2 ^ n ∧ q = m * 2 ^ k

theorem SigBits.neg {n : Nat} {q : ℚ} (h : SigBits n q) : SigBits n (-q) := by
  obtain ⟨m, k, hm, rfl⟩ := h.bits
  exact ⟨h.double.neg, -m, k, by simpa using hm, by push_cast; ring⟩

/-- Every `int` has 32 bits. -/
theorem sigBits_int {i : Int} (hle : i.natAbs ≤ 2 ^ 31) : SigBits 47 i :=
  ⟨(sortExact_int hle).double, i, 0, by omega, by simp⟩

/-- The last of 47 bits, scaled to at least 1/128, stands at 2^-53 or above. -/
theorem scaled_bits {q : ℚ} {p : ℚ × Int} (hb : SigBits 47 q) (h : ScaledAbs q p) :
    ∃ m : Int, p.1 = m * 2 ^ (-53 : Int) := by
  rcases eq_or_lt_of_le h.lower with he | he
  · exact ⟨0, by rw [h.zero he.symm, Int.cast_zero, zero_mul]⟩
  obtain ⟨m, k, hm, rfl⟩ := hb.bits
  have hm' : (m : ℚ) < 2 ^ (47 : Int) := by
    have : m < 2 ^ 47 := by omega
    exact_mod_cast this
  have hr : p.1 = m * 2 ^ (k - 6 * p.2) := by
    have hv := h.value
    rw [scaled, zpow_64] at hv
    rw [zpow_sub₀ (by norm_num), ← mul_div_assoc, eq_div_iff (by positivity), ← hv]
  have hj : -54 < k - 6 * p.2 := by
    by_contra hj
    have hsmall : p.1 < 1 / 128 := by
      calc p.1 = m * 2 ^ (k - 6 * p.2) := hr
        _ < 2 ^ (47 : Int) * 2 ^ (k - 6 * p.2) := mul_lt_mul_of_pos_right hm' (by positivity)
        _ ≤ 2 ^ (47 : Int) * 2 ^ (-54 : Int) :=
          mul_le_mul_of_nonneg_left (zpow_le_zpow_right₀ (by norm_num) (not_lt.1 hj)) (by positivity)
        _ = 1 / 128 := by norm_num
    exact absurd (h.above he) (not_le.2 hsmall)
  obtain ⟨j, hjnat⟩ := Int.eq_ofNat_of_zero_le (show 0 ≤ k - 6 * p.2 + 53 by omega)
  refine ⟨m * 2 ^ j, ?_⟩
  have hk : k - 6 * p.2 = j + (-53) := by omega
  rw [hr, hk, zpow_add₀ (by norm_num), zpow_natCast, ← mul_assoc]
  push_cast
  rfl

/-- A multiple of 2^-53 between 0 and 1 is a double. -/
theorem isDouble_of_fraction {r : ℚ} (h : 0 < r) (h' : r < 1) (hm : ∃ m : Int, r = m * 2 ^ (-53 : Int)) :
    IsDouble r := by
  obtain ⟨m, rfl⟩ := hm
  have hpow : (2 : ℚ) ^ (-53 : Int) * 2 ^ (53 : Int) = 1 := by
    rw [← zpow_add₀ (by norm_num)]
    norm_num
  have h0 : (0 : ℚ) < m := (mul_pos_iff_of_pos_right (by positivity)).1 h
  have h1 : (m : ℚ) < 2 ^ (53 : Int) := by
    calc (m : ℚ) = m * 2 ^ (-53 : Int) * 2 ^ (53 : Int) := by rw [mul_assoc, hpow, mul_one]
      _ < 1 * 2 ^ (53 : Int) := mul_lt_mul_of_pos_right h' (by positivity)
      _ = 2 ^ (53 : Int) := one_mul _
  have h0' : 0 < m := by exact_mod_cast h0
  have h1' : m < 2 ^ 53 := by exact_mod_cast h1
  exact ⟨m, -53, by omega, by norm_num, by norm_num, rfl⟩

/-- `__str_real_as_sortable` does not round numbers of at most 47 bits. -/
theorem SigBits.sortExact {q : ℚ} (h : SigBits 47 q) : SortExact q := by
  refine ⟨h.double, ?_⟩
  have hs := sortParts_spec h.double
  refine isDouble_of_fraction hs.pos hs.lt_one ?_
  unfold sortParts
  have hhalf : (1 : ℚ) / 2 = (2 ^ 52 : Int) * 2 ^ (-53 : Int) := by norm_num
  by_cases hq : q < 0
  · obtain ⟨m, hm⟩ := scaled_bits h.neg (normalise_abs h.double.neg (neg_nonneg.2 hq.le))
    simp only [if_pos hq]
    exact ⟨-m + 2 ^ 52, by rw [hm, hhalf]; push_cast; ring⟩
  · obtain ⟨m, hm⟩ := scaled_bits h (normalise_abs h.double (not_lt.1 hq))
    simp only [if_neg hq]
    exact ⟨m + 2 ^ 52, by rw [hm, hhalf]; push_cast; ring⟩

/-- `strcmp` of two terminated strings without NULs. -/
theorem strcmp_terminated_lt {s t : Bytes} (hs : 0 ∉ s) (ht : 0 ∉ t) :
    (strcmp (s ++ [0]) (t ++ [0])).toInt < 0 ↔ compareLex compare s t = .lt := by
  rw [strcmp, toInt_ordInt, ordInt_lt, cstr_terminated hs, cstr_terminated ht]

/-- For numbers of at most 47 bits the strings have no NUL, `strcmp` puts them in the order of the
numbers, and equal strings are those of equal numbers. -/
theorem strRealAsSortable_order {r r' : Double} {q q' : ℚ} (hr : r.toRat = some q)
    (hr' : r'.toRat = some q') (h : SigBits 47 q) (h' : SigBits 47 q') :
    0 ∉ strRealAsSortable r ∧
      ((strcmp (strRealAsSortable r ++ [0]) (strRealAsSortable r' ++ [0])).toInt < 0 ↔ q < q') ∧
      (strRealAsSortable r = strRealAsSortable r' ↔ q = q') := by
  have h0 (r : Double) : 0 ∉ strRealAsSortable r := fun h => absurd (strRealAsSortable_pos r 0 h) (by decide)
  have hcmp := compare_sortableRat h.double h'.double
  rw [← strRealAsSortable_eq hr, ← strRealAsSortable_eq hr'] at hcmp
  refine ⟨h0 r, ?_, ?_⟩
  · rw [strcmp_terminated_lt (h0 r) (h0 r'), hcmp, compare_lt_iff_lt]
  · have heq : compareLex compare (strRealAsSortable r) (strRealAsSortable r') = .eq ↔
        strRealAsSortable r = strRealAsSortable r' := Std.LawfulEqCmp.compare_eq_iff_eq
    rw [← heq, hcmp, compare_eq_iff_eq]

/-- The smallest `int` and 0. -/
theorem strRealAsSortable_order_int :
    (strcmp (strRealAsSortable (.fin (-2147483648 : Int)) ++ [0])
      (strRealAsSortable (.fin (0 : Int)) ++ [0])).toInt < 0 ↔ ((-2147483648 : Int) : ℚ) < (0 : Int) :=
  (strRealAsSortable_order rfl rfl (sigBits_int (by decide)) (sigBits_int (by decide))).2.1

end Dbsql.L3
