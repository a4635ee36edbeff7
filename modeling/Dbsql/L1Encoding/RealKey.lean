import Dbsql.Core.LexOrder
import Dbsql.L1Encoding.Mem
import Mathlib.Algebra.Order.Field.Power
import Mathlib.Tactic.Linarith
/-!
# Sortable numbers (common/str.c:661-783)

`__str_real_as_sortable` writes a double as its sign, a biased base-64 exponent in two
digits and up to ten base-64 digits of `r + 0.5`, where `r` is the value scaled into
[1/128, 1/2). Scaling by powers of 64 and splitting off digits are exact in doubles; the
addition `r + 0.5` may round. The functions below compute with rationals, so they are the
code's on the numbers whose sum is again a double (`SortExact`).

Results:
* `normalise_spec`: the scaling loops end in [1/128, 1/2) with the value unchanged, none of
  them at its bound on the exponent.
* `compare_sortableRat`: the strings compare by the values of the numbers.
-/
namespace Dbsql.L1
open Dbsql.Core
open List (compareLex)

/-! ## The code -/

/-- The digits, in the order of their codes. -/
def digits : Bytes := ascii "0123456789ABCDEFGHIJKLMNOPQRSTUVWXYZabcdefghijklmnopqrstuvwxyz|~"

/-- `digit[d & 0x3f]`. -/
def digit (d : Nat) : UInt8 := digits.getD (d % 64) 0

/-- `while(r < 0.5 / 64^n && exp > bound) { r *= 64^n; exp -= n; }`. -/
@[grind =] def mulLoop (n : Nat) [NeZero n] (bound : Int) : ℚ × Int → ℚ × Int
  | (r, exp) =>
    if r < 1 / 2 / 64 ^ n ∧ bound < exp then mulLoop n bound (r * 64 ^ n, exp - n) else (r, exp)
termination_by p => (p.2 - bound).toNat
decreasing_by
  have := NeZero.pos n
  omega

/-- `while(r >= 0.5 * 64^(n-1) && exp < bound) { r *= 1.0 / 64^n; exp += n; }`. -/
@[grind =] def divLoop (n : Nat) [NeZero n] (bound : Int) : ℚ × Int → ℚ × Int
  | (r, exp) =>
    if 1 / 2 * 64 ^ (n - 1) ≤ r ∧ exp < bound then divLoop n bound (r * (1 / 64 ^ n), exp + n)
    else (r, exp)
termination_by p => (bound - p.2).toNat
decreasing_by
  have := NeZero.pos n
  omega

/-- The scaling of `r ≥ 0` (str.c:728-763): the scaled value and `exp`. -/
def normalise (r : ℚ) : ℚ × Int :=
  if r = 0 then (r, -1024)
  else if r < 1 / 2 / 64 then
    let p := mulLoop 64 (-961) (r, 0)
    let p := mulLoop 16 (-1009) p
    let p := mulLoop 4 (-1021) p
    mulLoop 1 (-1024) p
  else if 1 / 2 ≤ r then
    let p := divLoop 64 960 (r, 0)
    let p := divLoop 16 1008 p
    let p := divLoop 4 1020 p
    divLoop 1 1023 p
  else (r, 0)

/-- `r` and `exp` after the sign is put back and `1024` and `0.5` are added. -/
def sortParts (q : ℚ) : ℚ × Int :=
  let (r, exp) := normalise (if q < 0 then -q else q)
  if q < 0 then (-r + 1 / 2, -exp + 1024) else (r + 1 / 2, exp + 1024)

/-- The digits of `r`, at most `cnt`, up to the last that is not zero. -/
@[grind =] def mantissa : Nat → ℚ → Bytes
  | 0, _ => []
  | cnt + 1, r =>
    if 0 < r then
      let d := ⌊r * 64⌋₊
      digit d :: mantissa cnt (r * 64 - d)
    else []

/-- `__str_real_as_sortable` of a finite value. -/
def sortableRat (q : ℚ) : Bytes :=
  let (r, exp) := sortParts q
  (if q < 0 then 45 else 48) ::
    if exp < 0 then []
    else if 2048 ≤ exp ∨ 1 ≤ r then ascii "~~~~~~~~~~~~"
    else digit (exp.toNat / 64) :: digit exp.toNat :: mantissa 10 r

/-- `__str_real_as_sortable` (str.c:693-783). The loops take an infinity to their bounds, and
a NaN fails every comparison. -/
def strRealAsSortable : Double → Bytes
  | .fin q => sortableRat q
  | .negZero => sortableRat 0
  | .inf neg => ascii (if neg then "-01" else "0~~~~~~~~~~~~")
  | .nan => ascii "0G0"

/-! ## Doubles -/

/-- The finite values of a double. -/
def IsDouble (q : ℚ) : Prop :=
  ∃ m k : Int, m.natAbs < 2 ^ 53 ∧ -1074 ≤ k ∧ k ≤ 971 ∧ q = m * 2 ^ k

/-- Where `__str_real_as_sortable` is exact: the one sum it forms is a double. -/
structure SortExact (q : ℚ) : Prop where
  double : IsDouble q
  sum : IsDouble (sortParts q).1

/-! ## The scaling loops -/

/-- A scaled value: `r * 64^exp`. -/
def scaled (p : ℚ × Int) : ℚ := p.1 * 64 ^ p.2

theorem scaled_mul (r : ℚ) (exp : Int) (n : Nat) :
    scaled (r * 64 ^ n, exp - n) = scaled (r, exp) := by
  unfold scaled
  rw [zpow_sub₀ (by norm_num), zpow_natCast, mul_assoc, mul_div_cancel₀ _ (by positivity)]

theorem scaled_div (r : ℚ) (exp : Int) (n : Nat) :
    scaled (r * (1 / 64 ^ n), exp + n) = scaled (r, exp) := by
  unfold scaled
  rw [zpow_add₀ (by norm_num), zpow_natCast, one_div]
  field_simp

/-- What the loop that scales up leaves behind. -/
structure ScaledUp (n : Nat) (bound : Int) (p p' : ℚ × Int) : Prop where
  value : scaled p' = scaled p
  below : p.1 < 1 / 2 → p'.1 < 1 / 2
  exp : p'.2 ≤ p.2
  done : 1 / 2 / 64 ^ n ≤ p'.1 ∨ p'.2 ≤ bound

theorem mulLoop_spec (n : Nat) [NeZero n] (bound : Int) (p : ℚ × Int) :
    ScaledUp n bound p (mulLoop n bound p) := by
  induction p using mulLoop.induct n bound with
  | case1 r exp h ih =>
    rw [mulLoop, if_pos h]
    refine ⟨ih.value.trans (scaled_mul r exp n), fun _ => ih.below ?_,
      le_trans ih.exp (sub_le_self exp (Int.natCast_nonneg n)), ih.done⟩
    exact (lt_div_iff₀ (by positivity)).1 h.1
  | case2 r exp h =>
    rw [mulLoop, if_neg h]
    refine ⟨rfl, id, le_refl _, ?_⟩
    by_cases hr : r < 1 / 2 / 64 ^ n
    · exact .inr (not_lt.1 fun hb => h ⟨hr, hb⟩)
    · exact .inl (not_lt.1 hr)

theorem ScaledUp.trans {n n' : Nat} {bound bound' : Int} {p p' p'' : ℚ × Int}
    (h : ScaledUp n bound p p') (h' : ScaledUp n' bound' p' p'') : ScaledUp n' bound' p p'' :=
  ⟨h'.value.trans h.value, fun hp => h'.below (h.below hp), le_trans h'.exp h.exp, h'.done⟩

/-- What the loop that scales down leaves behind. -/
structure ScaledDown (n : Nat) (bound : Int) (p p' : ℚ × Int) : Prop where
  value : scaled p' = scaled p
  above : 1 / 128 ≤ p.1 → 1 / 128 ≤ p'.1
  exp : p.2 ≤ p'.2
  done : p'.1 < 1 / 2 * 64 ^ (n - 1) ∨ bound ≤ p'.2

theorem divLoop_spec (n : Nat) [NeZero n] (bound : Int) (p : ℚ × Int) :
    ScaledDown n bound p (divLoop n bound p) := by
  induction p using divLoop.induct n bound with
  | case1 r exp h ih =>
    rw [divLoop, if_pos h]
    refine ⟨ih.value.trans (scaled_div r exp n), fun _ => ih.above ?_,
      le_trans (Int.le_add_of_nonneg_right (Int.natCast_nonneg n)) ih.exp, ih.done⟩
    have hn : (64 : ℚ) ^ n = 64 ^ (n - 1) * 64 := by
      rw [← pow_succ, Nat.sub_add_cancel (NeZero.pos n)]
    rw [mul_one_div, le_div_iff₀ (by positivity), hn]
    calc (1 : ℚ) / 128 * (64 ^ (n - 1) * 64) = 1 / 2 * 64 ^ (n - 1) := by ring
      _ ≤ r := h.1
  | case2 r exp h =>
    rw [divLoop, if_neg h]
    refine ⟨rfl, id, le_refl _, ?_⟩
    by_cases hr : 1 / 2 * 64 ^ (n - 1) ≤ r
    · exact .inr (not_lt.1 fun hb => h ⟨hr, hb⟩)
    · exact .inl (not_le.1 hr)

theorem ScaledDown.trans {n n' : Nat} {bound bound' : Int} {p p' p'' : ℚ × Int}
    (h : ScaledDown n bound p p') (h' : ScaledDown n' bound' p' p'') : ScaledDown n' bound' p p'' :=
  ⟨h'.value.trans h.value, fun hp => h'.above (h.above hp), le_trans h.exp h'.exp, h'.done⟩

theorem IsDouble.neg {q : ℚ} (h : IsDouble q) : IsDouble (-q) := by
  obtain ⟨m, k, hm, hk, hk', rfl⟩ := h
  exact ⟨-m, k, by simpa using hm, hk, hk', by push_cast; ring⟩

/-- A positive double lies between 2^-1074 and 2^1024. -/
theorem IsDouble.bounds {q : ℚ} (h : IsDouble q) (hq : 0 < q) : (2 : ℚ) ^ (-1074 : Int) ≤ q ∧ q < 2 ^ (1024 : Int) := by
  obtain ⟨m, k, hm, hk, hk', rfl⟩ := h
  have h2 : (0 : ℚ) < 2 ^ k := by positivity
  have hm0 : 0 < m := by
    have := (mul_pos_iff_of_pos_right h2).1 hq
    exact_mod_cast this
  have hm1 : (1 : ℚ) ≤ m := by exact_mod_cast hm0
  have hm2 : (m : ℚ) < 2 ^ (53 : Int) := by
    have : m < 2 ^ 53 := by omega
    exact_mod_cast this
  refine ⟨?_, ?_⟩
  · calc (2 : ℚ) ^ (-1074 : Int) ≤ 2 ^ k := zpow_le_zpow_right₀ (by norm_num) hk
      _ = 1 * 2 ^ k := (one_mul _).symm
      _ ≤ m * 2 ^ k := by gcongr
  · calc (m : ℚ) * 2 ^ k < 2 ^ (53 : Int) * 2 ^ k := by gcongr
      _ ≤ 2 ^ (53 : Int) * 2 ^ (971 : Int) := by gcongr; norm_num
      _ = 2 ^ (1024 : Int) := by rw [← zpow_add₀ (by norm_num)]; norm_num

theorem zpow_64 (e : Int) : (64 : ℚ) ^ e = 2 ^ (6 * e) := by
  rw [zpow_mul]
  norm_num

/-- A value scaled into [1/128, 1/2). -/
structure Normal (q : ℚ) (p : ℚ × Int) : Prop where
  value : q = scaled p
  above : 1 / 128 ≤ p.1
  below : p.1 < 1 / 2
  lower : -1024 < p.2
  upper : p.2 < 1023

/-- No double is so small that the exponent reaches its lower bound. -/
theorem exp_lower {p : ℚ × Int} (hlo : (2 : ℚ) ^ (-1074 : Int) ≤ scaled p) (hr : p.1 < 1 / 2) :
    -1024 < p.2 := by
  by_contra he
  have hpos : (0 : ℚ) < 64 ^ p.2 := by positivity
  have h64 : (64 : ℚ) ^ p.2 ≤ 2 ^ (-6144 : Int) := by
    rw [zpow_64]
    exact zpow_le_zpow_right₀ (by norm_num) (by omega)
  have hsmall : (2 : ℚ) ^ (-6144 : Int) ≤ 2 ^ (-1074 : Int) :=
    zpow_le_zpow_right₀ (by norm_num) (by norm_num)
  have : scaled p < 1 * 64 ^ p.2 := mul_lt_mul_of_pos_right (lt_trans hr (by norm_num)) hpos
  linarith

/-- No double is so large that it reaches its upper bound. -/
theorem exp_upper {p : ℚ × Int} (hhi : scaled p < (2 : ℚ) ^ (1024 : Int)) (hr : 1 / 128 ≤ p.1) :
    p.2 < 1023 := by
  by_contra he
  have hpos : (0 : ℚ) < 64 ^ p.2 := by positivity
  have h64 : (2 : ℚ) ^ (1031 : Int) ≤ 64 ^ p.2 := by
    rw [zpow_64]
    exact zpow_le_zpow_right₀ (by norm_num) (by omega)
  have hsplit : (2 : ℚ) ^ (1031 : Int) = 128 * 2 ^ (1024 : Int) := by
    rw [show (1031 : Int) = 7 + 1024 by norm_num, zpow_add₀ (by norm_num)]
    norm_num
  have : (2 : ℚ) ^ (1024 : Int) ≤ scaled p := by
    calc (2 : ℚ) ^ (1024 : Int) = 1 / 128 * 2 ^ (1031 : Int) := by rw [hsplit]; ring
      _ ≤ 1 / 128 * 64 ^ p.2 := mul_le_mul_of_nonneg_left h64 (by norm_num)
      _ ≤ scaled p := mul_le_mul_of_nonneg_right hr hpos.le
  exact absurd hhi (not_lt.2 this)

/-- The scaling of a positive double ends in [1/128, 1/2), no loop being stopped by its bound
on the exponent. -/
theorem normalise_spec {q : ℚ} (hd : IsDouble q) (hq : 0 < q) : Normal q (normalise q) := by
  obtain ⟨hlo, hhi⟩ := hd.bounds hq
  have hself : scaled (q, 0) = q := by simp [scaled]
  unfold normalise
  rw [if_neg hq.ne']
  split
  · rename_i hr
    have h := ((mulLoop_spec 64 (-961) (q, 0)).trans (mulLoop_spec 16 (-1009) _)).trans
      ((mulLoop_spec 4 (-1021) _).trans (mulLoop_spec 1 (-1024) _))
    have hval := h.value.trans hself
    have hbelow := h.below (lt_trans hr (by norm_num))
    have hlower := exp_lower (by rw [hval]; exact hlo) hbelow
    refine ⟨hval.symm, ?_, hbelow, hlower, lt_of_le_of_lt h.exp (by norm_num)⟩
    rcases h.done with hdone | hdone
    · norm_num at hdone ⊢
      exact hdone
    · exact absurd hdone (not_le.2 hlower)
  · rename_i hr
    have habove : 1 / 128 ≤ q := by
      have := not_lt.1 hr
      norm_num at this ⊢
      exact this
    split
    · have h := ((divLoop_spec 64 960 (q, 0)).trans (divLoop_spec 16 1008 _)).trans
        ((divLoop_spec 4 1020 _).trans (divLoop_spec 1 1023 _))
      have hval := h.value.trans hself
      have habove' := h.above habove
      have hupper := exp_upper (by rw [hval]; exact hhi) habove'
      refine ⟨hval.symm, habove', ?_, lt_of_lt_of_le (by norm_num) h.exp, hupper⟩
      rcases h.done with hdone | hdone
      · simpa using hdone
      · exact absurd hdone (not_le.2 hupper)
    · rename_i h2
      exact ⟨hself.symm, habove, not_le.1 h2, by norm_num, by norm_num⟩

/-! ## Order of the scaled values -/

/-- A scaled value of at least 0; zero alone has the exponent -1024. -/
structure ScaledAbs (q : ℚ) (p : ℚ × Int) : Prop where
  value : q = scaled p
  nonneg : 0 ≤ p.1
  zero : p.2 = -1024 → p.1 = 0
  above : -1024 < p.2 → 1 / 128 ≤ p.1
  below : p.1 < 1 / 2
  lower : -1024 ≤ p.2
  upper : p.2 < 1023

theorem normalise_abs {q : ℚ} (hd : IsDouble q) (hq : 0 ≤ q) : ScaledAbs q (normalise q) := by
  rcases eq_or_lt_of_le hq with rfl | hq
  · rw [normalise, if_pos rfl]
    exact ⟨by simp [scaled], le_refl _, fun _ => rfl, fun h => absurd h (lt_irrefl _), by norm_num,
      le_refl _, by norm_num⟩
  · have h := normalise_spec hd hq
    exact ⟨h.value, le_trans (by norm_num) h.above, fun he => absurd he h.lower.ne', fun _ => h.above,
      h.below, h.lower.le, h.upper⟩

theorem scaled_lt {q q' : ℚ} {p p' : ℚ × Int} (h : ScaledAbs q p) (h' : ScaledAbs q' p')
    (hlt : p.2 < p'.2 ∨ p.2 = p'.2 ∧ p.1 < p'.1) : q < q' := by
  have hpos : (0 : ℚ) < 64 ^ p.2 := by positivity
  rw [h.value, h'.value, scaled, scaled]
  rcases hlt with he | ⟨he, hr⟩
  · -- an exponent more is a factor of 64, and the scaled values differ by less
    have hstep : (64 : ℚ) ^ p.2 * 64 ≤ 64 ^ p'.2 := by
      rw [← zpow_add_one₀ (by norm_num)]
      exact zpow_le_zpow_right₀ (by norm_num) he
    have hp' := h'.above (lt_of_le_of_lt h.lower he)
    calc p.1 * 64 ^ p.2 < 1 / 2 * 64 ^ p.2 := mul_lt_mul_of_pos_right h.below hpos
      _ = 1 / 128 * (64 ^ p.2 * 64) := by ring
      _ ≤ 1 / 128 * 64 ^ p'.2 := mul_le_mul_of_nonneg_left hstep (by norm_num)
      _ ≤ p'.1 * 64 ^ p'.2 := mul_le_mul_of_nonneg_right hp' (by positivity)
  · rw [← he]
    exact mul_lt_mul_of_pos_right hr hpos

/-- Scaled values compare by exponent, then by mantissa. -/
theorem compare_scaled {q q' : ℚ} {p p' : ℚ × Int} (h : ScaledAbs q p) (h' : ScaledAbs q' p') :
    compare q q' = (compare p.2 p'.2).then (compare p.1 p'.1) := by
  rcases lt_trichotomy p.2 p'.2 with he | he | he
  · rw [compare_lt_iff_lt.2 he, compare_lt_iff_lt.2 (scaled_lt h h' (.inl he))]
    rfl
  · rw [compare_eq_iff_eq.2 he, Ordering.eq_then]
    rcases lt_trichotomy p.1 p'.1 with hr | hr | hr
    · rw [compare_lt_iff_lt.2 hr, compare_lt_iff_lt.2 (scaled_lt h h' (.inr ⟨he, hr⟩))]
    · have : q = q' := by rw [h.value, h'.value, Prod.ext hr he]
      rw [compare_eq_iff_eq.2 hr, compare_eq_iff_eq.2 this]
    · rw [compare_gt_iff_gt.2 hr, compare_gt_iff_gt.2 (scaled_lt h' h (.inr ⟨he.symm, hr⟩))]
  · rw [compare_gt_iff_gt.2 he, compare_gt_iff_gt.2 (scaled_lt h' h (.inl he))]
    rfl

/-- What is written of a number: its biased exponent has two digits, and `r` lies
between 0 and 1 and has ten digits. -/
structure PartsSpec (p : ℚ × Int) : Prop where
  pos : 0 < p.1
  lt_one : p.1 < 1
  exp : 0 ≤ p.2
  exp_lt : p.2 < 2048
  ten : ∃ m : Int, p.1 * 64 ^ 10 = m

/-- The 53 bits of a double, scaled to at least 1/128, end within ten base-64 digits. -/
theorem ten_digits {q : ℚ} {p : ℚ × Int} (hd : IsDouble q) (h : ScaledAbs q p) :
    ∃ m : Int, p.1 * 64 ^ 10 = m := by
  rcases eq_or_lt_of_le h.lower with he | he
  · exact ⟨0, by rw [h.zero he.symm, zero_mul, Int.cast_zero]⟩
  obtain ⟨m, k, hm, -, -, rfl⟩ := hd
  have hm' : (m : ℚ) < 2 ^ (53 : Int) := by
    have : m < 2 ^ 53 := by omega
    exact_mod_cast this
  have hr : p.1 = m * 2 ^ (k - 6 * p.2) := by
    have hv := h.value
    rw [scaled, zpow_64] at hv
    rw [zpow_sub₀ (by norm_num), ← mul_div_assoc, eq_div_iff (by positivity), ← hv]
  have hj : -60 < k - 6 * p.2 := by
    by_contra hj
    have hsmall : p.1 < 1 / 128 := by
      calc p.1 = m * 2 ^ (k - 6 * p.2) := hr
        _ < 2 ^ (53 : Int) * 2 ^ (k - 6 * p.2) := mul_lt_mul_of_pos_right hm' (by positivity)
        _ ≤ 2 ^ (53 : Int) * 2 ^ (-60 : Int) :=
          mul_le_mul_of_nonneg_left (zpow_le_zpow_right₀ (by norm_num) (not_lt.1 hj)) (by positivity)
        _ = 1 / 128 := by norm_num
    exact absurd (h.above he) (not_le.2 hsmall)
  obtain ⟨j, hjnat⟩ := Int.eq_ofNat_of_zero_le (show 0 ≤ k - 6 * p.2 + 60 by omega)
  refine ⟨m * 2 ^ j, ?_⟩
  have h60 : (64 : ℚ) ^ 10 = 2 ^ (60 : Int) := by norm_num
  rw [hr, h60, mul_assoc, ← zpow_add₀ (by norm_num), hjnat]
  push_cast
  rfl

theorem sortParts_spec {q : ℚ} (hd : IsDouble q) : PartsSpec (sortParts q) := by
  unfold sortParts
  by_cases hq : q < 0
  · simp only [if_pos hq]
    have h := normalise_abs hd.neg (neg_nonneg.2 hq.le)
    obtain ⟨m, hm⟩ := ten_digits hd.neg h
    have he : (normalise (-q)).2 ≠ -1024 := by
      intro he
      have hv := h.value
      rw [scaled, h.zero he, zero_mul] at hv
      linarith
    refine ⟨?_, ?_, ?_, ?_, -m + 32 * 64 ^ 9, ?_⟩
    · linarith [h.below]
    · linarith [h.nonneg]
    · have := h.upper
      omega
    · have := h.lower
      omega
    · rw [add_mul, neg_mul, hm]
      push_cast
      norm_num
  · simp only [if_neg hq]
    have h := normalise_abs hd (not_lt.1 hq)
    obtain ⟨m, hm⟩ := ten_digits hd h
    refine ⟨?_, ?_, ?_, ?_, m + 32 * 64 ^ 9, ?_⟩
    · linarith [h.nonneg]
    · linarith [h.below]
    · have := h.lower
      omega
    · have := h.upper
      omega
    · rw [add_mul, hm]
      push_cast
      norm_num

/-- Numbers of one sign compare by the exponent written, then by `r`. -/
theorem compare_sortParts {a b : ℚ} (ha : IsDouble a) (hb : IsDouble b) (hs : a < 0 ↔ b < 0) :
    compare a b = (compare (sortParts a).2 (sortParts b).2).then
      (compare (sortParts a).1 (sortParts b).1) := by
  unfold sortParts
  by_cases h : a < 0
  · have h' := hs.1 h
    simp only [if_pos h, if_pos h']
    have hab : compare a b = compare (-b) (-a) := Lex.compare_congr (by simp) (by simp)
    rw [hab, compare_scaled (normalise_abs hb.neg (neg_nonneg.2 h'.le))
      (normalise_abs ha.neg (neg_nonneg.2 h.le))]
    congr 1
    · exact Lex.compare_congr (by omega) (by omega)
    · rw [Lex.compare_congr (neg_lt_neg_iff.symm.trans (add_lt_add_iff_right _).symm)
        (neg_lt_neg_iff.symm.trans (add_lt_add_iff_right _).symm)]
  · have h' : ¬ b < 0 := fun hb' => h (hs.2 hb')
    simp only [if_neg h, if_neg h']
    rw [compare_scaled (normalise_abs ha (not_lt.1 h)) (normalise_abs hb (not_lt.1 h'))]
    congr 1
    · exact Lex.compare_congr (by omega) (by omega)
    · exact Lex.compare_congr (by simp) (by simp)

/-! ## Order of the strings -/

theorem digits_sorted : digits.Pairwise (· < ·) := by
  rw [← List.isChain_iff_pairwise]
  decide +kernel

theorem digits_length : digits.length = 64 := rfl

theorem digit_eq (d : Nat) : ∃ h : d % 64 < digits.length, digit d = digits[d % 64] := by
  have h : d % 64 < digits.length := digits_length ▸ Nat.mod_lt d (by decide)
  exact ⟨h, by rw [digit, List.getD_eq_getElem?_getD, List.getElem?_eq_getElem h, Option.getD_some]⟩

/-- The digits compare by their values. -/
theorem compare_digit (c d : Nat) : compare (digit c) (digit d) = compare (c % 64) (d % 64) := by
  obtain ⟨hc, hc'⟩ := digit_eq c
  obtain ⟨hd, hd'⟩ := digit_eq d
  have hmono := List.pairwise_iff_getElem.1 digits_sorted
  rw [hc', hd', UInt8.compare_eq_toNat_compare_toNat]
  rcases Nat.lt_trichotomy (c % 64) (d % 64) with h | h | h
  · rw [Nat.compare_eq_lt.2 h, Nat.compare_eq_lt.2 (UInt8.lt_iff_toNat_lt.1 (hmono _ _ hc hd h))]
  · simp only [h, Nat.compare_eq_eq.2 rfl]
  · rw [Nat.compare_eq_gt.2 h, Nat.compare_eq_gt.2 (UInt8.lt_iff_toNat_lt.1 (hmono _ _ hd hc h))]

theorem digit_pos (d : Nat) : 0 < digit d := by
  obtain ⟨h, h'⟩ := digit_eq d
  rw [h']
  have hall : digits.all (0 < ·) = true := by decide
  exact of_decide_eq_true (List.all_eq_true.1 hall _ (List.getElem_mem h))

theorem eq_zero_of_int {r : ℚ} (h : 0 ≤ r) (h' : r < 1) (hm : ∃ m : Int, r = m) : r = 0 := by
  obtain ⟨m, rfl⟩ := hm
  have h0 : 0 ≤ m := by exact_mod_cast h
  have h1 : m < 1 := by exact_mod_cast h'
  have : m = 0 := by omega
  rw [this, Int.cast_zero]

/-- The first digit and the rest of a mantissa. -/
structure DigitSpec (n : Nat) (r : ℚ) (d : Nat) : Prop where
  lt : d < 64
  rest_nonneg : 0 ≤ r * 64 - d
  rest_lt : r * 64 - d < 1
  ten : ∃ m : Int, (r * 64 - d) * 64 ^ n = m

theorem digitSpec {n : Nat} {r : ℚ} (h : 0 ≤ r) (h' : r < 1) (hm : ∃ m : Int, r * 64 ^ (n + 1) = m) :
    DigitSpec n r ⌊r * 64⌋₊ := by
  have h64 : 0 ≤ r * 64 := by positivity
  have hle := Nat.floor_le h64
  have hlt := Nat.lt_floor_add_one (r * 64)
  obtain ⟨m, hm⟩ := hm
  refine ⟨?_, by linarith, by linarith, m - ⌊r * 64⌋₊ * 64 ^ n, ?_⟩
  · rw [Nat.floor_lt h64]
    push_cast
    linarith
  · rw [sub_mul, mul_assoc, ← pow_succ', hm]
    push_cast
    rfl

/-- Numbers compare by the first digit, then by the rest. -/
theorem compare_digit_rest {n : Nat} {r s : ℚ} {d e : Nat} (hd : DigitSpec n r d) (he : DigitSpec n s e) :
    (compare d e).then (compare (r * 64 - d) (s * 64 - e)) = compare r s := by
  have hd0 := hd.rest_nonneg
  have hd1 := hd.rest_lt
  have he0 := he.rest_nonneg
  have he1 := he.rest_lt
  rcases Nat.lt_trichotomy d e with h | h | h
  · have hc : (d : ℚ) + 1 ≤ e := by exact_mod_cast h
    rw [Nat.compare_eq_lt.2 h, compare_lt_iff_lt.2 (show r < s by linarith)]
    rfl
  · subst h
    rw [Nat.compare_eq_eq.2 rfl, Ordering.eq_then]
    refine Lex.compare_congr ⟨fun h => ?_, fun h => ?_⟩ ⟨fun h => ?_, fun h => ?_⟩ <;> linarith
  · have hc : (e : ℚ) + 1 ≤ d := by exact_mod_cast h
    rw [Nat.compare_eq_gt.2 h, compare_gt_iff_gt.2 (show s < r by linarith)]
    rfl

/-- The mantissas of two numbers of at most `n` digits compare by value. -/
theorem compare_mantissa (n : Nat) : ∀ r s : ℚ, 0 ≤ r → r < 1 → 0 ≤ s → s < 1 →
    (∃ m : Int, r * 64 ^ n = m) → (∃ m : Int, s * 64 ^ n = m) →
    compareLex compare (mantissa n r) (mantissa n s) = compare r s := by
  induction n with
  | zero =>
    intro r s hr hr' hs hs' hm hm'
    rw [eq_zero_of_int hr hr' (by simpa using hm), eq_zero_of_int hs hs' (by simpa using hm'),
      compare_eq_iff_eq.2 rfl]
    rfl
  | succ n ih =>
    intro r s hr hr' hs hs' hm hm'
    rw [mantissa, mantissa]
    rcases eq_or_lt_of_le hr with rfl | hr0
    · rcases eq_or_lt_of_le hs with rfl | hs0
      · rw [if_neg (lt_irrefl _), compare_eq_iff_eq.2 rfl]
        rfl
      · rw [if_neg (lt_irrefl _), if_pos hs0, compare_lt_iff_lt.2 hs0]
        rfl
    · rcases eq_or_lt_of_le hs with rfl | hs0
      · rw [if_neg (lt_irrefl _), if_pos hr0, compare_gt_iff_gt.2 hr0]
        rfl
      · have hd := digitSpec hr hr' hm
        have he := digitSpec hs hs' hm'
        rw [if_pos hr0, if_pos hs0, List.compareLex_cons_cons, compare_digit, Nat.mod_eq_of_lt hd.lt,
          Nat.mod_eq_of_lt he.lt,
          ih _ _ hd.rest_nonneg hd.rest_lt he.rest_nonneg he.rest_lt hd.ten he.ten]
        exact compare_digit_rest hd he

theorem sortableRat_eq {q : ℚ} (h : PartsSpec (sortParts q)) : sortableRat q =
    (if q < 0 then 45 else 48) :: digit ((sortParts q).2.toNat / 64) :: digit (sortParts q).2.toNat ::
      mantissa 10 (sortParts q).1 := by
  have hexp : ¬ (sortParts q).2 < 0 := not_lt.2 h.exp
  have hfull : ¬ (2048 ≤ (sortParts q).2 ∨ 1 ≤ (sortParts q).1) :=
    fun hor => hor.elim (not_le.2 h.exp_lt) (not_le.2 h.lt_one)
  unfold sortableRat
  dsimp only
  rw [if_neg hexp, if_neg hfull]

/-- Two digits compare the numbers below 2048 they stand for. -/
theorem compare_twoDigits {c d : Nat} (hc : c < 2048) (hd : d < 2048) (x y : Bytes) :
    compareLex compare (digit (c / 64) :: digit c :: x) (digit (d / 64) :: digit d :: y) =
      (compare c d).then (compareLex compare x y) := by
  rw [List.compareLex_cons_cons, List.compareLex_cons_cons, compare_digit, compare_digit,
    Nat.mod_eq_of_lt (show c / 64 < 64 by omega), Nat.mod_eq_of_lt (show d / 64 < 64 by omega),
    ← Ordering.then_assoc]
  congr 1
  rcases Nat.lt_trichotomy (c / 64) (d / 64) with h | h | h
  · rw [Nat.compare_eq_lt.2 h, Nat.compare_eq_lt.2 (show c < d by omega)]
    rfl
  · rw [Nat.compare_eq_eq.2 h, Ordering.eq_then]
    exact Lex.compare_congr (by omega) (by omega)
  · rw [Nat.compare_eq_gt.2 h, Nat.compare_eq_gt.2 (show d < c by omega)]
    rfl

theorem compare_sameSign {a b : ℚ} (ha : IsDouble a) (hb : IsDouble b) (hs : a < 0 ↔ b < 0) :
    compareLex compare (sortableRat a) (sortableRat b) = compare a b := by
  have hpa := sortParts_spec ha
  have hpb := sortParts_spec hb
  have hla := hpa.exp
  have hlb := hpb.exp
  have hua := hpa.exp_lt
  have hub := hpb.exp_lt
  have hsign : (if a < 0 then 45 else 48 : UInt8) = if b < 0 then 45 else 48 := by simp only [hs]
  rw [sortableRat_eq hpa, sortableRat_eq hpb, hsign, Lex.compareLex_cons_self,
    compare_twoDigits (by omega) (by omega),
    compare_mantissa 10 _ _ hpa.pos.le hpa.lt_one hpb.pos.le hpb.lt_one hpa.ten hpb.ten,
    compare_sortParts ha hb hs]
  congr 1
  exact Lex.compare_congr (by omega) (by omega)

/-- **The strings sort like the numbers.** -/
theorem compare_sortableRat {a b : ℚ} (ha : IsDouble a) (hb : IsDouble b) :
    compareLex compare (sortableRat a) (sortableRat b) = compare a b := by
  by_cases h : a < 0
  · by_cases h' : b < 0
    · exact compare_sameSign ha hb ⟨fun _ => h', fun _ => h⟩
    · rw [sortableRat_eq (sortParts_spec ha), sortableRat_eq (sortParts_spec hb), if_pos h, if_neg h',
        compare_lt_iff_lt.2 (lt_of_lt_of_le h (not_lt.1 h'))]
      rfl
  · by_cases h' : b < 0
    · rw [sortableRat_eq (sortParts_spec ha), sortableRat_eq (sortParts_spec hb), if_neg h, if_pos h',
        compare_gt_iff_gt.2 (lt_of_lt_of_le h' (not_lt.1 h))]
      rfl
    · exact compare_sameSign ha hb ⟨fun h'' => absurd h'' h, fun h'' => absurd h'' h'⟩

theorem mantissa_pos (n : Nat) : ∀ r : ℚ, ∀ b ∈ mantissa n r, 0 < b := by
  induction n with
  | zero =>
    intro r b hb
    cases hb
  | succ n ih =>
    intro r b hb
    rw [mantissa] at hb
    split at hb
    · rcases List.mem_cons.1 hb with rfl | hb
      · exact digit_pos _
      · exact ih _ b hb
    · cases hb

theorem ascii_pos {s : String} (h : (ascii s).all (0 < ·)) : ∀ b ∈ ascii s, 0 < b := by
  intro b hb
  exact of_decide_eq_true (List.all_eq_true.1 h b hb)

theorem sortableRat_pos (q : ℚ) : ∀ b ∈ sortableRat q, 0 < b := by
  intro b hb
  unfold sortableRat at hb
  dsimp only at hb
  rcases List.mem_cons.1 hb with rfl | hb
  · split <;> decide
  · split at hb
    · cases hb
    · split at hb
      · exact ascii_pos (by decide) b hb
      · rcases List.mem_cons.1 hb with rfl | hb
        · exact digit_pos _
        · rcases List.mem_cons.1 hb with rfl | hb
          · exact digit_pos _
          · exact mantissa_pos 10 _ b hb

/-- No string has a NUL before its end. -/
theorem strRealAsSortable_pos (r : Double) : ∀ b ∈ strRealAsSortable r, 0 < b := by
  cases r with
  | fin q => exact sortableRat_pos q
  | negZero => exact sortableRat_pos 0
  | inf neg => exact ascii_pos (by cases neg <;> decide)
  | nan => exact ascii_pos (by decide)

/-! ## Integers -/

/-- A natural number up to 2^31 is scaled by at most six digits. -/
theorem scaled_nat {n : Nat} {p : ℚ × Int} (hn : n ≠ 0) (hle : n ≤ 2 ^ 31) (h : ScaledAbs n p) :
    ∃ e : Nat, e ≤ 6 ∧ p.2 = e ∧ p.1 = n * 2 ^ (-(6 * e : Int)) := by
  have hv := h.value
  have hpos : (0 : ℚ) < 64 ^ p.2 := by positivity
  have hn1 : (1 : ℚ) ≤ n := by exact_mod_cast Nat.one_le_iff_ne_zero.2 hn
  have hne : p.2 ≠ -1024 := by
    intro he
    rw [scaled, h.zero he, zero_mul] at hv
    linarith
  have habove := h.above (lt_of_le_of_ne h.lower (Ne.symm hne))
  have h0 : 0 ≤ p.2 := by
    by_contra hneg
    have h1 : (64 : ℚ) ^ p.2 ≤ 1 := zpow_le_one_of_nonpos₀ (by norm_num) (not_le.1 hneg).le
    have : scaled p < 1 / 2 * 1 := mul_lt_mul h.below h1 hpos (by norm_num)
    linarith
  have h6 : p.2 ≤ 6 := by
    by_contra hbig
    have h7 : (64 : ℚ) ^ (7 : Int) ≤ 64 ^ p.2 := zpow_le_zpow_right₀ (by norm_num) (by omega)
    have hmul : 1 / 128 * (64 : ℚ) ^ (7 : Int) ≤ scaled p := mul_le_mul habove h7 (by positivity) h.nonneg
    have hval : (1 : ℚ) / 128 * 64 ^ (7 : Int) = 34359738368 := by norm_num
    rw [hval, ← hv] at hmul
    have : 34359738368 ≤ n := by exact_mod_cast hmul
    omega
  obtain ⟨e, he⟩ := Int.eq_ofNat_of_zero_le h0
  refine ⟨e, by omega, he, ?_⟩
  rw [hv, scaled, zpow_64, mul_assoc, ← zpow_add₀ (by norm_num), he]
  simp

theorem sum_double {s : Int} {e : Nat} (hs : s.natAbs ≤ 2 ^ 31) (he : e ≤ 6) :
    IsDouble (s * 2 ^ (-(6 * e : Int)) + 1 / 2) := by
  obtain ⟨w, hw⟩ : ∃ w : Nat, w = 64 ^ e := ⟨_, rfl⟩
  have h64 : w ≤ 64 ^ 6 := hw ▸ Nat.pow_le_pow_right (by decide) he
  refine ⟨2 * s + w, -(6 * e + 1), by omega, by omega, by omega, ?_⟩
  have hpow : (w : ℚ) = 2 ^ (6 * e : Int) := by
    rw [← zpow_64, hw]
    simp
  have hsplit : (2 : ℚ) ^ (-(6 * e + 1) : Int) = 2 ^ (-(6 * e : Int)) / 2 := by
    rw [neg_add, zpow_add₀ (by norm_num), zpow_neg_one, div_eq_mul_inv]
  have hinv : (2 : ℚ) ^ (6 * e : Int) * 2 ^ (-(6 * e : Int)) = 1 := by
    rw [← zpow_add₀ (by norm_num), add_neg_cancel, zpow_zero]
  rw [hsplit, Int.cast_add, Int.cast_mul, Int.cast_natCast, hpow, Int.cast_ofNat]
  calc (s : ℚ) * 2 ^ (-(6 * e : Int)) + 1 / 2
      = s * 2 ^ (-(6 * e : Int)) + 2 ^ (6 * e : Int) * 2 ^ (-(6 * e : Int)) / 2 := by rw [hinv]
    _ = (2 * s + 2 ^ (6 * e : Int)) * (2 ^ (-(6 * e : Int)) / 2) := by ring

/-- `int`s are in the range where the strings are exact. -/
theorem sortExact_int {i : Int} (hle : i.natAbs ≤ 2 ^ 31) : SortExact i := by
  have hd : IsDouble i := ⟨i, 0, by omega, by norm_num, by norm_num, by simp⟩
  refine ⟨hd, ?_⟩
  unfold sortParts
  rcases lt_trichotomy i 0 with h | h | h
  · obtain ⟨n, rfl⟩ : ∃ n : Nat, i = -n := ⟨i.natAbs, by omega⟩
    have hq : ((-n : Int) : ℚ) < 0 := by exact_mod_cast h
    have habs : -((-n : Int) : ℚ) = n := by push_cast; ring
    have hs := normalise_abs hd.neg (neg_nonneg.2 hq.le)
    simp only [if_pos hq]
    rw [habs] at hs ⊢
    obtain ⟨e, he, -, hr⟩ := scaled_nat (by omega) (by omega) hs
    have := sum_double hle he
    rw [hr]
    push_cast at this
    rwa [neg_mul] at this
  · subst h
    exact ⟨1, -1, by norm_num, by norm_num, by norm_num, by norm_num [normalise]⟩
  · obtain ⟨n, rfl⟩ : ∃ n : Nat, i = n := ⟨i.natAbs, by omega⟩
    have hq : ¬ ((n : Int) : ℚ) < 0 := not_lt.2 (by exact_mod_cast h.le)
    have habs : ((n : Int) : ℚ) = n := Int.cast_natCast n
    have hs := normalise_abs hd (not_lt.1 hq)
    simp only [if_neg hq]
    rw [habs] at hs ⊢
    obtain ⟨e, he, -, hr⟩ := scaled_nat (by omega) (by omega) hs
    have := sum_double hle he
    rw [hr]
    rwa [habs] at this

end Dbsql.L1
