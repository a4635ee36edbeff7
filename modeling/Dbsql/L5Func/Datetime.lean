import Dbsql.L3Vdbe.Arithmetic
/-!
# Dates and times (cg_date.c:68-80, 262-305, 413-438)

A `datetime_t` has a Julian day number, a date and a time of day, and says which of them are valid; each
is computed from the others when it is asked for. Arithmetic is exact: a `double` is a rational number and
an `int` is an integer. A conversion to `int` cuts off the fraction.

Results:
* `gregorianJD_eq`, `ymdOf_eq`: the conversions in integers.
-/
namespace Dbsql.L5.Func.Date
open Dbsql.L3

/-! ## The code -/

/-- `datetime_t` (cg_date.c:68-80). -/
structure Datetime where
  rJD : ℚ
  Y : Int
  M : Int
  D : Int
  h : Int
  m : Int
  tz : Int
  s : ℚ
  validYMD : Bool
  validHMS : Bool
  validJD : Bool
  validTZ : Bool
  deriving DecidableEq

/-- `memset(dt, 0, sizeof(*dt))`. -/
def Datetime.zero : Datetime := ⟨0, 0, 0, 0, 0, 0, 0, 0, false, false, false, false⟩

/-- The Julian day number of a date (cg_date.c:286-293). -/
def gregorianJD (Y M D : Int) : ℚ :=
  let (Y, M) := if M ≤ 2 then (Y - 1, M + 12) else (Y, M)
  let A := Y.tdiv 100
  let B := 2 - A + A.tdiv 4
  let X1 := truncRat (365.25 * (Y + 4716 : Int))
  let X2 := truncRat (30.6001 * (M + 1 : Int))
  (X1 + X2 + D + B : Int) - 1524.5

/-- `__compute_jd` (cg_date.c:269-305). -/
def computeJd (dt : Datetime) : Datetime :=
  if dt.validJD then dt
  else
    let (Y, M, D) := if dt.validYMD then (dt.Y, dt.M, dt.D) else (2000, 1, 1)
    let dt := { dt with rJD := gregorianJD Y M D, validJD := true, validYMD := false }
    if dt.validHMS then
      let dt := { dt with rJD := dt.rJD + (dt.h * 3600 + dt.m * 60 + dt.s) / 86400 }
      if dt.validTZ then
        { dt with rJD := dt.rJD + (dt.tz * 60 : Int) / 86400, validHMS := false, validTZ := false }
      else dt
    else dt

/-- The date of a whole day (cg_date.c:426-435). -/
def ymdOf (Z : Int) : Int × Int × Int :=
  let A := truncRat ((Z - 1867216.25) / 36524.25)
  let A := Z + 1 + A - A.tdiv 4
  let B := A + 1524
  let C := truncRat ((B - 122.1) / 365.25)
  let D := truncRat (365.25 * C)
  let E := truncRat ((B - D : Int) / 30.6001)
  let X1 := truncRat (30.6001 * E)
  let M := if E < 14 then E - 1 else E - 13
  (if 2 < M then C - 4716 else C - 4715, M, B - D - X1)

/-- `Z = dt->rJD + 0.5`, an `int`. -/
def wholeDay (rJD : ℚ) : Int := truncRat (rJD + 0.5)

/-- `__compute_ymd` (cg_date.c:419-438). -/
def computeYmd (dt : Datetime) : Datetime :=
  if dt.validYMD then dt
  else
    let (Y, M, D) := ymdOf (wholeDay dt.rJD)
    { dt with Y, M, D, validYMD := true }

/-! ## In integers -/

/-- A quotient of integers without its fraction. -/
theorem truncRat_eq {q : ℚ} {n d : Int} (hd : 0 < d) (hq : q = n / d) : truncRat q = n.tdiv d := by
  obtain ⟨d, rfl⟩ := Int.eq_ofNat_of_zero_le hd.le
  have hfloor : ∀ k : Nat, ⌊((k : Int) : ℚ) / ((d : Int) : ℚ)⌋ = (k : Int) / (d : Int) := fun k => by
    have := Rat.floor_intCast_div_natCast (k : Int) d
    push_cast at this ⊢
    exact this
  obtain ⟨k, rfl | rfl⟩ := n.eq_nat_or_neg
  · rw [hq, truncRat_of_nonneg (by positivity), Int.tdiv_eq_ediv_of_nonneg (by positivity), hfloor]
  · have hneg : ((-(k : Int) : Int) : ℚ) / (d : Int) = -(((k : Int) : ℚ) / (d : Int)) := by
      push_cast
      ring
    rw [hq, hneg, truncRat_neg, truncRat_of_nonneg (by positivity), Int.neg_tdiv,
      Int.tdiv_eq_ediv_of_nonneg (by positivity), hfloor]

theorem truncRat_years (w : Int) : truncRat (365.25 * w) = (1461 * w).tdiv 4 :=
  truncRat_eq (by decide) (by push_cast; ring)

theorem truncRat_months (w : Int) : truncRat (30.6001 * w) = (306001 * w).tdiv 10000 :=
  truncRat_eq (by decide) (by push_cast; ring)

/-- The number of the day of a date, by its year and month in the count from March. -/
def dayJD (y μ D : Int) : Int :=
  (1461 * (y + 4716)).tdiv 4 + (306001 * (μ + 1)).tdiv 10000 + D + (2 - y.tdiv 100 + (y.tdiv 100).tdiv 4)

theorem gregorianJD_eq (Y M D : Int) : gregorianJD Y M D =
    (if M ≤ 2 then dayJD (Y - 1) (M + 12) D else dayJD Y M D : Int) - 1524.5 := by
  unfold gregorianJD dayJD
  by_cases hM : M ≤ 2
  · simp only [hM, if_true, truncRat_years, truncRat_months]
  · simp only [hM, if_false, truncRat_years, truncRat_months]

/-- The date of a day in integers. -/
theorem ymdOf_eq (Z : Int) : ymdOf Z =
    let A := (4 * Z - 7468865).tdiv 146097
    let B := Z + 1 + A - A.tdiv 4 + 1524
    let C := (20 * B - 2442).tdiv 7305
    let D := (1461 * C).tdiv 4
    let E := (10000 * (B - D)).tdiv 306001
    let M := if E < 14 then E - 1 else E - 13
    (if 2 < M then C - 4716 else C - 4715, M, B - D - (306001 * E).tdiv 10000) := by
  have hA : truncRat ((Z - 1867216.25) / 36524.25) = (4 * Z - 7468865).tdiv 146097 := by
    refine truncRat_eq (by decide) ?_
    push_cast
    ring
  have hC : ∀ B : Int, truncRat ((B - 122.1) / 365.25) = (20 * B - 2442).tdiv 7305 := fun B => by
    refine truncRat_eq (by decide) ?_
    push_cast
    ring
  have hE : ∀ n : Int, truncRat (n / 30.6001) = (10000 * n).tdiv 306001 := fun n => by
    refine truncRat_eq (by decide) ?_
    push_cast
    ring
  unfold ymdOf
  simp only [hA, hC, hE, truncRat_years, truncRat_months]

end Dbsql.L5.Func.Date
