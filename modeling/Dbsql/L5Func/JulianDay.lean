import Dbsql.Core.Gregorian
import Dbsql.L5Func.Datetime
/-!
# Julian day numbers and dates

From the year 0 on the number of `__compute_jd` is that of the calendar. `__compute_ymd` counts centuries
with a division that is cut off towards zero, so that before the year 400 its quotient is one too large;
this is made up for elsewhere, but not on the day where the division has no remainder, the first of March
of the year 300.

Results:
* `ymdOf_gregorian`: every other date from the year 0 on comes back.
* `jd_ymd_iff`: the dates for which the conversions are right.
-/
namespace Dbsql.L5.Func.Date
open Dbsql.L3 Dbsql.Core.Gregorian

theorem tdiv_of_nonpos {a : Int} (ha : a ≤ 0) (b : Int) : a.tdiv b = -(-a / b) := by
  have h : a = -(-a) := by omega
  conv_lhs => rw [h]
  rw [Int.neg_tdiv, Int.tdiv_eq_ediv_of_nonneg (by omega)]

/-- The days of the months in `30.6001`. -/
theorem months_eq {μ : Int} (hμ : 3 ≤ μ ∧ μ ≤ 14) : (306001 * (μ + 1)).tdiv 10000 = monthStart μ + 122 := by
  obtain ⟨hlo, hhi⟩ := hμ
  interval_cases μ <;> rfl

/-- The days of the years in `365.25`. -/
theorem years_eq {w : Int} (hw : 0 ≤ w) : (1461 * w).tdiv 4 = 365 * w + w / 4 := by
  rw [Int.tdiv_eq_ediv_of_nonneg (by omega)]
  omega

theorem dayJD_eq {y μ : Int} (hy : -1 ≤ y) (hμ : 3 ≤ μ ∧ μ ≤ 14) (D : Int) :
    dayJD y μ D = yearStart y + monthStart μ + D + 1722643 := by
  have hc : 2 - y.tdiv 100 + (y.tdiv 100).tdiv 4 = 2 - y / 100 + y / 400 := by
    by_cases h : y = -1
    · subst h
      rfl
    · rw [Int.tdiv_eq_ediv_of_nonneg (by omega), Int.tdiv_eq_ediv_of_nonneg (by omega)]
      omega
  rw [dayJD, hc, months_eq hμ, years_eq (by omega), yearStart]
  omega

/-! ## Dates in the count from March -/

/-- The bounds of a date in the count from March. -/
structure Marched (y μ D : Int) : Prop where
  month : 3 ≤ μ ∧ μ ≤ 14
  day : 1 ≤ D ∧ D ≤ 31
  /-- The next month has not begun. -/
  before : μ < 14 → monthStart μ + D ≤ monthStart (μ + 1)
  /-- The year has not ended. -/
  year : monthStart μ + D ≤ 365 ∨ monthStart μ + D = 366 ∧ IsLeap (y + 1)

theorem marched {d : Date} (h : d.Valid) : Marched (marchYear d) (marchMonth d) d.day := by
  obtain ⟨y, m, d⟩ := d
  obtain ⟨⟨hlo, hhi⟩, hd⟩ := h
  dsimp only at hlo hhi hd
  have hlen := monthLength_pos y m
  have h29 : m = 2 → d ≤ 28 ∨ d ≤ 29 ∧ IsLeap y := by
    rintro rfl
    unfold monthLength at hd
    rw [if_pos rfl] at hd
    by_cases hl : IsLeap y
    · rw [if_pos hl] at hd
      exact .inr ⟨hd.2, hl⟩
    · rw [if_neg hl] at hd
      exact .inl hd.2
  by_cases hm : m ≤ 2
  · have hyear : marchYear ⟨y, m, d⟩ = y - 1 := if_pos hm
    have hmonth : marchMonth ⟨y, m, d⟩ = m + 12 := if_pos hm
    rw [hyear, hmonth]
    obtain rfl | rfl : m = 1 ∨ m = 2 := by omega
    · refine ⟨by omega, by dsimp only; omega, fun _ => ?_, .inl ?_⟩ <;> norm_num [monthStart] <;> omega
    · have hstart : monthStart (2 + 12) = 337 := rfl
      refine ⟨by omega, by dsimp only; omega, by omega, ?_⟩
      rw [hstart]
      dsimp only
      obtain h | ⟨h, hl⟩ := h29 rfl
      · exact .inl (by omega)
      · by_cases h' : d = 29
        · exact .inr ⟨by omega, by rwa [sub_add_cancel]⟩
        · exact .inl (by omega)
  · have hyear : marchYear ⟨y, m, d⟩ = y := if_neg hm
    have hmonth : marchMonth ⟨y, m, d⟩ = m := if_neg hm
    have hnext := monthStart_next (y := y) (m := m) (by omega)
    rw [if_pos hhi] at hnext
    rw [hyear, hmonth]
    refine ⟨by omega, by dsimp only; omega, fun _ => by dsimp only; omega, .inl ?_⟩
    dsimp only
    unfold monthStart at *
    omega

/-- The year of a number of days. -/
theorem year_decode {w k : Int} (hw : 0 ≤ w) (hk : 1 ≤ k) (hk' : k ≤ 365 ∨ k = 366 ∧ w % 4 = 3) :
    (20 * (365 * w + w / 4 + k + 122) - 2442).tdiv 7305 = w := by
  rw [Int.tdiv_eq_ediv_of_nonneg (by omega)]
  omega

/-- The month of the days of a year. -/
theorem month_decode {μ D : Int} (hμ : 3 ≤ μ ∧ μ ≤ 14) (hD : 1 ≤ D ∧ D ≤ 31)
    (hbefore : μ < 14 → monthStart μ + D ≤ monthStart (μ + 1)) (hyear : monthStart μ + D ≤ 366) :
    (10000 * (monthStart μ + D + 122)).tdiv 306001 = μ + 1 := by
  obtain ⟨hlo, hhi⟩ := hμ
  interval_cases μ <;> simp [monthStart] at hbefore hyear ⊢ <;>
    rw [Int.tdiv_eq_ediv_of_nonneg (by omega)] <;> omega

/-- The centuries before a day, as `__compute_ymd` has them. -/
def centuries (Z : Int) : Int :=
  let A := (4 * Z - 7468865).tdiv 146097
  A - A.tdiv 4

/-- With the right centuries the date comes out right. -/
theorem ymdOf_of_centuries {Z y μ D : Int} (hy : -4716 ≤ y) (hm : Marched y μ D)
    (hZ : Z + 1525 + centuries Z = 365 * (y + 4716) + (y + 4716) / 4 + (monthStart μ + D) + 122) :
    ymdOf Z = (if μ ≤ 12 then y else y + 1, if μ ≤ 12 then μ else μ - 12, D) := by
  have hB : Z + 1 + (4 * Z - 7468865).tdiv 146097 - ((4 * Z - 7468865).tdiv 146097).tdiv 4 + 1524 =
      365 * (y + 4716) + (y + 4716) / 4 + (monthStart μ + D) + 122 := by
    rw [← hZ, centuries]
    omega
  have hleap : monthStart μ + D ≤ 365 ∨ monthStart μ + D = 366 ∧ (y + 4716) % 4 = 3 := by
    obtain h | ⟨h, hl⟩ := hm.year
    · exact .inl h
    · have := hl.1
      exact .inr ⟨h, by omega⟩
  have hstart : 0 ≤ monthStart μ := by
    have := hm.month
    unfold monthStart
    omega
  have hday := hm.day
  have hmonth := hm.month
  rw [ymdOf_eq]
  simp only [hB]
  rw [year_decode (by omega) (by omega) hleap, years_eq (by omega)]
  have hrest : 365 * (y + 4716) + (y + 4716) / 4 + (monthStart μ + D) + 122 -
      (365 * (y + 4716) + (y + 4716) / 4) = monthStart μ + D + 122 := by omega
  rw [hrest, month_decode hm.month hm.day hm.before (by omega), months_eq hm.month]
  split <;> split <;> (try split) <;> simp only [Prod.mk.injEq] <;> omega

/-- The days of the years before a year, by its century `4 * q + ρ` and its number `r` there. -/
theorem yearStart_century {q ρ r : Int} (hρ : 0 ≤ ρ ∧ ρ < 4) (hr : 0 ≤ r ∧ r < 100) :
    yearStart (400 * q + 100 * ρ + r) = 146097 * q + 36524 * ρ + 365 * r + r / 4 := by
  have h4 : (400 * q + 100 * ρ + r) / 4 = 100 * q + 25 * ρ + r / 4 := by omega
  have h100 : (400 * q + 100 * ρ + r) / 100 = 4 * q + ρ := by omega
  have h400 : (400 * q + 100 * ρ + r) / 400 = q := by omega
  rw [yearStart, h4, h100, h400]
  ring

/-- A day within its century; there is no rest on the first of March before a leap century. -/
theorem century_rest {q ρ r μ D : Int} (hρ : 0 ≤ ρ ∧ ρ < 4) (hr : 0 ≤ r ∧ r < 100)
    (hm : Marched (400 * q + 100 * ρ + r) μ D) : ∃ R : Int, 0 ≤ R ∧ R < 146097 ∧
    4 * (yearStart (400 * q + 100 * ρ + r) + monthStart μ + D + 1721119) - 7468865 =
      146097 * (4 * q + ρ - 4) + R ∧ (R = 0 → ρ = 3 ∧ r = 0 ∧ μ = 3 ∧ D = 1) := by
  have hstart : 0 ≤ monthStart μ ∧ (monthStart μ = 0 → μ = 3) := by
    have := hm.month
    unfold monthStart
    omega
  have hyear : monthStart μ + D ≤ 365 ∨ monthStart μ + D = 366 ∧ (r = 99 → ρ = 3) := by
    obtain h | ⟨h, hl⟩ := hm.year
    · exact .inl h
    · unfold IsLeap at hl
      exact .inr ⟨h, by omega⟩
  have hday := hm.day
  clear hm
  rw [yearStart_century hρ hr]
  refine ⟨4 * (365 * r + r / 4 + (monthStart μ + D)) - 1 - ρ, by omega, by omega, by ring, ?_⟩
  intro h
  omega

/-- The centuries before a day of the calendar. -/
theorem centuries_eq {y μ D : Int} (hy : -1 ≤ y) (hm : Marched y μ D) (hne : ¬(y = 300 ∧ μ = 3 ∧ D = 1)) :
    centuries (yearStart y + monthStart μ + D + 1721119) = y / 100 - y / 400 - 3 := by
  obtain ⟨q, ρ, r, hρ, hr, rfl⟩ : ∃ q ρ r : Int, (0 ≤ ρ ∧ ρ < 4) ∧ (0 ≤ r ∧ r < 100) ∧
      y = 400 * q + 100 * ρ + r :=
    ⟨y / 400, y / 100 % 4, y % 100, by omega, by omega, by omega⟩
  obtain ⟨R, hR, hR', hW, h0⟩ := century_rest hρ hr hm
  have h100 : (400 * q + 100 * ρ + r) / 100 = 4 * q + ρ := by omega
  have h400 : (400 * q + 100 * ρ + r) / 400 = q := by omega
  rw [h100, h400]
  clear h100 h400 hm
  unfold centuries
  rw [hW]
  clear hW
  by_cases hc : 4 ≤ 4 * q + ρ
  · have hA : (146097 * (4 * q + ρ - 4) + R).tdiv 146097 = 4 * q + ρ - 4 := by
      rw [Int.tdiv_eq_ediv_of_nonneg (by omega)]
      omega
    simp only [hA]
    rw [Int.tdiv_eq_ediv_of_nonneg (by omega)]
    omega
  · -- the division is cut off towards zero: one century too many, unless there is no rest
    have hpos : 0 < R := by
      by_contra h
      obtain ⟨h300, hr0, hμ, hD⟩ := h0 (by omega)
      exact hne ⟨by omega, hμ, hD⟩
    have hA : (146097 * (4 * q + ρ - 4) + R).tdiv 146097 = 4 * q + ρ - 3 := by
      rw [tdiv_of_nonpos (by omega)]
      omega
    simp only [hA]
    rw [tdiv_of_nonpos (by omega)]
    omega

/-! ## From a date and back -/

/-- A time stamp that has this date only. -/
def ofDate (d : Date) : Datetime := { Datetime.zero with Y := d.year, M := d.month, D := d.day, validYMD := true }

/-- The Julian day number of a date is its number in the calendar. -/
theorem gregorianJD_dayNumber {d : Date} (hd : d.Valid) (hy : 0 ≤ d.year) :
    gregorianJD d.year d.month d.day = (dayNumber d + 1721119 : Int) - 0.5 := by
  have hmonth := hd.month
  have hday : (if d.month ≤ 2 then dayJD (d.year - 1) (d.month + 12) d.day
      else dayJD d.year d.month d.day) = dayNumber d + 1722643 := by
    unfold dayNumber marchYear marchMonth
    split
    · rw [dayJD_eq (by omega) (by omega)]
    · rw [dayJD_eq (by omega) (by omega)]
  rw [gregorianJD_eq, hday]
  push_cast
  ring

/-- **Every date from the year 0 on comes back**, but for the first of March 300. -/
theorem ymdOf_gregorian {d : Date} (hd : d.Valid) (hy : 0 ≤ d.year) (hne : d ≠ ⟨300, 3, 1⟩) :
    ymdOf (dayNumber d + 1721119) = (d.year, d.month, d.day) := by
  have hm := marched hd
  have hmarch : -1 ≤ marchYear d := by
    unfold marchYear
    split <;> omega
  have hne' : ¬(marchYear d = 300 ∧ marchMonth d = 3 ∧ d.day = 1) := by
    obtain ⟨y, m, d⟩ := d
    have hlo := hd.month
    unfold marchYear marchMonth
    dsimp only at hlo ⊢
    intro h
    split at h
    · omega
    · obtain ⟨rfl, rfl, rfl⟩ := h
      exact hne rfl
  have hc := centuries_eq hmarch hm hne'
  have hZ : dayNumber d + 1721119 = yearStart (marchYear d) + monthStart (marchMonth d) + d.day + 1721119 := rfl
  rw [hZ, ymdOf_of_centuries (by omega) hm]
  · have hmonth := hd.month
    unfold marchYear marchMonth
    split
    · rw [if_neg (by omega), if_neg (by omega)]
      simp
    · rw [if_pos (by omega), if_pos (by omega)]
  · rw [hc, yearStart]
    omega

theorem wholeDay_half (Z : Int) (hZ : 0 ≤ Z) : wholeDay ((Z : ℚ) - 0.5) = Z := by
  have h : (Z : ℚ) - 0.5 + 0.5 = Z := by ring
  rw [wholeDay, h, truncRat_of_nonneg (by exact_mod_cast hZ), Int.floor_intCast]

theorem computeJd_ofDate (d : Date) :
    (computeJd (ofDate d)).rJD = gregorianJD d.year d.month d.day := by
  simp [computeJd, ofDate, Datetime.zero]

/-- The date of a time stamp. -/
def Datetime.date (dt : Datetime) : Date := ⟨dt.Y, dt.M, dt.D⟩

theorem dayNumber_nonneg {d : Date} (hd : d.Valid) (hy : 0 ≤ d.year) : -59 ≤ dayNumber d := by
  have hmonth := hd.month
  have hday := hd.day
  unfold dayNumber marchYear marchMonth yearStart monthStart
  split <;> omega

theorem next_year {d : Date} (hy : 0 ≤ d.year) : 0 ≤ d.next.year := by
  unfold Date.next
  split
  · exact hy
  split
  · exact hy
  · dsimp only
    omega

theorem computeYmd_computeJd {d : Date} (hd : d.Valid) (hy : 0 ≤ d.year) :
    (computeYmd (computeJd (ofDate d))).date =
      let (Y, M, D) := ymdOf (dayNumber d + 1721119)
      ⟨Y, M, D⟩ := by
  have hJD : (computeJd (ofDate d)).validYMD = false := rfl
  have hpos := dayNumber_nonneg hd hy
  rw [computeYmd, hJD, computeJd_ofDate, gregorianJD_dayNumber hd hy, wholeDay_half _ (by omega)]
  rfl

theorem ymdOf_lost : ymdOf (dayNumber ⟨300, 3, 1⟩ + 1721119) = (300, 2, 29) := by
  rw [ymdOf_eq]
  decide

/-- **The conversions are right for every date from the year 0 on but one.** -/
theorem jd_ymd_iff {d : Date} (hd : d.Valid) (hy : 0 ≤ d.year) :
    ((computeYmd (computeJd (ofDate d))).date = d ∧
      (computeJd (ofDate d.next)).rJD = (computeJd (ofDate d)).rJD + 1) ↔ d ≠ ⟨300, 3, 1⟩ := by
  have hnext : (computeJd (ofDate d.next)).rJD = (computeJd (ofDate d)).rJD + 1 := by
    rw [computeJd_ofDate, computeJd_ofDate, gregorianJD_dayNumber hd.next (next_year hy),
      gregorianJD_dayNumber hd hy, dayNumber_next hd]
    push_cast
    ring
  refine ⟨?_, fun hne => ⟨?_, hnext⟩⟩
  · rintro ⟨hback, -⟩ rfl
    rw [computeYmd_computeJd hd hy] at hback
    rw [ymdOf_lost] at hback
    exact absurd (congrArg Date.day hback) (by decide)
  · rw [computeYmd_computeJd hd hy, ymdOf_gregorian hd hy hne]

theorem jd_ymd_iff_leap : (computeYmd (computeJd (ofDate ⟨2000, 2, 29⟩))).date = ⟨2000, 2, 29⟩ ∧
    (computeJd (ofDate ⟨2000, 3, 1⟩)).rJD = (computeJd (ofDate ⟨2000, 2, 29⟩)).rJD + 1 :=
  (jd_ymd_iff (d := ⟨2000, 2, 29⟩) ⟨by decide, by decide⟩ (by decide)).mpr (by decide)

/-- The first of March 300 becomes the 29th of February of a year that has none. -/
theorem jd_ymd_lost : ¬∀ d : Date, d.Valid → 0 ≤ d.year →
    (computeYmd (computeJd (ofDate d))).date = d ∧
      (computeJd (ofDate d.next)).rJD = (computeJd (ofDate d)).rJD + 1 := by
  intro h
  have hd : (⟨300, 3, 1⟩ : Date).Valid := ⟨by decide, by decide⟩
  have hback := (h ⟨300, 3, 1⟩ hd (by decide)).1
  rw [computeYmd_computeJd hd (by decide)] at hback
  rw [ymdOf_lost] at hback
  exact absurd (congrArg Date.day hback) (by decide)

end Dbsql.L5.Func.Date
