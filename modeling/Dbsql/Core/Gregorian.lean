import Mathlib.Data.Int.Basic
import Mathlib.Tactic.IntervalCases
/-!
# The proleptic Gregorian calendar

Dates of the calendar for all years, also those before year 1. Days are counted from the beginning of
March, so that the leap day is the last one of its year: `marchYear` and `marchMonth` are the year and the
month in this count.

Results:
* `dayNumber_next`: consecutive dates have consecutive numbers.
-/
namespace Dbsql.Core.Gregorian

structure Date where
  year : Int
  month : Int
  day : Int
  deriving DecidableEq

def IsLeap (y : Int) : Prop := y % 4 = 0 ∧ (y % 100 ≠ 0 ∨ y % 400 = 0)

instance (y : Int) : Decidable (IsLeap y) := inferInstanceAs (Decidable (_ ∧ _))

def monthLength (y m : Int) : Int :=
  if m = 2 then if IsLeap y then 29 else 28
  else if m = 4 ∨ m = 6 ∨ m = 9 ∨ m = 11 then 30
  else 31

/-- A date of the calendar. -/
structure Date.Valid (d : Date) : Prop where
  month : 1 ≤ d.month ∧ d.month ≤ 12
  day : 1 ≤ d.day ∧ d.day ≤ monthLength d.year d.month

/-- The day after. -/
def Date.next (d : Date) : Date :=
  if d.day < monthLength d.year d.month then ⟨d.year, d.month, d.day + 1⟩
  else if d.month < 12 then ⟨d.year, d.month + 1, 1⟩
  else ⟨d.year + 1, 1, 1⟩

theorem monthLength_pos (y m : Int) : 28 ≤ monthLength y m ∧ monthLength y m ≤ 31 := by
  unfold monthLength
  split
  · split <;> omega
  · split <;> omega

theorem Date.Valid.next {d : Date} (h : d.Valid) : d.next.Valid := by
  have hpos := monthLength_pos d.year
  have hm := h.month
  have hd := h.day
  unfold Date.next
  split
  · exact ⟨hm, by dsimp only; omega⟩
  split
  · exact ⟨by dsimp only; omega, le_rfl, by have := hpos (d.month + 1); dsimp only; omega⟩
  · exact ⟨by dsimp only; omega, le_rfl, by have := monthLength_pos (d.year + 1) 1; dsimp only; omega⟩

/-! ## Numbers -/

/-- The year that begins in March. -/
def marchYear (d : Date) : Int := if d.month ≤ 2 then d.year - 1 else d.year

/-- The month, from 3 for March to 14 for February. -/
def marchMonth (d : Date) : Int := if d.month ≤ 2 then d.month + 12 else d.month

/-- The days of the years before a year. -/
def yearStart (y : Int) : Int := 365 * y + y / 4 - y / 100 + y / 400

/-- The days of the months before a month, from March on. -/
def monthStart (m : Int) : Int := (153 * m - 457) / 5

def dayNumber (d : Date) : Int := yearStart (marchYear d) + monthStart (marchMonth d) + d.day

/-- Every month but February ends where the next one begins. -/
theorem monthStart_next {y m : Int} (hm : 3 ≤ m ∧ m ≤ 13) :
    monthStart (m + 1) = monthStart m + monthLength y (if m ≤ 12 then m else m - 12) := by
  obtain ⟨hlo, hhi⟩ := hm
  interval_cases m <;> simp [monthStart, monthLength]

/-- The days of a year that begins in March; its leap day is that of the next year. -/
theorem yearStart_next (y : Int) :
    yearStart (y + 1) = yearStart y + 337 + monthLength (y + 1) 2 := by
  unfold yearStart monthLength
  rw [if_pos rfl]
  by_cases h : IsLeap (y + 1)
  · rw [if_pos h]
    unfold IsLeap at h
    omega
  · rw [if_neg h]
    unfold IsLeap at h
    omega

theorem dayNumber_day (y m d : Int) (k : Int) : dayNumber ⟨y, m, d + k⟩ = dayNumber ⟨y, m, d⟩ + k := by
  simp only [dayNumber, marchYear, marchMonth]
  omega

/-- The first day of the next month comes after the last day of a month. -/
theorem dayNumber_month {y m : Int} (hm : 1 ≤ m ∧ m < 12) :
    dayNumber ⟨y, m + 1, 1⟩ = dayNumber ⟨y, m, monthLength y m⟩ + 1 := by
  by_cases h2 : m = 2
  · subst h2
    have h := yearStart_next (y - 1)
    simp only [sub_add_cancel] at h
    simp only [dayNumber, marchYear, marchMonth]
    norm_num [h, monthStart]
  by_cases h1 : m = 1
  · subst h1
    have h := monthStart_next (y := y) (m := 13) (by omega)
    simp only [dayNumber, marchYear, marchMonth]
    norm_num at h ⊢
    omega
  · have h := monthStart_next (y := y) (m := m) (by omega)
    have hle : ¬m ≤ 2 := by omega
    have hle' : ¬m + 1 ≤ 2 := by omega
    simp only [dayNumber, marchYear, marchMonth, hle, hle', if_false]
    rw [if_pos (by omega)] at h
    omega

theorem dayNumber_year (y : Int) : dayNumber ⟨y + 1, 1, 1⟩ = dayNumber ⟨y, 12, 31⟩ + 1 := by
  simp only [dayNumber, marchYear, marchMonth]
  norm_num [monthStart]
  omega

/-- **Consecutive dates have consecutive numbers.** -/
theorem dayNumber_next {d : Date} (h : d.Valid) : dayNumber d.next = dayNumber d + 1 := by
  obtain ⟨y, m, d⟩ := d
  have hm := h.month
  have hd := h.day
  dsimp only at hm hd
  unfold Date.next
  dsimp only
  split
  · exact dayNumber_day y m d 1
  · obtain rfl : d = monthLength y m := by omega
    split
    · exact dayNumber_month ⟨hm.1, by assumption⟩
    · obtain rfl : m = 12 := by omega
      exact dayNumber_year y

end Dbsql.Core.Gregorian
